import ScriptEngine.Proofs.Determinism
import ScriptEngine.Proofs.LocalSlots

/-!
# Other names and slots

Accesses by slot make twins of twins, and a renaming that is right for what comes out of it is right
for what goes in: the nodes that are cut away, those of deletions of names, are all old.
-/

namespace ScriptEngine

open Node

/-! ## Deletions of names -/

namespace Forest

/-- The nodes of the deletions of names, with those below them. -/
def nameDeletions : Forest → List NodeId
  | .nil => []
  | .cons id l kids rest =>
    (if l.kind = .delProp ∧ (l.accessed? kids).isSome then id :: kids.ids else []) ++
      (kids.nameDeletions ++ rest.nameDeletions)

private theorem nameDeletions_collects : Collects nameDeletions fun id l kids =>
    if l.kind = .delProp ∧ (l.accessed? kids).isSome then id :: kids.ids else [] where
  nil := rfl
  cons _ _ _ _ := rfl
  quiet _ _ _ hkind := if_neg fun h => hkind.1 h.1
  property id l kids below hkind hkids hbelow := by
    rw [accessed?_delete hkind hkids, accessed?_delete hkind hbelow]
    simp
  switch id l stop kids below hkind := by simp [withStop, hkind]

private theorem Settled.lt_of_nameDeletions {first : Nat} {f : Forest} (h : f.Settled first) :
    ∀ q ∈ f.nameDeletions, q.index < first := by
  have hlt {f : Forest} (h : f.Settled first) : ∀ q ∈ f.ids, q.index < first := by
    induction f with
    | nil => simp
    | cons id l kids rest ihk ihr =>
      simpa [or_imp, forall_and] using ⟨h.1.1, ihk h.2.1, ihr h.2.2⟩
  induction f with
  | nil => simp [nameDeletions]
  | cons id l kids rest ihk ihr =>
    intro q hq
    rw [nameDeletions, List.mem_append, List.mem_append] at hq
    rcases hq with hq | hq | hq
    · split at hq
      · exact hlt h q (by simp only [ids_cons, List.mem_cons, List.mem_append] at hq ⊢; tauto)
      · simp at hq
    · exact ihk h.2.1 q hq
    · exact ihr h.2.2 q hq

end Forest

/-- Lowering leaves the deletions of names as they are. -/
theorem Lowered.deletesOld {site : Site} {E : List Scope} {form : Form} {w : Nat} {past : Bool}
    {f h : Forest} {events : List Event} (hlow : Lowered site E form w past f h events)
    (hset : f.Settled site.first) : ∀ q ∈ h.nameDeletions, q.index < site.first := by
  rw [Forest.nameDeletions_collects.lowered_eq hlow]
  exact hset.lt_of_nameDeletions

/-! ## Accesses by slot -/

namespace Forest

variable {first : Nat} {vars : VariableTable} {c c' : NodeId → NodeId} {ρ : NodeId → NodeId}
  {a a' : Forest}

@[simp] theorem ids_mapHead (g : Node → Node) (f : Forest) : (f.mapHead g).ids = f.ids := by
  cases f <;> rfl

namespace Twin

private theorem mapHead_withKind (h : a.Twin first a') (kind : Token) :
    (a.mapHead (·.withKind kind)).Twin first (a'.mapHead (·.withKind kind)) := by
  cases a with
  | nil =>
    cases a' with
    | nil => trivial
    | cons => exact h.elim
  | cons id l kids rest =>
    cases a' with
    | nil => exact h.elim
    | cons id' l' kids' rest' =>
      exact ⟨⟨h.1.1, congrArg (fun n : Node => { n with kind }) h.1.2⟩, h.2⟩

/-- Twins access the same variables. -/
theorem accessed?_eq {l l' : Node} (hl : l'.bare = l.bare) (h : a.Twin first a') :
    l'.accessed? a' = l.accessed? a := by
  have hkind : l'.kind = l.kind := kind_of_bare hl
  have hstring : l'.string? = l.string? := string?_of_bare hl
  cases a with
  | nil =>
    cases a' with
    | nil => simp [accessed?, hkind, hstring]
    | cons => exact h.elim
  | cons b lb below value =>
    cases a' with
    | nil => exact h.elim
    | cons b' lb' below' value' =>
      have hkind' : lb'.kind = lb.kind := kind_of_bare h.1.2
      have hstring' : lb'.string? = lb.string? := string?_of_bare h.1.2
      rw [accessed?_cons, accessed?_cons, hkind, hstring, hkind', hstring']

/-- Accesses by slot make twins of twins. -/
theorem bySlots (h : a.Twin first a') (hc : ∀ q, first ≤ (c q).index)
    (hc' : ∀ q, first ≤ (c' q).index) : (a.bySlots vars c).Twin first (a'.bySlots vars c') := by
  induction a generalizing a' with
  | nil =>
    cases a' with
    | nil => trivial
    | cons => exact h.elim
  | cons id l kids rest ihk ihr =>
    cases a' with
    | nil => exact h.elim
    | cons id' l' kids' rest' =>
      obtain ⟨⟨hid, hl⟩, hk, hr⟩ := h
      have hkind : l'.kind = l.kind := kind_of_bare hl
      have hsame : (l'.accessed? kids').bind vars.get? = (l.accessed? kids).bind vars.get? := by
        rw [hk.accessed?_eq hl]
      have hslot (kind : Token) (slot : Nat) :
          (l'.bySlot kind slot).bare = (l.bySlot kind slot).bare :=
        congrArg (fun n : Node => { n with kind }) hl
      cases haccess : (l.accessed? kids).bind vars.get? with
      | none =>
        rw [bySlots_keep haccess, bySlots_keep (hsame.trans haccess)]
        exact ⟨⟨hid, hl⟩, ihk hk, ihr hr⟩
      | some slot =>
        obtain ⟨name, hname, -⟩ := Option.bind_eq_some_iff.mp haccess
        rcases kind_of_accessed? hname with hn | hn | hn
        · rw [bySlots_name haccess hn, bySlots_name (hsame.trans haccess) (hkind.trans hn)]
          exact ⟨⟨hid, hslot _ _⟩, ihk hk, ihr hr⟩
        · rw [bySlots_setName haccess hn, bySlots_setName (hsame.trans haccess) (hkind.trans hn)]
          exact ⟨⟨hid, hslot _ _⟩, (ihk hk).mapHead_withKind _, ihr hr⟩
        · rw [bySlots_delete haccess hn, bySlots_delete (hsame.trans haccess) (hkind.trans hn)]
          have hline : l'.line = l.line := line_of_bare hl
          exact ⟨⟨.inr ⟨hc _, hc' _⟩, by rw [hline]⟩, trivial, ihr hr⟩

/-- Old nodes are kept. -/
theorem ids_eq_map (h : a.Twin first a') (hold : ∀ q ∈ a.ids, q.index < first)
    (hρ : Fixes first ρ) : a'.ids = a.ids.map ρ := by
  have hsame : ∀ {xs ys : List NodeId}, List.Forall₂ (Matches first) xs ys →
      (∀ q ∈ xs, q.index < first) → ys = xs.map ρ := by
    intro xs ys hall
    induction hall with
    | nil => intro _; rfl
    | @cons x y xs ys hxy _ ih =>
      intro hlt
      have hx := hlt x (by simp)
      have hy : y = x := hxy.resolve_right fun hnew => by omega
      rw [List.map_cons, hρ x hx, hy, ← ih fun q hq => hlt q (by simp [hq])]
  exact hsame h.forall_ids hold

/-- A renaming that is right after all accesses by slot is right before them. -/
theorem ids_of_bySlots (h : a.Twin first a') (hc : ∀ q, first ≤ (c q).index)
    (hc' : ∀ q, first ≤ (c' q).index) (hold : ∀ q ∈ a.nameDeletions, q.index < first)
    (hρ : Fixes first ρ)
    (hids : (a'.bySlots vars c').ids = (a.bySlots vars c).ids.map ρ) : a'.ids = a.ids.map ρ := by
  induction a generalizing a' with
  | nil =>
    cases a' with
    | nil => rfl
    | cons => exact h.elim
  | cons id l kids rest ihk ihr =>
    cases a' with
    | nil => exact h.elim
    | cons id' l' kids' rest' =>
      obtain ⟨⟨hid, hl⟩, hk, hr⟩ := h
      have holdKids (q : NodeId) (hq : q ∈ kids.nameDeletions) :=
        hold q (by simp [nameDeletions, hq])
      have holdRest (q : NodeId) (hq : q ∈ rest.nameDeletions) :=
        hold q (by simp [nameDeletions, hq])
      have hkind : l'.kind = l.kind := kind_of_bare hl
      have hsame : (l'.accessed? kids').bind vars.get? = (l.accessed? kids).bind vars.get? := by
        rw [hk.accessed?_eq hl]
      -- The node keeps its place, and so do the parts below and behind it.
      have hkeep (heq : id' :: ((kids'.bySlots vars c').ids ++ (rest'.bySlots vars c').ids) =
          (id :: ((kids.bySlots vars c).ids ++ (rest.bySlots vars c).ids)).map ρ) :
          id' :: (kids'.ids ++ rest'.ids) = (id :: (kids.ids ++ rest.ids)).map ρ := by
        simp only [List.map_cons, List.cons.injEq, List.map_append] at heq ⊢
        obtain ⟨hbelow, hbehind⟩ :=
          List.append_inj heq.2 (by simpa using (hk.bySlots hc hc').length_eq)
        exact ⟨heq.1, by rw [ihk hk holdKids hbelow, ihr hr holdRest hbehind]⟩
      rw [ids_cons, ids_cons]
      cases haccess : (l.accessed? kids).bind vars.get? with
      | none =>
        rw [bySlots_keep haccess, bySlots_keep (hsame.trans haccess)] at hids
        exact hkeep hids
      | some slot =>
        obtain ⟨name, hname, -⟩ := Option.bind_eq_some_iff.mp haccess
        rcases kind_of_accessed? hname with hn | hn | hn
        · rw [bySlots_name haccess hn, bySlots_name (hsame.trans haccess) (hkind.trans hn)] at hids
          exact hkeep hids
        · rw [bySlots_setName haccess hn, bySlots_setName (hsame.trans haccess) (hkind.trans hn),
            ids_cons, ids_cons, ids_mapHead, ids_mapHead] at hids
          exact hkeep hids
        · -- The nodes that are cut away are old.
          rw [bySlots_delete haccess hn, bySlots_delete (hsame.trans haccess) (hkind.trans hn)]
            at hids
          have hidOld := hold id (by simp [nameDeletions, hn, hname])
          have hkidsOld (q : NodeId) (hq : q ∈ kids.ids) :=
            hold q (by simp [nameDeletions, hn, hname, hq])
          have hids' := ihr hr holdRest (List.cons.inj hids).2
          have hsame : id' = id := hid.resolve_right fun hnew => by omega
          rw [List.map_cons, List.map_append, hids', hk.ids_eq_map hkidsOld hρ, hρ id hidOld, hsame]

end Twin

private theorem twin_rename (a : Forest) : a.Twin 0 (a.rename ρ) := by
  induction a with
  | nil => trivial
  | cons id l kids rest ihk ihr =>
    exact ⟨⟨.inr ⟨Nat.zero_le _, Nat.zero_le _⟩, rfl⟩, ihk, ihr⟩

private theorem rename_mapHead (a : Forest) (kind : Token) :
    (a.mapHead (·.withKind kind)).rename ρ = (a.rename ρ).mapHead (·.withKind kind) := by
  cases a with
  | nil => rfl
  | cons id l kids rest => simp only [mapHead, rename, rename_withKind]

/-- Accesses by slot after renaming, and before. -/
theorem bySlots_rename (hids : ((a.rename ρ).bySlots vars c').ids = (a.bySlots vars c).ids.map ρ) :
    (a.rename ρ).bySlots vars c' = (a.bySlots vars c).rename ρ := by
  induction a with
  | nil => rfl
  | cons id l kids rest ihk ihr =>
    have hbare : (l.rename ρ).bare = l.bare := rfl
    have hsame : ((l.rename ρ).accessed? (kids.rename ρ)).bind vars.get? =
        (l.accessed? kids).bind vars.get? := by
      rw [kids.twin_rename.accessed?_eq hbare]
    have hparts (heq : ((kids.rename ρ).bySlots vars c').ids ++
        ((rest.rename ρ).bySlots vars c').ids =
          ((kids.bySlots vars c).ids ++ (rest.bySlots vars c).ids).map ρ) :
        (kids.rename ρ).bySlots vars c' = (kids.bySlots vars c).rename ρ ∧
          (rest.rename ρ).bySlots vars c' = (rest.bySlots vars c).rename ρ := by
      have htwin : (kids.bySlots vars c).Twin 0 ((kids.rename ρ).bySlots vars c') :=
        kids.twin_rename.bySlots (fun _ => Nat.zero_le _) fun _ => Nat.zero_le _
      rw [List.map_append] at heq
      obtain ⟨hbelow, hbehind⟩ := List.append_inj heq (by simpa using htwin.length_eq)
      exact ⟨ihk hbelow, ihr hbehind⟩
    have hslot (kind : Token) (slot : Nat) :
        (l.bySlot kind slot).rename ρ = (l.rename ρ).bySlot kind slot := by
      rw [bySlot, rename_withAttr, rename_withKind]
      rfl
    rw [rename] at hids ⊢
    cases haccess : (l.accessed? kids).bind vars.get? with
    | none =>
      rw [bySlots_keep haccess, bySlots_keep (hsame.trans haccess)] at hids ⊢
      obtain ⟨hbelow, hbehind⟩ := hparts (List.cons.inj hids).2
      rw [hbelow, hbehind, rename]
    | some slot =>
      obtain ⟨name, hname, -⟩ := Option.bind_eq_some_iff.mp haccess
      rcases kind_of_accessed? hname with hn | hn | hn
      · rw [bySlots_name haccess hn, bySlots_name (hsame.trans haccess) hn] at hids ⊢
        obtain ⟨hbelow, hbehind⟩ := hparts (List.cons.inj hids).2
        rw [hbelow, hbehind, rename, hslot]
      · rw [bySlots_setName haccess hn, bySlots_setName (hsame.trans haccess) hn] at hids ⊢
        obtain ⟨hbelow, hbehind⟩ := hparts (by simpa using (List.cons.inj hids).2)
        rw [hbelow, hbehind, rename, hslot, rename_mapHead]
      · rw [bySlots_delete haccess hn, bySlots_delete (hsame.trans haccess) hn] at hids ⊢
        obtain ⟨hconstant, hbehind⟩ := List.cons.inj hids
        rw [hconstant, ihr hbehind, rename]
        rfl

/-- Accesses by slot in two forests that differ in names. -/
theorem Alike.bySlots {P : (NodeId → NodeId) → Prop} (h : a.Alike first P a')
    (hP : ∀ ρ, P ρ → Fixes first ρ) (hold : ∀ q ∈ a.nameDeletions, q.index < first)
    (hc : ∀ q, first ≤ (c q).index) (hc' : ∀ q, first ≤ (c' q).index) :
    (a.bySlots vars c).Alike first P (a'.bySlots vars c') := by
  refine ⟨h.twin.bySlots hc hc', fun ρ hρ hids => ?_⟩
  obtain rfl := h.eq_rename ρ hρ (h.twin.ids_of_bySlots hc hc' hold (hP ρ hρ) hids)
  exact bySlots_rename hids

end Forest

end ScriptEngine
