import ScriptEngine.Proofs.FunctionPositions
import ScriptEngine.Proofs.LoweringTotal

/-!
# Bodies as forests

The statements of a body, read off the arena. The reading goes down as many levels as the arena has
nodes, which is enough for every forest that the arena holds.
-/

namespace ScriptEngine

variable {p : Program} {j : BodyId} {l : Node} {config : Config}

namespace Tree

/-- Siblings with what is below them, down to `fuel` levels. -/
def forest (t : Tree) : Nat → List NodeId → Forest
  | 0, _ => .nil
  | fuel + 1, siblings =>
    siblings.foldr (fun id rest => .cons id (t.label id) (t.forest fuel (t.children id)) rest) .nil

private theorem Spells.forest_eq {t : Tree} {f : Forest} (h : t.Spells f) {fuel : Nat}
    (hfuel : f.count < fuel) : t.forest fuel f.roots = f := by
  induction f generalizing fuel with
  | nil => cases fuel <;> rfl
  | cons id l kids rest ihk ihr =>
    obtain ⟨⟨-, hl, hc⟩, hkids, hrest⟩ := h
    rw [Forest.count_cons] at hfuel
    obtain ⟨fuel, rfl⟩ : ∃ n, fuel = n + 1 := ⟨fuel - 1, by omega⟩
    have hbelow : t.forest fuel kids.roots = kids := ihk hkids (by omega)
    have hafter : t.forest (fuel + 1) rest.roots = rest := ihr hrest (by omega)
    rw [forest] at hafter
    rw [forest, Forest.roots_cons, List.foldr_cons, hafter, hl, hc, hbelow]

end Tree

/-- The statements of a body. -/
def Program.statements (p : Program) (j : BodyId) : Forest :=
  p.tree.forest (p.tree.size + 1) (p.tree.children (p.body j).root)

/-- What stands below the root of a body is its statements. -/
theorem Program.statements_eq {kids : Forest} (hlinked : p.tree.Linked)
    (h : p.tree.Stands (.tree (p.body j).root l kids)) : p.statements j = kids := by
  have hnodup := hlinked.nodup_of_stands h (by simp)
  have hlen := Tree.length_le_size hnodup fun q hq => h.1.bound hq
  obtain ⟨⟨⟨-, -, hc⟩, hkids, -⟩, -⟩ := h
  rw [Forest.length_ids, Forest.count_cons, Forest.count_nil] at hlen
  rw [statements, hc]
  exact hkids.forest_eq (by omega)

/-- The statements of a body stand where a body may hold them. -/
theorem Program.Framed.placed (h : p.Framed []) (hj : j.index < p.bodies.size) :
    (p.statements j).Placed (p.limits j) Token.isFree Token.isFree := by
  obtain ⟨l, kids, -, hst, hmade⟩ := h.rooted j hj
  rw [Program.statements_eq h.linked hst]
  exact hmade.placed

/-- The variables of a lowered body are accessed by their slots if it is a function that needs no
activation record. -/
def Body.usesSlots (b : Body) : Bool := b.isFunction && !b.requiresActivation

/-- When the variables of a lowered body are accessed by their slots: always or never. -/
def Body.slotRules (b : Body) (first : Nat) : SlotRules where
  vars := b.vars
  first
  may := b.usesSlots
  must := b.usesSlots

namespace Layout

variable (L : Layout)

/-- The statements of a body before it is lowered. -/
theorem statements_eq (hj : j.index < L.size) : L.program.statements j = L.kids j := by
  obtain ⟨l, hst⟩ := L.stands j hj
  exact Program.statements_eq L.linked hst

theorem spells_statements (hj : j.index < L.size) :
    L.program.tree.Spells (L.program.statements j) := by
  obtain ⟨l, hst⟩ := L.stands j hj
  rw [L.statements_eq hj]
  exact hst.1.2.1

variable {L} {s : LoweringState} {first : Nat}

/-- No body gets another root. -/
theorem Sound.root_eq (hs : L.Sound s) (j : BodyId) : (s.program.body j).root = L.root j :=
  Body.congr_frozen Body.root (hs.body_eq j) fun _ => rfl

theorem kids_nodup (hj : j.index < L.size) : (L.kids j).ids.Nodup :=
  (List.nodup_cons.mp (nodes_nodup hj)).2

theorem kids_lt (hj : j.index < L.size) {q : NodeId} (hq : q ∈ (L.kids j).ids) :
    q.index < L.nodeCount := nodes_lt hj (List.mem_cons_of_mem _ hq)

theorem Sound.isFunction_eq (hs : L.Sound s) (j : BodyId) :
    (s.program.body j).isFunction = (L.program.body j).isFunction :=
  Body.congr_frozen Body.isFunction (hs.body_eq j) fun _ => rfl

theorem Sound.vars_eq (hs : L.Sound s) (j : BodyId) :
    (s.program.body j).vars = (L.program.body j).vars :=
  Body.congr_frozen Body.vars (hs.body_eq j) fun _ => rfl

/-- The statements of a body that is lowered are those that stand below its root. -/
theorem Sound.statements_eq {k : Forest} (hs : L.Sound s)
    (hst : s.tree.Stands (.tree (L.root j) l k)) : s.program.statements j = k :=
  Program.statements_eq hs.linked (by rwa [hs.root_eq j])

/-- The statements of a body that is lowered stand below its root, which says what it said
before. -/
theorem Done.stands (hs : L.Sound s) (hd : L.Done config s j first) :
    s.tree.Stands (.tree (L.root j) (L.rootLabel j) (s.program.statements j)) := by
  obtain ⟨h, k, events, hst, -⟩ := hd
  rwa [hs.statements_eq hst]

/-- The statements of a body that is lowered are those that its old ones lower to, with variables
accessed by their slots unless the body needs an activation record. -/
theorem Done.exists_slotted (hs : L.Sound s) (hd : L.Done config s j first) :
    ∃ h events changes cut, Lowered (L.site config j) [] .list 0 false (L.kids j) h events ∧
      Slotted ((s.program.body j).slotRules L.nodeCount) (L.root j) changes cut h
        (s.program.statements j) := by
  obtain ⟨h, k, events, hst, -, hlow, hslots⟩ := hd
  rw [hs.statements_eq hst]
  split at hslots
  · next hact =>
    -- The changes are undone.
    have hmust : ¬ ((s.program.body j).slotRules L.nodeCount).must := by
      simp [Body.slotRules, Body.usesSlots, hact]
    rw [hslots]
    exact ⟨h, events, [], .nil, hlow, .refl h hmust⟩
  · next hact =>
    obtain ⟨changes, cut, hslotted⟩ := hslots
    have hrules : L.slotRules j ((L.program.body j).isFunction = true) =
        (s.program.body j).slotRules L.nodeCount := by
      simp [Body.slotRules, slotRules, Body.usesSlots, hact, hs.isFunction_eq, hs.vars_eq]
    exact ⟨h, events, changes, cut, hlow, hrules ▸ hslotted⟩

/-- No node stands twice in a lowered body. -/
theorem Done.statements_nodup (hs : L.Sound s) (hd : L.Done config s j first) :
    (s.program.statements j).ids.Nodup := by
  have hnodup := hs.linked.nodup_of_stands (hd.stands hs) (by simp)
  exact (List.nodup_cons.mp (by simpa using hnodup)).2

end Layout

end ScriptEngine
