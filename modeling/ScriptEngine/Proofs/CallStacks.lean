import ScriptEngine.Proofs.StoreWalks

/-!
# The calls under way

The records of the calls under way are not kept in a list: the store knows the innermost one, and
each record knows its caller. `Store.Stacked` says that these links make the list of the records of
some frames, and that no other record has a caller. `Store.Disciplined` says what this means to
programs that look at the records.
-/

namespace ScriptEngine

variable {data : ActivationData} {link : Object → Option ObjId} {l : List ObjId}
  {start : Option ObjId}

/-- The records of calls, in their order. -/
def Frame.records (calls : List Frame) : List ObjId := calls.filterMap (·.activation)

namespace Store

open ScriptEngine.Frame (records)

variable {s t : Store} {calls : List Frame} {frame : Frame} {a : ObjId}

/-- The links between records are those of these calls, the innermost first. -/
structure Stacked (s : Store) (calls : List Frame) : Prop where
  chained : s.Chained callerLink s.innermost (records calls)
  owned : ∀ frame ∈ calls, ∀ a, frame.activation = some a →
    ∃ data, s.activation? a = some data ∧ frame.function = some data.function
  needed : ∀ frame ∈ calls, ∀ f, frame.function = some f →
    frame.activation.isSome = frame.unit.needsActivation
  ended : ∀ a data, s.activation? a = some data → a ∉ records calls → data.caller = none

/-- What a program sees of the calls under way, the innermost first. -/
structure Disciplined (s : Store) (calls : List Frame) : Prop where
  /-- A call of a function has a record exactly if the unit needs one. -/
  needed : ∀ frame ∈ calls, ∀ f, frame.function = some f →
    frame.activation.isSome = frame.unit.needsActivation
  owned : ∀ frame ∈ calls, ∀ a, frame.activation = some a →
    ∃ data, s.activation? a = some data ∧ frame.function = some data.function
  current : s.innermost = (records calls).head?
  walk : s.activations = records calls
  nodup : (records calls).Nodup
  /-- The innermost record of a function is that of its innermost call that has one. -/
  find : ∀ f, s.activationOf? f =
    (calls.find? fun frame => frame.activation.isSome && frame.function =
    some f).bind (·.activation)
  /-- The caller of a record is the next one. -/
  caller : ∀ inner a outer, records calls = inner ++ a :: outer →
    (s.activation? a).map (·.caller) = some outer.head?
  /-- A record that does not belong to a call under way has no caller. -/
  ended : ∀ a data, s.activation? a = some data → a ∉ records calls → data.caller = none
  /-- The `caller` of an `arguments` object that has outlived its call. -/
  escaped : ∀ id a, s.kind id = .arguments a → a.caller = .lazy → a.activation ∉ records calls →
    s.read id "caller" = .ok (some .null)

/-! ## Links -/

private theorem kind_eq_of_activation? (h : s.activation? a = some data) :
    s.kind a = .activation data := by
  rw [activation?] at h
  split at h
  · next hkind => rw [hkind, Option.some.inj h]
  · cases h

private theorem callerLink_eq (h : s.activation? a = some data) :
    callerLink (s.object a) = data.caller := by
  have hkind : (s.object a).kind = .activation data := kind_eq_of_activation? h
  rw [callerLink, hkind]

private theorem Stacked.isActivation (h : s.Stacked calls) (ha : a ∈ records calls) :
    ∃ data, s.activation? a = some data := by
  obtain ⟨frame, hframe, hact⟩ := List.mem_filterMap.mp ha
  obtain ⟨data, hdata, -⟩ := h.owned frame hframe a hact
  exact ⟨data, hdata⟩

/-- In a chain the link of an object leads to the next one. -/
theorem Chained.link_eq {inner outer : List ObjId}
    (h : s.Chained link start (inner ++ a :: outer)) : link (s.object a) = outer.head? := by
  induction inner generalizing start with
  | nil =>
    obtain ⟨-, -, hrest⟩ := h
    cases outer with
    | nil => exact hrest
    | cons b rest => exact hrest.1
  | cons b rest ih => exact ih h.2.2

private theorem Chained.start_eq (h : s.Chained link start l) : start = l.head? := by
  cases l with
  | nil => exact h
  | cons b rest => exact h.1

/-! ## What is seen -/

/-- The innermost record of a function among those of some calls. -/
theorem find?_records (hown : ∀ frame ∈ calls, ∀ a, frame.activation = some a →
      ∃ data, s.activation? a = some data ∧ frame.function = some data.function) (f : ObjId) :
    ((records calls).find? fun a => ((s.activation? a).map (·.function)) = some f) =
      (calls.find? fun frame => frame.activation.isSome && frame.function = some f).bind
        (·.activation) := by
  induction calls with
  | nil => rfl
  | cons frame rest ih =>
    have ih := ih fun c hc => hown c (by simp [hc])
    cases hact : frame.activation with
    | none =>
      rw [records, List.filterMap_cons_none hact, ← records, ih,
        List.find?_cons_of_neg (by simp [hact])]
    | some a =>
      obtain ⟨data, hdata, hfun⟩ := hown frame (by simp) a hact
      rw [records, List.filterMap_cons_some hact, ← records]
      by_cases hf : data.function = f
      · rw [List.find?_cons_of_pos (by simp [hdata, hf]),
          List.find?_cons_of_pos (by simp [hact, hfun, hf]), Option.bind_some, hact]
      · rw [List.find?_cons_of_neg (by simp [hdata, hf]),
          List.find?_cons_of_neg (by simp [hfun, hf]), ih]

/-- Records in a chain are linked as the frames are. -/
theorem Stacked.disciplined (h : s.Stacked calls) : s.Disciplined calls := by
  have hwalk : s.activations = records calls := h.chained.walk_eq
  refine ⟨h.needed, h.owned, h.chained.start_eq, hwalk, h.chained.nodup, fun f => ?_,
    fun inner a outer hsplit => ?_, h.ended, fun id args hkind hlazy hout => ?_⟩
  · rw [activationOf?, hwalk]
    exact find?_records h.owned f
  · obtain ⟨data, hdata⟩ := h.isActivation (a := a) (by rw [hsplit]; simp)
    have hlink := h.chained
    rw [hsplit] at hlink
    rw [hdata, Option.map_some, ← hlink.link_eq, callerLink_eq hdata]
  · -- A record that is gone has no caller, and neither has an object that is no record.
    have hcaller : (s.activation? args.activation).bind (·.caller) = none := by
      cases hact : s.activation? args.activation with
      | none => rfl
      | some data => exact h.ended _ data hact hout
    rw [read, hkind]
    simp [callerValue?, hlazy, hcaller]

/-- Records that are linked as the frames are form a chain. -/
theorem Disciplined.stacked (h : s.Disciplined calls) : s.Stacked calls := by
  refine ⟨?_, h.owned, h.needed, h.ended⟩
  -- Each record leads to the next one, so they make a chain from the innermost one on.
  have hchain : ∀ (inner outer : List ObjId), records calls = inner ++ outer →
      s.Chained callerLink outer.head? outer := by
    intro inner outer
    induction outer generalizing inner with
    | nil => exact fun _ => rfl
    | cons a rest ih =>
      intro hsplit
      have hcaller := h.caller inner a rest hsplit
      obtain ⟨data, hdata, hlink⟩ := Option.map_eq_some_iff.mp hcaller
      refine ⟨rfl, lt_size_of_activation? hdata, ?_⟩
      rw [callerLink_eq hdata, hlink]
      exact ih (inner ++ [a]) (by rw [hsplit]; simp)
  rw [h.current]
  exact hchain [] _ rfl

/-- No call is under way in a store without records. -/
theorem disciplined_nil (hinner : s.innermost = none) (hnone : ∀ a, s.activation? a = none) :
    s.Disciplined [] := by
  refine Stacked.disciplined ⟨hinner, by simp, by simp, fun a data hdata => ?_⟩
  rw [hnone a] at hdata
  cases hdata

/-! ## What leaves the calls alone -/

/-- A change of the store that touches neither the innermost record nor the callers of records. -/
structure CallsKept (s t : Store) : Prop where
  size_le : s.size ≤ t.size
  innermost_eq : t.innermost = s.innermost
  kept : ∀ a data, s.activation? a = some data →
    ∃ data', t.activation? a = some data' ∧ data'.function = data.function ∧
      data'.caller = data.caller
  fresh : ∀ a data, t.activation? a = some data → s.activation? a = none → data.caller = none

/-- Work that leaves the records of calls alone leaves the chain. -/
theorem Stacked.kept (h : s.Stacked calls) (hk : s.CallsKept t) : t.Stacked calls := by
  refine ⟨?_, fun frame hframe a hact => ?_, h.needed, fun a data hdata hout => ?_⟩
  · rw [hk.innermost_eq]
    refine h.chained.congr hk.size_le fun a ha => ?_
    obtain ⟨data, hdata⟩ := h.isActivation ha
    obtain ⟨data', hdata', -, hcaller⟩ := hk.kept a data hdata
    rw [callerLink_eq hdata', callerLink_eq hdata, hcaller]
  · obtain ⟨data, hdata, hfun⟩ := h.owned frame hframe a hact
    obtain ⟨data', hdata', hfun', -⟩ := hk.kept a data hdata
    exact ⟨data', hdata', by rw [hfun, hfun']⟩
  · cases hold : s.activation? a with
    | none => exact hk.fresh a data hdata hold
    | some old =>
      obtain ⟨data', hdata', -, hcaller⟩ := hk.kept a old hold
      obtain rfl : data' = data := Option.some.inj (hdata'.symm.trans hdata)
      rw [hcaller]
      exact h.ended a old hold hout

/-- Changes that keep all roles leave the records of calls alone. -/
theorem Evolves.callsKept (h : s.Evolves t) : s.CallsKept t := by
  refine ⟨h.size_le, h.innermost_eq, fun a data hdata => ⟨data, ?_, rfl, rfl⟩,
    fun a data hdata hnone => ?_⟩
  · rw [activation?_eq_some_iff, h.role_eq a (lt_size_of_activation? hdata),
      ← activation?_eq_some_iff, hdata]
  · refine h.fresh_record a data (Nat.le_of_not_lt fun hlt => ?_) (activation?_eq_some_iff.mp hdata)
    -- An object that was there has kept its role.
    rw [activation?_eq_some_iff, h.role_eq a hlt, ← activation?_eq_some_iff, hnone] at hdata
    cases hdata

theorem CallsKept.refl (s : Store) : s.CallsKept s := (Evolves.refl s).callsKept

/-- One such piece of work after another. -/
theorem CallsKept.trans {u : Store} (h : s.CallsKept t) (h' : t.CallsKept u) : s.CallsKept u := by
  refine ⟨Nat.le_trans h.size_le h'.size_le, h'.innermost_eq.trans h.innermost_eq,
    fun a data hdata => ?_, fun a data hdata hnone => ?_⟩
  · obtain ⟨d1, h1, hf1, hc1⟩ := h.kept a data hdata
    obtain ⟨d2, h2, hf2, hc2⟩ := h'.kept a d1 h1
    exact ⟨d2, h2, hf2.trans hf1, hc2.trans hc1⟩
  · cases hmid : t.activation? a with
    | none => exact h'.fresh a data hdata hmid
    | some d1 =>
      obtain ⟨d2, h2, -, hc2⟩ := h'.kept a d1 hmid
      obtain rfl : d2 = data := Option.some.inj (h2.symm.trans hdata)
      rw [hc2]
      exact h.fresh a d1 hmid hnone

/-- Properties do not matter to calls, also those of records. -/
theorem callsKept_setProperties (s : Store) (id : ObjId) (m : PropertyMap) :
    s.CallsKept (s.setProperties id m) := by
  have hsame : ∀ a, (s.setProperties id m).activation? a = s.activation? a := by
    intro a
    rw [activation?, kind, setProperties, part_modify (·.kind) rfl]
    rfl
  refine ⟨by simp, rfl, fun a data hdata => ⟨data, by rw [hsame, hdata], rfl, rfl⟩,
    fun a data hdata hnone => ?_⟩
  rw [hsame, hnone] at hdata
  cases hdata

/-! ## Calls begin and end -/

/-- A call without a record. -/
theorem Stacked.begin (h : s.Stacked calls) (hact : frame.activation = none)
    (hneeded : ∀ f, frame.function = some f → frame.unit.needsActivation = false) :
    s.Stacked (frame :: calls) := by
  have hrecords : records (frame :: calls) = records calls := List.filterMap_cons_none hact
  refine ⟨by rw [hrecords]; exact h.chained, fun c hc a ha => ?_, fun c hc f hf => ?_, ?_⟩
  · rcases List.mem_cons.mp hc with rfl | hc
    · rw [hact] at ha
      cases ha
    · exact h.owned c hc a ha
  · rcases List.mem_cons.mp hc with rfl | hc
    · rw [hact, hneeded f hf]
      rfl
    · exact h.needed c hc f hf
  · rw [hrecords]
    exact h.ended

/-- A call without a record ends. -/
theorem Stacked.finish (h : s.Stacked (frame :: calls)) (hact : frame.activation = none) :
    s.Stacked calls := by
  have hrecords : records (frame :: calls) = records calls := List.filterMap_cons_none hact
  exact ⟨hrecords ▸ h.chained, fun c hc => h.owned c (by simp [hc]),
    fun c hc => h.needed c (by simp [hc]), hrecords ▸ h.ended⟩

section

variable (ha : s.activation? a = some data)

include ha

private theorem activation?_setCaller (caller innermost : Option ObjId) (b : ObjId) :
    Store.activation? { s.setCaller a caller with innermost } b =
      if b = a then some { data with caller } else s.activation? b := by
  have hset : s.setCaller a caller = s.setKind a (.activation { data with caller }) := by
    rw [setCaller, ha]
  rw [hset]
  show Store.activation? (s.setKind a (.activation { data with caller })) b = _
  rw [activation?, s.kind_setKind _ _ _ (lt_size_of_activation? ha)]
  by_cases hb : b = a
  · rw [if_pos hb, if_pos hb]
  · rw [if_neg hb, if_neg hb]
    rfl

/-- A chain of records that leaves a record out. -/
theorem Chained.setCaller (h : s.Chained callerLink start l) (hout : a ∉ l)
    (hl : ∀ b ∈ l, ∃ d, s.activation? b = some d) (caller innermost : Option ObjId) :
    Chained { s.setCaller a caller with innermost } callerLink start l := by
  refine h.congr ?_ fun b hb => ?_
  · rw [Store.setCaller, ha]
    simp [size, setKind, Store.modify]
  · obtain ⟨d, hd⟩ := hl b hb
    have hne : b ≠ a := fun heq => hout (heq ▸ hb)
    have hd' : Store.activation? { s.setCaller a caller with innermost } b = some d := by
      rw [activation?_setCaller ha, if_neg hne, hd]
    rw [callerLink_eq hd, callerLink_eq hd']

/-- A call with a record. -/
theorem Stacked.enter (h : s.Stacked calls) (hnew : a ∉ records calls)
    (hact : frame.activation = some a) (hfun : frame.function = some data.function)
    (hneeded : frame.unit.needsActivation = true) : (s.enter a).Stacked (frame :: calls) := by
  have hrecords : records (frame :: calls) = a :: records calls := List.filterMap_cons_some hact
  have hself : (s.enter a).activation? a = some { data with caller := s.innermost } := by
    rw [Store.enter, activation?_setCaller ha, if_pos rfl]
  have hothers : ∀ b, b ≠ a → (s.enter a).activation? b = s.activation? b := by
    intro b hb
    rw [Store.enter, activation?_setCaller ha, if_neg hb]
  have hchain : (s.enter a).Chained callerLink s.innermost (records calls) :=
    h.chained.setCaller ha hnew (fun b hb => h.isActivation hb) _ _
  refine ⟨?_, fun c hc b hb => ?_, fun c hc f hf => ?_, fun b d hd hout => ?_⟩
  · rw [hrecords]
    refine ⟨rfl, lt_size_of_activation? hself, ?_⟩
    rw [callerLink_eq hself]
    exact hchain
  · rcases List.mem_cons.mp hc with rfl | hc
    · obtain rfl : a = b := Option.some.inj (hact.symm.trans hb)
      exact ⟨_, hself, hfun⟩
    · have hne : b ≠ a := by
        rintro rfl
        exact hnew (List.mem_filterMap.mpr ⟨c, hc, hb⟩)
      rw [hothers b hne]
      exact h.owned c hc b hb
  · rcases List.mem_cons.mp hc with rfl | hc
    · rw [hact, hneeded]
      rfl
    · exact h.needed c hc f hf
  · rw [hrecords, List.mem_cons, not_or] at hout
    rw [hothers b hout.1] at hd
    exact h.ended b d hd hout.2

end

/-- A call with a record ends: its record is the innermost one, and has no caller afterwards. -/
theorem Stacked.leave (h : s.Stacked (frame :: calls)) (hact : frame.activation = some a) :
    ∃ t, s.leave a = .ok t ∧ t.Stacked calls := by
  have hrecords : records (frame :: calls) = a :: records calls := List.filterMap_cons_some hact
  obtain ⟨data, ha, -⟩ := h.owned frame (by simp) a hact
  have hchain := h.chained
  rw [hrecords] at hchain
  obtain ⟨hinner, -, hrest⟩ := hchain
  rw [callerLink_eq ha] at hrest
  have hnew : a ∉ records calls := by
    have hnd := h.chained.nodup
    rw [hrecords] at hnd
    exact (List.nodup_cons.mp hnd).1
  have hcalls : ∀ b ∈ records calls, ∃ d, s.activation? b = some d :=
    fun b hb => h.isActivation (by rw [hrecords]; simp [hb])
  refine ⟨{ s.setCaller a none with innermost := data.caller }, ?_, ?_⟩
  · rw [Store.leave, if_pos hinner, ha]
    rfl
  · refine ⟨hrest.setCaller ha hnew hcalls _ _, fun c hc b hb => ?_,
      fun c hc => h.needed c (by simp [hc]), fun b d hd hout => ?_⟩
    · have hne : b ≠ a := by
        rintro rfl
        exact hnew (List.mem_filterMap.mpr ⟨c, hc, hb⟩)
      rw [activation?_setCaller ha, if_neg hne]
      exact h.owned c (by simp [hc]) b hb
    · rw [activation?_setCaller ha] at hd
      by_cases hb : b = a
      · rw [if_pos hb] at hd
        cases hd
        rfl
      · rw [if_neg hb] at hd
        exact h.ended b d hd (by rw [hrecords]; simp [hb, hout])

end Store

end ScriptEngine
