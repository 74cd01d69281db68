import ScriptEngine.Proofs.EditEffects

/-!
# Edits act on child lists

Each structural edit of a chained tree succeeds under the condition that its list counterpart has,
changes the child list of one parent as that counterpart says, and leaves all other lists and all
labels as they were. The inserted nodes are in no child list before; they are a run of siblings.

## Key results

- `Chained.linkFront_rechains`, `Chained.linkBack_rechains`: a run at an end
- `Chained.addChildAfter_rechains`, `Chained.addChildBefore_rechains`: a node beside an anchor
- `Chained.removeChild_rechains`, `Chained.splice_rechains`: an element taken out or replaced by a
  run
- `Rechains.relinks`: a linked tree stays linked
-/

namespace ScriptEngine.Tree

open List

variable {t t' : Tree} {xs ys : List NodeId} {parent head tail c id child new anchor : NodeId}
  {start : Option NodeId}

/-! ## Setting one link -/

section

variable (t : Tree) (id q : NodeId) (n : Option NodeId)

@[simp] theorem size_setNext : (t.setNext id n).size = t.size := size_modify ..

@[simp] theorem size_setFirst : (t.setFirst id n).size = t.size := size_modify ..

@[simp] theorem size_setLast : (t.setLast id n).size = t.size := size_modify ..

@[simp] theorem firstChild?_setNext : (t.setNext id n).firstChild? q = t.firstChild? q :=
  node_modify_eq Node.first t id q rfl

@[simp] theorem firstChild?_setLast : (t.setLast id n).firstChild? q = t.firstChild? q :=
  node_modify_eq Node.first t id q rfl

@[simp] theorem lastChild?_setNext : (t.setNext id n).lastChild? q = t.lastChild? q :=
  node_modify_eq Node.last t id q rfl

@[simp] theorem lastChild?_setFirst : (t.setFirst id n).lastChild? q = t.lastChild? q :=
  node_modify_eq Node.last t id q rfl

@[simp] theorem next?_setFirst : (t.setFirst id n).next? q = t.next? q :=
  node_modify_eq Node.next t id q rfl

@[simp] theorem next?_setLast : (t.setLast id n).next? q = t.next? q :=
  node_modify_eq Node.next t id q rfl

/-! An edit may have to set the last child anew. -/

variable (c : Prop) [Decidable c]

@[simp] theorem size_setLast_if : (if c then t.setLast id n else t).size = t.size := by
  split <;> simp

@[simp] theorem next?_setLast_if : (if c then t.setLast id n else t).next? q = t.next? q := by
  split <;> simp

@[simp] theorem firstChild?_setLast_if :
    (if c then t.setLast id n else t).firstChild? q = t.firstChild? q := by
  split <;> simp

variable {t id} (hid : id.index < t.size)

include hid

private theorem next?_setNext : (t.setNext id n).next? q = if q = id then n else t.next? q := by
  simp only [setNext, next?, node_modify t id q _ hid]
  split <;> rfl

private theorem firstChild?_setFirst :
    (t.setFirst id n).firstChild? q = if q = id then n else t.firstChild? q := by
  simp only [setFirst, firstChild?, node_modify t id q _ hid]
  split <;> rfl

private theorem lastChild?_setLast :
    (t.setLast id n).lastChild? q = if q = id then n else t.lastChild? q := by
  simp only [setLast, lastChild?, node_modify t id q _ hid]
  split <;> rfl

end

/-! ## One child list changes -/

/-- A segment whose last link is set anew. -/
theorem Segment.redirect {stop stop' : Option NodeId} (h : t.Segment start xs stop) (hnd : xs.Nodup)
    (hn : ∀ c ∈ xs, t'.next? c = if xs.getLast? = some c then stop' else t.next? c) :
    t'.Segment (xs.head?.or stop') xs stop' := by
  rcases eq_nil_or_concat' xs with rfl | ⟨zs, z, rfl⟩
  · rfl
  · have hz : z ∉ zs := fun hm => (nodup_append.mp hnd).2.2 z hm z (by simp) rfl
    have hstart : (zs ++ [z]).head?.or stop' = start := by
      rw [h.start_eq]
      simp
    obtain ⟨m, hzs, hm, -⟩ := segment_append.mp h
    rw [hstart]
    refine segment_append.mpr ⟨m, hzs.congr fun c hc => ?_, hm, ?_⟩
    · rw [hn c (by simp [hc]), if_neg]
      rw [getLast?_concat]
      rintro ⟨⟩
      exact hz hc
    · rw [hn z (by simp), if_pos getLast?_concat]
      rfl

/-- The tree after an edit of the child list of one parent. A node that has left the list has no
sibling, and a node that is neither in the old nor in the new list keeps the one that it has. -/
structure Rechains (t t' : Tree) (parent : NodeId) (list : List NodeId) : Prop where
  chained : t'.Chained
  size_eq : t'.size = t.size
  children_eq : ∀ q, t'.children q = if q = parent then list else t.children q
  label_eq : ∀ q, t'.label q = t.label q
  next?_eq : ∀ q, q ∉ t.children parent → q ∉ list → t'.next? q = t.next? q
  next?_gone : ∀ q ∈ t.children parent, q ∉ list → t'.next? q = none

/-- Links that follow a new list below one parent and are otherwise the old ones. Elements of the
new list were below this parent before, or in no list. -/
theorem Chained.rechains_of_parent (h : t.Chained) (parent : NodeId)
    (list : List NodeId) (hsize : t'.size = t.size) (hlabel : ∀ q, t'.label q = t.label q)
    (hfirst : ∀ q, t'.firstChild? q = if q = parent then list.head? else t.firstChild? q)
    (hlast : ∀ q, t'.lastChild? q = if q = parent then list.getLast? else t.lastChild? q)
    (hseg : t'.Segment list.head? list none)
    (hnext : ∀ q, q ∉ t.children parent → q ∉ list → t'.next? q = t.next? q)
    (hgone : ∀ q ∈ t.children parent, q ∉ list → t'.next? q = none)
    (hnew : ∀ q ∈ list, q ∉ t.children parent → t.Orphan q) (hnodup : list.Nodup)
    (hbound : ∀ q ∈ list, q.index < t.size) : t.Rechains t' parent list := by
  -- A child of another parent is neither in the old nor in the new list.
  have hother : ∀ q c, q ≠ parent → c ∈ t.children q → c ∉ t.children parent ∧ c ∉ list := by
    intro q c hq hc
    have hold : c ∉ t.children parent := fun hp => hq (h.unique q parent c hc hp)
    exact ⟨hold, fun hl => hnew c hl hold q hc⟩
  have hlists := Chained.of_lists (t := t')
    (fun q => if q = parent then list else t.children q) ?_ ?_ ?_ ?_ ?_
  · exact ⟨hlists.1, hsize, hlists.2, hlabel, hnext, hgone⟩
  · intro p
    rw [hfirst p]
    by_cases hp : p = parent
    · simpa only [hp, if_true] using hseg
    · simp only [hp, if_false]
      exact (h.segment p).congr fun c hc => hnext c (hother p c hp hc).1 (hother p c hp hc).2
  · intro p
    rw [hlast p]
    by_cases hp : p = parent
    · simp only [hp, if_true]
    · simp only [hp, if_false, h.last p]
  · intro p c hc
    rw [hsize]
    by_cases hp : p = parent
    · simp only [hp, if_true] at hc
      exact hbound c hc
    · simp only [hp, if_false] at hc
      exact h.bound p c hc
  · intro p
    by_cases hp : p = parent
    · simpa only [hp, if_true] using hnodup
    · simpa only [hp, if_false] using h.nodup p
  · intro p q c hpc hqc
    by_cases hp : p = parent <;> by_cases hq : q = parent
    · rw [hp, hq]
    · simp only [hp, hq, if_true, if_false] at hpc hqc
      exact absurd hpc (hother q c hq hqc).2
    · simp only [hp, hq, if_true, if_false] at hpc hqc
      exact absurd hqc (hother p c hp hpc).2
    · simp only [hp, hq, if_false] at hpc hqc
      exact h.unique p q c hpc hqc

/-- A linked tree stays linked. -/
theorem Rechains.relinks {list : List NodeId} (hr : t.Rechains t' parent list) (h : t.Linked) :
    t.Relinks t' fun q => if q = parent then list else t.children q := by
  refine ⟨⟨hr.chained, fun c hc => ?_⟩, hr.size_eq, hr.children_eq, hr.label_eq⟩
  have hl : c ∉ list := by simpa [hr.children_eq] using hc parent
  by_cases hold : c ∈ t.children parent
  · exact hr.next?_gone c hold hl
  · rw [hr.next?_eq c hold hl]
    refine h.detached c fun p hp => ?_
    by_cases hpp : p = parent
    · exact hold (hpp ▸ hp)
    · have hout := hc p
      rw [hr.children_eq p, if_neg hpp] at hout
      exact hout hp

/-! ## Runs of siblings -/

private theorem Segment.unique (hx : t.Segment start xs none)
    (hy : t.Segment start ys none) : xs = ys := by
  induction xs generalizing start ys with
  | nil =>
    cases ys with
    | nil => rfl
    | cons y ys => exact absurd (hx.symm.trans hy.1) nofun
  | cons x xs ih =>
    cases ys with
    | nil => exact absurd (hy.symm.trans hx.1) nofun
    | cons y ys =>
      obtain rfl : x = y := Option.some.inj (hx.1.symm.trans hy.1)
      rw [ih hx.2 hy.2]

/-- A chain that ends passes over no node twice. -/
theorem Segment.nodup (h : t.Segment start xs none) : xs.Nodup := by
  induction xs generalizing start with
  | nil => exact nodup_nil
  | cons x xs ih =>
    refine nodup_cons.mpr ⟨fun hx => ?_, ih h.2⟩
    -- From both places of the node the same chain would follow.
    obtain ⟨as, bs, rfl⟩ := append_of_mem hx
    obtain ⟨m, -, -, hbs⟩ := segment_append.mp h.2
    have hlen := congrArg List.length (h.2.unique hbs)
    simp only [length_append, length_cons] at hlen
    omega

/-- Nodes of the arena that are in no child list and follow each other, down to a last one. -/
structure Loose (t : Tree) (run : List NodeId) : Prop where
  segment : t.Segment run.head? run none
  orphan : ∀ c ∈ run, t.Orphan c
  bound : ∀ c ∈ run, c.index < t.size

section

variable {zs run : List NodeId}

private theorem Loose.nodup (hr : t.Loose run) : run.Nodup := hr.segment.nodup

/-- The run from its first node. -/
theorem Loose.run_eq (hr : t.Loose run) (hh : run.head? = some head) : t.run (some head) = run := by
  rw [← hh]
  exact hr.segment.siblingsFrom_eq (length_le_size hr.nodup hr.bound)

/-- The last sibling of a loose run. -/
theorem Loose.lastSibling_eq (hr : t.Loose (zs ++ [tail]))
    (hh : (zs ++ [tail]).head? = some head) : t.lastSibling head = tail := by
  rw [lastSibling, hr.run_eq hh, getLast?_concat, Option.getD_some]

private theorem Loose.singleton (hb : c.index < t.size) (ho : t.Orphan c)
    (hn : t.next? c = none) : t.Loose [c] := by
  refine ⟨⟨rfl, hn⟩, fun q hq => ?_, fun q hq => ?_⟩
  · rw [mem_singleton.mp hq]
    exact ho
  · rw [mem_singleton.mp hq]
    exact hb

theorem Loose.next?_eq_none (hr : t.Loose [c]) : t.next? c = none := hr.segment.2

private theorem Linked.loose (h : t.Linked) (hb : c.index < t.size) (ho : t.Orphan c) :
    t.Loose [c] := .singleton hb ho (h.detached c ho)

end

/-! ## Checks -/

theorem check_eq_ok (h : id.index < t.size) : t.check id = .ok () := by
  simp [check, h]

/-- A node with no sibling behind it is detached. -/
theorem checkDetached_eq_ok (edit : String) (h : id.index < t.size)
    (hn : t.next? id = none) : t.checkDetached edit id = .ok () := by
  simp [checkDetached, check_eq_ok h, hn, bind, Except.bind]

private theorem predecessor?_append (ys : List NodeId) (hxs : child ∉ xs)
    (hne : xs ≠ []) : predecessor? child (xs ++ child :: ys) = xs.getLast? := by
  induction xs with
  | nil => exact absurd rfl hne
  | cons x xs ih =>
    cases xs with
    | nil => simp [predecessor?]
    | cons y xs =>
      have hy : y ≠ child := by
        rintro rfl
        simp at hxs
      have hrest : child ∉ y :: xs := fun hm => hxs (mem_cons_of_mem _ hm)
      have hlast := ih hrest (by simp)
      simp only [cons_append, predecessor?, hy, if_false] at hlast ⊢
      rw [hlast]
      simp

/-- The child before a child is the last element in front of it. -/
theorem Chained.childBefore_eq (h : t.Chained) (hc : t.children parent = xs ++ child :: ys) :
    t.childBefore parent child = .ok xs.getLast? := by
  have hp : parent.index < t.size := parent_bound (c := child) (by simp [hc])
  have hnd := h.nodup parent
  rw [hc] at hnd
  have hnot : child ∉ xs := fun hm =>
    (nodup_append.mp hnd).2.2 child hm child (by simp) rfl
  simp only [childBefore, check_eq_ok hp, h.firstChild?_eq, bind, Except.bind]
  cases xs with
  | nil => simp [hc, pure, Except.pure]
  | cons x xs =>
    have hx : x ≠ child := by
      rintro rfl
      simp at hnot
    have hpre := predecessor?_append ys hnot (by simp)
    rw [← hc] at hpre
    have hhead : (t.children parent).head? = some x := by simp [hc]
    rw [hhead, hpre]
    obtain ⟨y, hy⟩ : ∃ y, (x :: xs).getLast? = some y := ⟨_, getLast?_eq_some_getLast (by simp)⟩
    simp [hx, hy, pure, Except.pure]

/-! ## The edits -/

/-- The link to what stands behind a child, or in front of all children, is set anew. -/
def linkAfter (t : Tree) (parent : NodeId) (before next : Option NodeId) : Tree :=
  match before with
  | none => t.setFirst parent next
  | some b => t.setNext b next

section

variable (before next : Option NodeId) (q : NodeId)

@[simp] theorem size_linkAfter : (t.linkAfter parent before next).size = t.size := by
  cases before <;> simp [linkAfter]

@[simp] theorem lastChild?_linkAfter :
    (t.linkAfter parent before next).lastChild? q = t.lastChild? q := by
  cases before <;> simp [linkAfter]

private theorem next?_linkAfter (hxs : ∀ x ∈ xs, x.index < t.size) :
    (t.linkAfter parent xs.getLast? next).next? q =
      if xs.getLast? = some q then next else t.next? q := by
  rcases eq_nil_or_concat' xs with rfl | ⟨zs, z, rfl⟩
  · simp [linkAfter]
  · simp [linkAfter, next?_setNext _ _ (hxs z (by simp)), eq_comm]

/-- The first child, if the link leads to what is put in the place of the old. -/
theorem firstChild?_linkAfter (old new : List NodeId) (hp : parent.index < t.size)
    (hfirst : t.firstChild? parent = (xs ++ old).head?) :
    (t.linkAfter parent xs.getLast? new.head?).firstChild? q =
      if q = parent then (xs ++ new).head? else t.firstChild? q := by
  rcases eq_nil_or_concat' xs with rfl | ⟨zs, z, rfl⟩
  · simp [linkAfter, firstChild?_setFirst _ _ hp]
  · simp only [linkAfter, getLast?_concat, firstChild?_setNext]
    split
    · next hq =>
      rw [hq, hfirst]
      simp
    · rfl

end

section

variable (h : t.Chained)

include h

/-- The tree after some children in a row have made room for a run, which may be empty. All edits
have this form, and at most one child makes room. -/
theorem Chained.rechains_of_splice (xs gone list ys : List NodeId)
    (hc : t.children parent = xs ++ gone ++ ys) (hr : t.Loose list) (hre : t.Relinked t')
    (hfirst : ∀ q, t'.firstChild? q =
      if q = parent then (xs ++ list ++ ys).head? else t.firstChild? q)
    (hlast : ∀ q, t'.lastChild? q =
      if q = parent then (xs ++ list ++ ys).getLast? else t.lastChild? q)
    (hnext : ∀ q, t'.next? q = if q ∈ gone then none
      else if xs.getLast? = some q then (list ++ ys).head?
      else if list.getLast? = some q then ys.head? else t.next? q) :
    t.Rechains t' parent (xs ++ list ++ ys) := by
  have hnd := h.nodup parent
  have hold := h.segment parent
  rw [hc] at hnd hold
  obtain ⟨hndxg, hndy, hdisy⟩ := nodup_append.mp hnd
  obtain ⟨hndx, -, hdisx⟩ := nodup_append.mp hndxg
  obtain ⟨m, hsxg, hsy⟩ := segment_append.mp hold
  obtain ⟨m', hsx, -⟩ := segment_append.mp hsxg
  -- The nodes of the run are none of the children.
  have hfresh : ∀ q ∈ list, (q ∉ xs ∧ q ∉ gone) ∧ q ∉ ys := by
    intro q hq
    simpa [hc, and_assoc] using hr.orphan q hq parent
  -- The part in front keeps its links but the last, the part behind keeps all.
  have hfront : t'.Segment (xs ++ list ++ ys).head? xs (list ++ ys).head? := by
    rw [append_assoc, head?_append]
    refine hsx.redirect hndx fun c hcx => ?_
    rw [hnext c, if_neg fun hg => hdisx c hcx c hg rfl,
      if_neg fun hl => (hfresh c (mem_of_getLast? hl)).1.1 hcx]
  have hmiddle : t'.Segment (list ++ ys).head? list ys.head? := by
    rw [head?_append]
    refine hr.segment.redirect hr.nodup fun c hcl => ?_
    rw [hnext c, if_neg (hfresh c hcl).1.2,
      if_neg fun hx => (hfresh c hcl).1.1 (mem_of_getLast? hx)]
  have hback : t'.Segment ys.head? ys none := by
    have hstart := hsy.start_eq
    rw [Option.or_none] at hstart
    rw [← hstart]
    refine hsy.congr fun c hcy => ?_
    have hout : c ∉ xs ++ gone := fun hm => hdisy c hm c hcy rfl
    rw [mem_append, not_or] at hout
    rw [hnext c, if_neg hout.2, if_neg fun hx => hout.1 (mem_of_getLast? hx),
      if_neg fun hl => (hfresh c (mem_of_getLast? hl)).2 hcy]
  refine h.rechains_of_parent parent _ hre.size_eq hre.label_eq hfirst hlast ?_ ?_ ?_ ?_ ?_ ?_
  · rw [append_assoc] at hfront ⊢
    exact segment_append.mpr ⟨_, hfront, segment_append.mpr ⟨_, hmiddle, hback⟩⟩
  · intro q hq hq'
    simp only [hc, mem_append, not_or] at hq hq'
    rw [hnext q, if_neg hq.1.2, if_neg fun hx => hq.1.1 (mem_of_getLast? hx),
      if_neg fun hl => hq'.1.2 (mem_of_getLast? hl)]
  · intro q hq hq'
    simp only [hc, mem_append, not_or] at hq hq'
    rw [hnext q, if_pos (by simpa [hq'] using hq)]
  · intro q hq hq'
    simp only [hc, mem_append, not_or] at hq hq'
    exact hr.orphan q (by simpa [hq'] using hq)
  · refine nodup_append.mpr ⟨nodup_append.mpr ⟨hndx, hr.nodup, ?_⟩, hndy, ?_⟩
    · rintro a ha b hb rfl
      exact (hfresh a hb).1.1 ha
    · rintro a ha b hb rfl
      rcases mem_append.mp ha with ha | ha
      · exact hdisy a (mem_append_left _ ha) a hb rfl
      · exact (hfresh a ha).2 hb
  · intro q hq
    rcases mem_append.mp hq with hq | hq
    · rcases mem_append.mp hq with hq | hq
      · exact h.bound parent q (by simp [hc, hq])
      · exact hr.bound q hq
    · exact h.bound parent q (by simp [hc, hq])

/-- A run in front of all children comes before them in the list. -/
theorem Chained.linkFront_rechains (zs : List NodeId) (hp : parent.index < t.size)
    (hr : t.Loose (zs ++ [tail])) (hh : (zs ++ [tail]).head? = some head) :
    t.Rechains (t.linkFront parent head tail) parent (zs ++ [tail] ++ t.children parent) := by
  have ht : tail.index < t.size := hr.bound tail (by simp)
  have hhead : (zs ++ [tail] ++ t.children parent).head? = some head := by
    rw [head?_append, hh]
    rfl
  refine h.rechains_of_splice [] [] (zs ++ [tail]) _ rfl hr (.linkFront ..) ?_ ?_ ?_
  · intro q
    rw [nil_append, hhead]
    simp [linkFront, firstChild?_setFirst _ _ (t := t.setNext tail _) (by simpa using hp)]
  · intro q
    have hl := h.last parent
    simp only [linkFront, lastChild?_setFirst, lastChild?_setNext, hl]
    rcases eq_nil_or_concat' (t.children parent) with hnil | ⟨us, u, hcat⟩
    · simp [hnil, lastChild?_setLast _ _ (t := (t.setNext tail _).setFirst parent _)
        (by simpa using hp)]
    · rw [hcat, getLast?_concat] at hl
      simp only [hcat, getLast?_concat, Option.isNone_some, Bool.false_eq_true, if_false,
        lastChild?_setFirst, lastChild?_setNext]
      split
      · next hq => rw [hq, hl, ← append_assoc, getLast?_concat]
      · rfl
  · intro q
    simp [linkFront, next?_setNext _ _ ht, h.firstChild?_eq, eq_comm (a := tail)]

/-- A run behind all children comes behind them in the list. -/
theorem Chained.linkBack_rechains (zs : List NodeId) (hp : parent.index < t.size)
    (hr : t.Loose (zs ++ [tail])) (hh : (zs ++ [tail]).head? = some head) :
    t.Rechains (t.linkBack parent head tail) parent (t.children parent ++ (zs ++ [tail])) := by
  have hlink : t.linkBack parent head tail =
      (t.linkAfter parent (t.children parent).getLast? (zs ++ [tail]).head?).setLast parent
        (some tail) := by
    rw [linkBack, h.last parent, hh]
    cases (t.children parent).getLast? <;> rfl
  have hnone : t.next? tail = none := hr.segment.next?_eq
  rw [← append_nil (t.children parent ++ (zs ++ [tail]))]
  refine h.rechains_of_splice _ [] _ [] (by simp) hr (.linkBack ..) ?_ ?_ ?_
  · intro q
    rw [hlink, firstChild?_setLast,
      firstChild?_linkAfter q [] _ hp (by rw [h.firstChild?_eq, append_nil]),
      append_nil]
  · intro q
    rw [hlink, lastChild?_setLast _ _ (by simpa using hp)]
    simp
  · intro q
    rw [hlink, next?_setLast, next?_linkAfter _ _ (h.bound parent)]
    simp only [not_mem_nil, if_false, append_nil, getLast?_concat, head?_nil]
    split
    · rfl
    · split
      · next hq => rw [← Option.some.inj hq, hnone]
      · rfl

/-- Elements of a list without repetition on either side of one of them are not this one. -/
theorem Chained.not_mem_of_children (hc : t.children parent = xs ++ child :: ys) :
    child ∉ xs ∧ child ∉ ys := by
  have hnd := h.nodup parent
  rw [hc] at hnd
  have hdis := (nodup_append.mp hnd).2
  exact ⟨fun hm => hdis.2 child hm child (by simp) rfl, (nodup_cons.mp hdis.1).1⟩

/-- The last child is a given one if and only if nothing stands behind that one. -/
theorem Chained.lastChild?_eq_some_iff (hc : t.children parent = xs ++ child :: ys) :
    t.lastChild? parent = some child ↔ ys = [] := by
  rw [h.last parent, hc]
  rcases eq_nil_or_concat' ys with rfl | ⟨zs, z, rfl⟩
  · simp
  · have hz : child ≠ z := by
      rintro rfl
      exact (h.not_mem_of_children hc).2 (by simp)
    rw [← cons_append, ← append_assoc, getLast?_concat]
    simp [Ne.symm hz]

/-- The last child is set anew if something else comes to stand in front of it. -/
theorem Chained.lastChild?_setLast_if (hc : t.children parent = xs ++ child :: ys) {u : Tree}
    (list : List NodeId) (hu : ∀ q, u.lastChild? q = t.lastChild? q)
    (hp : parent.index < u.size) (q : NodeId) :
    (if u.lastChild? parent = some child then u.setLast parent list.getLast? else u).lastChild? q =
      if q = parent then (list ++ ys).getLast? else t.lastChild? q := by
  simp only [hu, h.lastChild?_eq_some_iff hc]
  split
  · next hys => simp [hys, lastChild?_setLast _ _ hp, hu]
  · next hys =>
    rw [hu]
    split
    · next hq =>
      rw [hq, h.last parent, hc]
      rcases eq_nil_or_concat' ys with rfl | ⟨zs, z, rfl⟩
      · exact absurd rfl hys
      · simp [getLast?_cons]
    · rfl

/-- Inserting a node behind a child inserts it there in the list. -/
theorem Chained.addChildAfter_rechains (hc : t.children parent = xs ++ anchor :: ys)
    (hr : t.Loose [new]) :
    ∃ t', t.addChildAfter parent new anchor = .ok t' ∧
      t.Rechains t' parent (xs ++ anchor :: new :: ys) := by
  have hn : new.index < t.size := hr.bound new (by simp)
  have hp : parent.index < t.size := parent_bound (c := anchor) (by simp [hc])
  have ha : anchor.index < t.size := h.bound parent anchor (by simp [hc])
  have hfirst := h.firstChild?_eq (p := parent)
  rw [hc] at hfirst
  have hsplit : t.children parent = xs ++ [anchor] ++ [] ++ ys := by simp [hc]
  have hlist : xs ++ anchor :: new :: ys = xs ++ [anchor] ++ [new] ++ ys := by simp
  obtain ⟨t', hrun⟩ : ∃ t', t.addChildAfter parent new anchor = .ok t' := by
    simp only [addChildAfter, checkDetached_eq_ok _ hn hr.next?_eq_none, check_eq_ok hp,
      check_eq_ok ha, bind, Except.bind, pure, Except.pure]
    exact ⟨_, rfl⟩
  have hre := Relinked.of_addChildAfter hrun
  refine ⟨t', hrun, ?_⟩
  simp only [addChildAfter, checkDetached_eq_ok _ hn hr.next?_eq_none, check_eq_ok hp,
    check_eq_ok ha, bind, Except.bind, pure, Except.pure, Except.ok.injEq] at hrun
  rw [hlist]
  refine h.rechains_of_splice _ _ _ _ hsplit hr hre ?_ ?_ ?_ <;> rw [← hrun]
  · intro q
    simp only [firstChild?_setLast_if, firstChild?_setNext]
    split
    · next hq =>
      rw [hq, hfirst]
      cases xs <;> rfl
    · rfl
  · intro q
    have hlast := h.lastChild?_setLast_if hc (xs ++ [anchor] ++ [new])
      (u := (t.setNext new (t.next? anchor)).setNext anchor (some new)) (by simp)
      (by simpa using hp) q
    rwa [getLast?_concat] at hlast
  · intro q
    simp [next?_setNext _ _ (t := t.setNext new _) (by simpa using ha), next?_setNext _ _ hn,
      h.next?_of_children hc, eq_comm]

/-- Inserting a node in front of a child inserts it there in the list. -/
theorem Chained.addChildBefore_rechains (hc : t.children parent = xs ++ anchor :: ys)
    (hr : t.Loose [new]) :
    ∃ t', t.addChildBefore parent new anchor = .ok t' ∧
      t.Rechains t' parent (xs ++ new :: anchor :: ys) := by
  have hn : new.index < t.size := hr.bound new (by simp)
  have hnone := hr.next?_eq_none
  have hp : parent.index < t.size := parent_bound (c := anchor) (by simp [hc])
  simp only [addChildBefore, checkDetached_eq_ok _ hn hnone, h.childBefore_eq hc, bind,
    Except.bind]
  rcases eq_nil_or_concat' xs with rfl | ⟨zs, z, rfl⟩
  · -- The anchor is the first child: the edit is that of prepending.
    have hre := h.linkFront_rechains [] hp hr rfl
    have hlast : (t.lastChild? parent).isNone = false := by
      rw [h.last parent, hc]
      simp
    refine ⟨_, rfl, ?_⟩
    rw [linkFront, lastChild?_setFirst, lastChild?_setNext, hlast, h.firstChild?_eq, hc] at hre
    exact hre
  · have hc' : t.children parent = zs ++ z :: anchor :: ys := by simp [hc]
    obtain ⟨t', hafter, hre⟩ := h.addChildAfter_rechains hc' hr
    refine ⟨t', by simpa using hafter, by simpa using hre⟩

/-- Unlinking a child takes it out of the list. -/
theorem Chained.removeChild_rechains (hc : t.children parent = xs ++ child :: ys) :
    ∃ t', t.removeChild parent child = .ok t' ∧
      t.Rechains t' parent (xs ++ ys) := by
  have hp : parent.index < t.size := parent_bound (c := child) (by simp [hc])
  have hch : child.index < t.size := h.bound parent child (by simp [hc])
  have hxs : ∀ x ∈ xs, x.index < t.size := fun x hx => h.bound parent x (by simp [hc, hx])
  have hfirst := h.firstChild?_eq (p := parent)
  rw [hc] at hfirst
  let u := t.linkAfter parent xs.getLast? ys.head?
  let t' := (if u.lastChild? parent = some child then u.setLast parent xs.getLast? else u).setNext
    child none
  have hrun : t.removeChild parent child = .ok t' := by
    simp only [removeChild, h.childBefore_eq hc, h.next?_of_children hc, bind, Except.bind, pure,
      Except.pure, t', u]
    cases xs.getLast? <;> rfl
  refine ⟨t', hrun, ?_⟩
  rw [← append_nil xs]
  refine h.rechains_of_splice _ [child] [] _ (by simp [hc]) ⟨rfl, by simp, by simp⟩
    (.of_removeChild hrun) ?_ ?_ ?_
  · intro q
    simpa [t', u] using firstChild?_linkAfter q _ _ hp hfirst
  · intro q
    simpa [t', u] using h.lastChild?_setLast_if hc xs (u := u) (by simp [u])
      (by simpa [u] using hp) q
  · intro q
    simp only [t']
    rw [next?_setNext _ _ (by simpa [u] using hch), next?_setLast_if, next?_linkAfter _ _ hxs]
    simp

/-- Putting a run into the place of a child puts it there in the list. -/
theorem Chained.splice_rechains (zs : List NodeId) (hc : t.children parent = xs ++ child :: ys)
    (hr : t.Loose (zs ++ [tail])) (hh : (zs ++ [tail]).head? = some new) :
    t.Rechains (t.splice parent xs.getLast? child new) parent (xs ++ (zs ++ [tail]) ++ ys) := by
  have hp : parent.index < t.size := parent_bound (c := child) (by simp [hc])
  have hch : child.index < t.size := h.bound parent child (by simp [hc])
  have ht : tail.index < t.size := hr.bound tail (by simp)
  have hxs : ∀ x ∈ xs, x.index < t.size := fun x hx => h.bound parent x (by simp [hc, hx])
  have hfirst := h.firstChild?_eq (p := parent)
  rw [hc] at hfirst
  have hhead : (zs ++ [tail] ++ ys).head? = some new := by
    rw [head?_append, hh]
    rfl
  let u := (t.setNext tail ys.head?).linkAfter parent xs.getLast? (zs ++ [tail] ++ ys).head?
  have hsplice : t.splice parent xs.getLast? child new =
      (if u.lastChild? parent = some child then u.setLast parent (some tail) else u).setNext child
        none := by
    simp only [splice, hr.lastSibling_eq hh, h.next?_of_children hc, u, hhead]
    cases xs.getLast? <;> rfl
  refine h.rechains_of_splice _ [child] _ _ (by simp [hc]) hr (.splice ..) ?_ ?_ ?_
  · intro q
    rw [hsplice, firstChild?_setNext, firstChild?_setLast_if,
      firstChild?_linkAfter q (child :: ys) _
      (by simpa using hp) (by rw [firstChild?_setNext, hfirst]), firstChild?_setNext,
      ← append_assoc xs]
  · intro q
    have hlast := h.lastChild?_setLast_if hc (xs ++ (zs ++ [tail])) (u := u) (by simp [u])
      (by simpa [u] using hp) q
    rw [← append_assoc xs, getLast?_concat, append_assoc xs] at hlast
    rw [hsplice, lastChild?_setNext, hlast]
  · intro q
    rw [hsplice, next?_setNext _ _ (by simpa [u] using hch), next?_setLast_if,
      next?_linkAfter _ _ (by simpa using hxs), next?_setNext _ _ ht]
    simp [eq_comm]

end

/-! ## Linked trees -/

section

variable (h : t.Linked)

include h

/-- Appending a node appends it to the child list. -/
theorem Linked.addChildToBack_relinks (hp : parent.index < t.size) (hc : child.index < t.size)
    (ho : t.Orphan child) :
    ∃ t', t.addChildToBack parent child = .ok t' ∧
      t.Relinks t' fun q => if q = parent then t.children parent ++ [child] else t.children q := by
  have hrun := h.loose hc ho
  simp only [addChildToBack, checkDetached_eq_ok _ hc hrun.next?_eq_none, check_eq_ok hp, bind,
    Except.bind, pure, Except.pure]
  exact ⟨_, rfl, (h.linkBack_rechains [] hp hrun rfl).relinks h⟩

/-- Prepending a node prepends it to the child list. -/
theorem Linked.addChildToFront_relinks (hp : parent.index < t.size) (hc : child.index < t.size)
    (ho : t.Orphan child) :
    ∃ t', t.addChildToFront parent child = .ok t' ∧
      t.Relinks t' fun q => if q = parent then child :: t.children parent else t.children q := by
  have hrun := h.loose hc ho
  simp only [addChildToFront, checkDetached_eq_ok _ hc hrun.next?_eq_none, check_eq_ok hp, bind,
    Except.bind, pure, Except.pure]
  exact ⟨_, rfl, (h.linkFront_rechains [] hp hrun rfl).relinks h⟩

/-- Inserting a node behind a child inserts it there in the list. -/
theorem Linked.addChildAfter_relinks (hc : t.children parent = xs ++ anchor :: ys)
    (hn : new.index < t.size) (ho : t.Orphan new) :
    ∃ t', t.addChildAfter parent new anchor = .ok t' ∧
      t.Relinks t' fun q => if q = parent then xs ++ anchor :: new :: ys else t.children q := by
  obtain ⟨t', hrun, hre⟩ := h.addChildAfter_rechains hc (h.loose hn ho)
  exact ⟨t', hrun, hre.relinks h⟩

/-- Inserting a node in front of a child inserts it there in the list. -/
theorem Linked.addChildBefore_relinks (hc : t.children parent = xs ++ anchor :: ys)
    (hn : new.index < t.size) (ho : t.Orphan new) :
    ∃ t', t.addChildBefore parent new anchor = .ok t' ∧
      t.Relinks t' fun q => if q = parent then xs ++ new :: anchor :: ys else t.children q := by
  obtain ⟨t', hrun, hre⟩ := h.addChildBefore_rechains hc (h.loose hn ho)
  exact ⟨t', hrun, hre.relinks h⟩

/-- Unlinking a child takes it out of the list. -/
theorem Linked.removeChild_relinks (hc : t.children parent = xs ++ child :: ys) :
    ∃ t', t.removeChild parent child = .ok t' ∧
      t.Relinks t' fun q => if q = parent then xs ++ ys else t.children q := by
  obtain ⟨t', hrun, hre⟩ := h.removeChild_rechains hc
  exact ⟨t', hrun, hre.relinks h⟩

/-- Replacing a child by a node gives the node its place in the list. -/
theorem Linked.replaceChild_relinks (hc : t.children parent = xs ++ child :: ys)
    (hn : new.index < t.size) (ho : t.Orphan new) :
    ∃ t', t.replaceChild parent child new = .ok t' ∧
      t.Relinks t' fun q => if q = parent then xs ++ new :: ys else t.children q := by
  have hre := h.splice_rechains [] hc (h.loose hn ho) rfl
  simp only [replaceChild, h.childBefore_eq hc, check_eq_ok hn, bind, Except.bind, pure,
    Except.pure]
  refine ⟨_, rfl, ?_⟩
  simpa using hre.relinks h

end

end ScriptEngine.Tree
