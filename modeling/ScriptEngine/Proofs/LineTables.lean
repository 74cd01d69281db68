import ScriptEngine.Code.Unit
import ScriptEngine.Proofs.Constants

/-!
# Line tables

The table of an assembler has fewer entries than there were notes, but the line that is found in it
at an offset is that of the last note that was made up to there.
-/

namespace ScriptEngine

open List

variable {pc : Nat} {a b : Assembler} {ops : List AssemblerOp} {t : LineTable}

/-- The line of the last entry that is not behind an offset. -/
def lastLine? (entries : List LineEntry) (pc : Nat) : Option Nat :=
  (entries.filter (·.pc ≤ pc)).getLast?.map (·.line)

/-- One more entry is found from its offset on. -/
theorem lastLine?_concat (entries : List LineEntry) (x : LineEntry) (pc : Nat) :
    lastLine? (entries ++ [x]) pc = if x.pc ≤ pc then some x.line else lastLine? entries pc := by
  by_cases hx : x.pc ≤ pc <;> simp [lastLine?, filter_append, hx]

namespace LineTable

/-! ## The search -/

/-- If the entries are in order and those in front of `low` are not behind the offset while those
from `high` on are, the search ends between them at the first that is. -/
theorem partitionPoint_spec {entries : Array LineEntry} (pc : Nat) {low high : Nat}
    (hsorted : entries.toList.Pairwise (·.pc < ·.pc)) (hle : low ≤ high)
    (hhigh : high ≤ entries.size)
    (hfront : ∀ (i : Nat) (hi : i < entries.size), i < low → entries[i].pc ≤ pc)
    (hback : ∀ (i : Nat) (hi : i < entries.size), high ≤ i → pc < entries[i].pc) :
    partitionPoint entries pc low high ≤ entries.size ∧
    ∀ (i : Nat) (hi : i < entries.size),
      entries[i].pc ≤ pc ↔ i < partitionPoint entries pc low high := by
  have hmono {i j : Nat} (hi : i < entries.size) (hj : j < entries.size) (hij : i < j) :
      entries[i].pc < entries[j].pc := by
    have := pairwise_iff_getElem.mp hsorted i j (by simpa using hi) (by simpa using hj) hij
    rwa [Array.getElem_toList, Array.getElem_toList] at this
  fun_induction partitionPoint entries pc low high with
  | case1 low high hlt middle hmiddle ih =>
    have hlt' : middle < entries.size := by omega
    rw [Array.getD_eq_getD_getElem?, Array.getElem?_eq_getElem hlt', Option.getD_some] at hmiddle
    refine ih (by omega) hhigh (fun i hi hlow => ?_) hback
    rcases Nat.lt_or_eq_of_le (Nat.le_of_lt_succ hlow) with hlow | rfl
    · exact Nat.le_trans (Nat.le_of_lt (hmono hi hlt' hlow)) hmiddle
    · exact hmiddle
  | case2 low high hlt middle hmiddle ih =>
    have hlt' : middle < entries.size := by omega
    rw [Array.getD_eq_getD_getElem?, Array.getElem?_eq_getElem hlt', Option.getD_some] at hmiddle
    refine ih (by omega) (by omega) hfront fun i hi hge => ?_
    rcases Nat.lt_or_eq_of_le hge with hgt | rfl
    · exact Nat.lt_trans (Nat.lt_of_not_le hmiddle) (hmono hlt' hi hgt)
    · exact Nat.lt_of_not_le hmiddle
  | case3 low high hge =>
    refine ⟨by omega, fun i hi => ⟨fun hpc => ?_, hfront i hi⟩⟩
    by_contra hnot
    exact Nat.not_lt.mpr hpc (hback i hi (by omega))

/-- In a table that is in order, the line of the last entry not behind an offset is found. -/
theorem lineAt?_eq (hsorted : t.entries.toList.Pairwise (·.pc < ·.pc)) (pc : Nat) :
    t.lineAt? pc = lastLine? t.entries.toList pc := by
  obtain ⟨hle, hpoint⟩ := partitionPoint_spec pc hsorted (Nat.zero_le _) (Nat.le_refl _)
    (by omega) (by omega)
  -- The entries up to the point are those that are not behind the offset.
  have hfilter : t.entries.toList.filter (·.pc ≤ pc) =
      t.entries.toList.take (partitionPoint t.entries pc 0 t.entries.size) := by
    generalize partitionPoint t.entries pc 0 t.entries.size = n at hpoint
    rw [← take_append_drop n t.entries.toList, filter_append, take_append_drop,
      filter_eq_self.mpr, filter_eq_nil_iff.mpr, append_nil]
    · intro x hx
      obtain ⟨i, hi, rfl⟩ := mem_iff_getElem.mp hx
      rw [length_drop, Array.length_toList] at hi
      have := (hpoint (n + i) (by omega)).not.mpr (by omega)
      simpa using this
    · intro x hx
      obtain ⟨i, hi, rfl⟩ := mem_iff_getElem.mp hx
      rw [length_take, Array.length_toList] at hi
      have := (hpoint i (by omega)).mpr (by omega)
      simpa using this
  rw [lastLine?, hfilter, lineAt?]
  split
  · next hzero => simp [hzero]
  · next i hi =>
    rw [hi] at hle ⊢
    have hlt : i < t.entries.toList.length := by rw [Array.length_toList]; omega
    rw [take_succ_eq_append_getElem hlt, getLast?_concat, Array.getElem?_eq_getElem hlt]
    rfl

/-! ## Notes -/

/-- The table is in order, ends at or in front of an offset, and gives the same lines as some
notes. -/
structure Tracks (t : LineTable) (pc : Nat) (notes : List LineEntry) : Prop where
  sorted : t.entries.toList.Pairwise (·.pc < ·.pc)
  bound : ∀ x ∈ t.entries.toList, x.pc ≤ pc
  same : ∀ pc', lastLine? t.entries.toList pc' = lastLine? notes pc'

private theorem Tracks.empty (pc : Nat) : Tracks {} pc [] := ⟨.nil, by simp, fun _ => rfl⟩

private theorem Tracks.mono {pc' : Nat} {notes : List LineEntry} (h : t.Tracks pc notes)
    (hle : pc ≤ pc') : t.Tracks pc' notes :=
  ⟨h.sorted, fun x hx => Nat.le_trans (h.bound x hx) hle, h.same⟩

/-- An entry behind all others is found from its offset on. -/
theorem Tracks.concat {front notes : List LineEntry} {x : LineEntry}
    (ht : t.entries.toList = front ++ [x]) (hsorted : front.Pairwise (·.pc < ·.pc))
    (hlt : ∀ y ∈ front, y.pc < x.pc)
    (hsame : ∀ pc < x.pc, lastLine? front pc = lastLine? notes pc) :
    t.Tracks x.pc (notes ++ [x]) := by
  refine ⟨?_, ?_, fun pc => ?_⟩
  · rw [ht, pairwise_append]
    exact ⟨hsorted, pairwise_singleton _ _, fun y hy z hz => mem_singleton.mp hz ▸ hlt y hy⟩
  · intro y hy
    rw [ht, mem_append, mem_singleton] at hy
    rcases hy with hy | rfl
    · exact Nat.le_of_lt (hlt y hy)
    · exact Nat.le_refl _
  · rw [ht, lastLine?_concat, lastLine?_concat]
    split
    · rfl
    · next hpc => exact hsame pc (by omega)

/-- A note is found from its offset on. It is left out where its line is found anyway, and takes the
place of an entry at the same offset. -/
theorem Tracks.note {notes : List LineEntry} (h : t.Tracks pc notes) (line : Nat) :
    (t.note pc line).Tracks pc (notes ++ [⟨pc, line⟩]) := by
  obtain ⟨entries⟩ := t
  obtain ⟨hsorted, hbound, hsame⟩ := h
  unfold LineTable.note
  split
  · next hnone =>
    obtain rfl : entries = #[] := by simpa using hnone
    exact .concat (x := ⟨pc, line⟩) rfl hsorted (by simp) fun pc' _ => hsame pc'
  · next last hlast =>
    obtain ⟨front, rfl⟩ : ∃ front : Array LineEntry, entries = front.push last :=
      Array.back?_eq_some_iff.mp hlast
    rw [Array.toList_push] at hsorted hbound hsame
    obtain ⟨hfront, -, hlt⟩ := pairwise_append.mp hsorted
    have hle : last.pc ≤ pc := hbound last (by simp)
    split
    · next hline =>
      refine ⟨by rwa [Array.toList_push], by rwa [Array.toList_push], fun pc' => ?_⟩
      rw [lastLine?_concat, ← hsame, Array.toList_push]
      split
      · next hpc =>
        have hpc' : last.pc ≤ pc' := Nat.le_trans hle hpc
        rw [lastLine?_concat, if_pos hpc', hline]
      · rfl
    · split
      · next hpc =>
        refine .concat (x := ⟨pc, line⟩) (by simp) hfront
          (fun y hy => hpc ▸ hlt y hy last (by simp)) fun pc' hlt' => ?_
        rw [← hsame, lastLine?_concat, if_neg (Nat.not_le.mpr (hpc ▸ hlt'))]
      · next hpc =>
        refine .concat (x := ⟨pc, line⟩) (by simp) hsorted
          (fun y hy => ?_) fun pc' _ => hsame pc'
        have hlast : last.pc < pc := Nat.lt_of_le_of_ne hle hpc
        rcases mem_append.mp hy with hy | hy
        · exact Nat.lt_trans (hlt y hy last (by simp)) hlast
        · exact mem_singleton.mp hy ▸ hlast

end LineTable

/-! ## Sequences of operations -/

namespace AssemblerOp

/-- How many bytes an operation appends. -/
def width : AssemblerOp → Nat
  | emit _ | byte _ => 1
  | short _ => 2
  | long _ => 4
  | patch .. | string _ | number _ | line _ => 0

/-- The lines that are noted by operations, with the offsets at which that happens. -/
def notes : Nat → List AssemblerOp → List LineEntry
  | _, [] => []
  | pc, line n :: ops => ⟨pc, n⟩ :: notes pc ops
  | pc, op :: ops => notes (pc + op.width) ops

private theorem size_overwrite (bytes : List UInt8) (code : Array UInt8) (start : Nat) :
    (Assembler.overwrite code start bytes).size = code.size := by
  unfold Assembler.overwrite
  induction bytes generalizing code start with
  | nil => rfl
  | cons b bytes ih => rw [foldl_cons, ih, Array.size_setIfInBounds]

/-- An operation appends its bytes, and only notes change the line table. -/
theorem pc_apply {op : AssemblerOp} (h : op.apply a = .ok b) :
    b.pc = a.pc + op.width ∧ b.lines = match op with
      | line n => a.lines.note (UInt32.ofNat a.pc).toNat n
      | _ => a.lines := by
  have hbytes (bytes : List UInt8) : (a.emitBytes bytes).pc = a.pc + bytes.length := by
    rw [Assembler.pc, ← Array.length_toList, Assembler.toList_emitBytes, length_append]
    rfl
  cases op with
  | emit op =>
    simp only [apply, Assembler.emit] at h
    split at h
    · cases h
      exact ⟨hbytes _, rfl⟩
    · cases h
  | patch start value =>
    simp only [apply, Assembler.patchLong] at h
    split at h
    · cases h
      exact ⟨size_overwrite .., rfl⟩
    · cases h
  | byte value | short value | long value =>
    cases h
    exact ⟨hbytes _, rfl⟩
  | string | number | line =>
    cases h
    exact ⟨rfl, rfl⟩

private theorem notes_cons (pc : Nat) (op : AssemblerOp) (ops : List AssemblerOp) :
    notes pc (op :: ops) = notes pc [op] ++ notes (pc + op.width) ops := by
  cases op <;> rfl

private theorem pc_le_of_run (h : run a ops = .ok b) : a.pc ≤ b.pc := by
  induction ops generalizing a with
  | nil =>
    cases h
    exact Nat.le_refl _
  | cons op ops ih =>
    obtain ⟨c, hc, hrest⟩ := run_cons h
    have hle := ih hrest
    rw [(pc_apply hc).1] at hle
    omega

/-- Lines are found as they were noted, as long as offsets have room in thirty-two bits. -/
theorem tracks_run {ns : List LineEntry} (h : run a ops = .ok b) (hpc : b.pc < 2 ^ 32)
    (ht : a.lines.Tracks a.pc ns) : b.lines.Tracks b.pc (ns ++ notes a.pc ops) := by
  have hcut : (UInt32.ofNat a.pc).toNat = a.pc :=
    UInt32.toNat_ofNat_of_lt' (Nat.lt_of_le_of_lt (pc_le_of_run h) hpc)
  induction ops generalizing a ns with
  | nil =>
    cases h
    simpa [notes] using ht
  | cons op ops ih =>
    obtain ⟨c, hc, hrest⟩ := run_cons h
    obtain ⟨hpc', hlines⟩ := pc_apply hc
    rw [hcut] at hlines
    have hnext : c.lines.Tracks c.pc (ns ++ notes a.pc [op]) := by
      rw [hlines]
      cases op with
      | line n => exact (ht.note n).mono (Nat.le.intro hpc'.symm)
      | _ => simpa [notes] using ht.mono (Nat.le.intro hpc'.symm)
    rw [notes_cons, ← append_assoc, ← hpc']
    exact ih hrest hnext (UInt32.toNat_ofNat_of_lt' (Nat.lt_of_le_of_lt (pc_le_of_run hrest) hpc))

end AssemblerOp

/-- For code of less than `2 ^ 32` bytes, the entries of the line table are in the order of their
offsets, and the line at an offset is that of the last note that was made up to there. -/
theorem lines_follow_notes {ops : List AssemblerOp} {a : Assembler}
    (hrun : AssemblerOp.run {} ops = .ok a) (hsize : a.code.size < 2 ^ 32) (body : Body)
    (nested : List CompiledUnit) (config : Config) (fromEvalCode : Bool) :
    let unit := a.finish body nested config fromEvalCode
    unit.lines.entries.toList.Pairwise (·.pc < ·.pc) ∧
      ∀ pc, unit.lineAt? pc = lastLine? (AssemblerOp.notes 0 ops) pc := by
  intro unit
  have h := AssemblerOp.tracks_run hrun hsize (.empty 0)
  exact ⟨h.sorted, fun pc => (LineTable.lineAt?_eq h.sorted pc).trans (h.same pc)⟩

/-- A line that is noted in the place of another, and once more where it is found anyway. -/
theorem lines_follow_notes_at_one_offset :
    let ops : List AssemblerOp :=
      [.byte 1, .line 3, .emit .pop, .line 4, .line 5, .long 0, .line 5, .emit .pop]
    let body : Body := { id := .script, functionType := none, name := "", root := ⟨0⟩ }
    ∃ a, AssemblerOp.run {} ops = .ok a ∧ a.code.size < 2 ^ 32 ∧
      a.lines.entries.toList = [⟨1, 3⟩, ⟨2, 5⟩] ∧
      (a.finish body [] {} false).lineAt? 0 = none ∧
      (a.finish body [] {} false).lineAt? 1 = some 3 ∧
      (a.finish body [] {} false).lineAt? 7 = some 5 := by
  intro ops body
  obtain ⟨a, hrun, hsize, hentries⟩ : ∃ a, AssemblerOp.run {} ops = .ok a ∧ a.code.size = 7 ∧
      a.lines.entries.toList = [⟨1, 3⟩, ⟨2, 5⟩] := ⟨_, rfl, rfl, rfl⟩
  obtain ⟨-, hat⟩ := lines_follow_notes hrun (by rw [hsize]; decide) body [] {} false
  exact ⟨a, hrun, by rw [hsize]; decide, hentries, hat 0, hat 1, hat 7⟩

end ScriptEngine
