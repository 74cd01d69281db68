import ScriptEngine.Proofs.Enclosures

/-!
# The complaints about a program

`Program.complaints` reads a program before it is lowered: the script, each function where it is
mentioned for the first time, and last the bodies that are mentioned nowhere. Lowering reports
these complaints and no others, in this order, and the collector that it reports them to keeps as
many of them as its limit allows.
-/

namespace ScriptEngine

/-! ## Collectors -/

namespace Diagnostics

/-- A collector that has been given complaints, all of them errors. -/
def collected (limit : Nat) (complaints : List Diagnostic) : Diagnostics where
  limit := some limit
  items := complaints.take limit
  dropped := complaints.length - (complaints.take limit).length
  errors := complaints.length

/-- A collector keeps the first complaints and counts all. -/
theorem push_collected (limit : Nat) (complaints : List Diagnostic) {d : Diagnostic}
    (hd : d.severity = .error) :
    (collected limit complaints).push d = collected limit (complaints ++ [d]) := by
  by_cases hroom : complaints.length < limit
  · have hall : complaints.take limit = complaints := List.take_of_length_le (by omega)
    have hall' : (complaints ++ [d]).take limit = complaints ++ [d] :=
      List.take_of_length_le (by simp; omega)
    simp [push, collected, hd, hasRoom, hall, hall', hroom]
  · have hsame : (complaints ++ [d]).take limit = complaints.take limit :=
      List.take_append_of_le_length (by omega)
    have hlen : (complaints.take limit).length = limit := by simp; omega
    simp only [push, collected, hd, hasRoom, hsame, hlen, if_true, Nat.lt_irrefl, decide_false,
      Bool.false_eq_true, if_false, List.length_append, List.length_singleton]
    congr 1
    omega

end Diagnostics

/-! ## Reading a program -/

/-- The complaints found so far, and the bodies that have been read. -/
structure Findings where
  complaints : List Diagnostic := []
  read : List BodyId := []
deriving DecidableEq, Repr

namespace Program

variable (p : Program)

/-- Notes a complaint about a body, or reads a function. -/
def note (j : BodyId) (readFunction : BodyId → Findings → Findings) (found : Findings) :
    Event → Findings
  | .complaint line error =>
    { found with
      complaints := found.complaints ++ [⟨error.message, (p.body j).sourceName, line, .error⟩] }
  | .function i => readFunction i found
  | .activation | .attempt | .guard | .receiver _ | .clause .. => found

/-- Reads a body that has not been read, and the functions that it mentions, down to some depth. -/
def readBody : Nat → BodyId → Findings → Findings
  | 0, _, found => found
  | depth + 1, j, found =>
    if j ∈ found.read then found
    else (noticesOf j ((p.statements j).mentions [] [] none)).foldl (p.note j (readBody depth))
      { found with read := j :: found.read }

/-- What is wrong with the structure of a program. Functions are nested less deep than there are
bodies. -/
def complaints : List Diagnostic :=
  ((List.range p.bodies.size).foldl
    (fun found n => p.readBody p.bodies.size ⟨n⟩ found) {}).complaints

private theorem readBody_of_mem {j : BodyId} {found : Findings} (h : j ∈ found.read) (depth : Nat) :
    p.readBody depth j found = found := by
  cases depth with
  | zero => rfl
  | succ depth => exact if_pos h

private theorem readBody_succ {j : BodyId} {found : Findings} (h : j ∉ found.read) (depth : Nat) :
    p.readBody (depth + 1) j found =
      (noticesOf j ((p.statements j).mentions [] [] none)).foldl (p.note j (p.readBody depth))
        { found with read := j :: found.read } := if_neg h

end Program

/-! ## Lowering -/

namespace Layout

variable (L : Layout) (limit : Nat)

/-- What lowering knows agrees with what has been read of the program. -/
structure Agrees (a : Ledger) (found : Findings) : Prop where
  diagnostics_eq : a.diagnostics = .collected limit found.complaints
  mem_read : ∀ j : BodyId, j.index < L.size → (j ∈ found.read ↔ ¬ a.Waits j)
  frozen_eq : ∀ j, (a.body j).frozen = (L.program.body j).frozen

variable {L limit} {a : Ledger} {found : Findings} {i j : BodyId}

namespace Agrees

private theorem complaint (h : L.Agrees limit a found) (i : BodyId) (line : Option Nat)
    (error : LoweringError) (readFunction : BodyId → Findings → Findings) :
    L.Agrees limit (a.apply i (.complaint line error))
      (L.program.note i readFunction found (.complaint line error)) := by
  have hsource : (a.body i).sourceName = (L.program.body i).sourceName :=
    Body.congr_frozen Body.sourceName (h.frozen_eq i) fun _ => rfl
  refine ⟨?_, h.mem_read, h.frozen_eq⟩
  show a.diagnostics.pushError _ _ _ = _
  rw [Diagnostics.pushError, h.diagnostics_eq, hsource, Diagnostics.push_collected _ _ rfl]
  rfl

/-- Events that are no complaints are not seen in the findings. -/
theorem quiet {e : Event} (h : L.Agrees limit a found) (he : e.isNotice = false) (i : BodyId) :
    L.Agrees limit (a.apply i e) found := by
  refine ⟨?_, ?_, fun j => Ledger.frozen_apply.trans (h.frozen_eq j)⟩
  · have hsame : (a.apply i e).diagnostics = a.diagnostics := by
      cases e with
      | complaint => cases he
      | _ => rfl
    rw [hsame, h.diagnostics_eq]
  · simpa only [Ledger.Waits, Ledger.started_apply] using h.mem_read

/-- A body is taken up and read. -/
theorem start (h : L.Agrees limit a found) (hwaits : a.Waits j) :
    L.Agrees limit (a.start j) { found with read := j :: found.read } := by
  have hlt : j.index < a.started.size := (Array.getElem?_eq_some_iff.mp hwaits).1
  refine ⟨h.diagnostics_eq, fun i hi => ?_, h.frozen_eq⟩
  rw [List.mem_cons, h.mem_read i hi]
  simp only [Ledger.Waits, Ledger.start, Array.getElem?_setIfInBounds]
  by_cases hij : i = j
  · simp [hij, hlt]
  · have hne : j.index ≠ i.index := fun he => hij (by cases i; cases j; simp_all)
    simp [hij, hne]

private theorem finish (h : L.Agrees limit a found) (j : BodyId) (hasFinally : Bool) :
    L.Agrees limit (a.finish j hasFinally) found :=
  ⟨h.diagnostics_eq, h.mem_read, fun i => Ledger.frozen_finish.trans (h.frozen_eq i)⟩

end Agrees

instance : Decidable (a.Waits j) := inferInstanceAs (Decidable (_ = _))

variable (L) in
/-- The bodies that wait. -/
def waiting (a : Ledger) : Finset Nat := (Finset.range L.size).filter fun n => a.Waits ⟨n⟩

private theorem card_waiting_mono {b : Ledger} (h : ∀ j, b.Waits j → a.Waits j) :
    (L.waiting b).card ≤ (L.waiting a).card :=
  Finset.card_le_card fun n hn => by
    obtain ⟨hlt, hwaits⟩ := Finset.mem_filter.mp hn
    exact Finset.mem_filter.mpr ⟨hlt, h _ hwaits⟩

private theorem card_waiting_start (hj : j.index < L.size) (hwaits : a.Waits j) :
    (L.waiting (a.start j)).card < (L.waiting a).card := by
  refine Finset.card_lt_card (Finset.ssubset_iff_of_subset ?_ |>.mpr ⟨j.index, ?_, ?_⟩)
  · intro n hn
    obtain ⟨hlt, hwaits'⟩ := Finset.mem_filter.mp hn
    exact Finset.mem_filter.mpr ⟨hlt, (Tells.waits_start hwaits').1⟩
  · exact Finset.mem_filter.mpr ⟨Finset.mem_range.mpr hj, hwaits⟩
  · intro hin
    exact (Tells.waits_start (Finset.mem_filter.mp hin).2).2 rfl

/-- A stretch of lowering reports what is read in the forests that it lowers. Each body that is
taken up on the way leaves fewer that wait, so the depth is enough. -/
theorem Tells.agrees {config : Config} {b : Ledger} {events : List Event} {depth : Nat}
    (h : L.Tells config i a events b) (hagrees : L.Agrees limit a found)
    (hdepth : (L.waiting a).card ≤ depth) :
    L.Agrees limit b ((events.filter Event.isNotice).foldl
      (L.program.note i (L.program.readBody depth)) found) := by
  induction h generalizing found depth with
  | nil => exact hagrees
  | @own i a e rest b hown _ ih =>
    have hsame : ∀ j, (a.apply i e).Waits j → a.Waits j := by simp [Ledger.Waits]
    have hdepth' := Nat.le_trans (card_waiting_mono (L := L) hsame) hdepth
    by_cases he : e.isNotice
    · obtain ⟨line, error, rfl⟩ : ∃ line error, e = .complaint line error := by
        cases e with
        | complaint line error => exact ⟨line, error, rfl⟩
        | function j => exact absurd rfl (hown j)
        | _ => cases he
      rw [List.filter_cons_of_pos he, List.foldl_cons]
      exact ih (hagrees.complaint i line error _) hdepth'
    · rw [List.filter_cons_of_neg he]
      exact ih (hagrees.quiet (by simpa using he) i) hdepth'
  | @again i a j rest b hj hnot _ ih =>
    have hread := (hagrees.mem_read j hj).mpr hnot
    rw [List.filter_cons_of_pos (by rfl), List.foldl_cons, Program.note,
      L.program.readBody_of_mem hread]
    exact ih hagrees hdepth
  | @first i a j h inside c rest b hj hwaits hlowered hinside _ ihi ihr =>
    have hread : j ∉ found.read := fun hread => (hagrees.mem_read j hj).mp hread hwaits
    have hless := card_waiting_start hj hwaits
    obtain ⟨depth, rfl⟩ : ∃ n, depth = n + 1 := ⟨depth - 1, by omega⟩
    -- What is read of the body is what lowering notes of it.
    have hnotices := hlowered.notices_eq ⟨kids_nodup hj, fun q hq => kids_lt hj hq⟩
    rw [List.filter_cons_of_pos (by rfl), List.foldl_cons, Program.note,
      L.program.readBody_succ hread, L.statements_eq hj]
    have hbody : L.Agrees limit c ((inside.filter Event.isNotice).foldl
        (L.program.note j (L.program.readBody depth)) { found with read := j :: found.read }) :=
      ihi (hagrees.start hwaits) (by omega)
    rw [hnotices] at hbody
    have hmono : ∀ k, c.Waits k → a.Waits k := fun k hk => (waits_start (hinside.waits hk)).1
    exact ihr (hbody.finish j _) (Nat.le_trans (card_waiting_mono hmono) hdepth)

variable (L) in
/-- The diagnostics of a program that has been lowered are its complaints. -/
theorem diagnostics_eq {config : Config} {b : Ledger} (h : L.TellsAll config b) :
    b.diagnostics = .collected config.maxDiagnostics L.program.complaints := by
  have hstart : L.Agrees config.maxDiagnostics (L.start config).ledger {} := by
    refine ⟨by simp [LoweringState.ledger, start, Diagnostics.collected], fun j hj => ?_,
      fun _ => rfl⟩
    have hj : j.index < L.program.bodies.size := hj
    simp [LoweringState.ledger, start, Ledger.Waits, hj]
  have hfinal : L.Agrees config.maxDiagnostics b
      ((((List.range L.size).map fun n => Event.function ⟨n⟩).filter Event.isNotice).foldl
        (L.program.note .script (L.program.readBody L.size)) {}) :=
    h.agrees hstart (Nat.le_trans (Finset.card_filter_le _ _) (by simp))
  have hall : ((List.range L.size).map fun n => Event.function ⟨n⟩).filter Event.isNotice =
      (List.range L.size).map fun n => Event.function ⟨n⟩ :=
    List.filter_eq_self.mpr (by simp [Event.isNotice])
  rw [hall, List.foldl_map] at hfinal
  exact hfinal.diagnostics_eq

end Layout

end ScriptEngine
