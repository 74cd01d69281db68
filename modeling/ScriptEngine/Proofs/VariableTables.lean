import Mathlib.Data.List.Basic
import ScriptEngine.Syntax.Variables

/-!
# Variable tables

What declarations make of an empty table. `VariableTable.Holds` says which parameters and variables
a table holds; each operation on a table does to these two lists what its name says.
-/

namespace ScriptEngine

open List

variable {v w : VariableTable} {params locals : List String}

namespace VariableTable

/-! ## Looking up names -/

/-- The position of the last occurrence of a name. -/
def lastIndex? (name : String) : List String → Option Nat
  | [] => none
  | n :: rest =>
    match lastIndex? name rest with
    | some i => some (i + 1)
    | none => if n = name then some 0 else none

variable {n : String} {l : List String} {i : Nat}

/-- The last occurrence in two lists: that in the second one, if it is there. -/
theorem lastIndex?_append (n : String) (l l' : List String) :
    lastIndex? n (l ++ l') = ((lastIndex? n l').map (· + l.length)).or (lastIndex? n l) := by
  induction l with
  | nil => cases h : lastIndex? n l' <;> simp [lastIndex?, h]
  | cons m rest ih =>
    rw [cons_append, lastIndex?, ih, lastIndex?]
    cases lastIndex? n l' with
    | none => simp
    | some i => simp; omega

/-- A name without an index is not in the list. -/
theorem lastIndex?_eq_none_iff : lastIndex? n l = none ↔ n ∉ l := by
  induction l with
  | nil => simp [lastIndex?]
  | cons m rest ih =>
    rw [lastIndex?]
    cases h : lastIndex? n rest with
    | some i =>
      rw [h] at ih
      simp_all
    | none =>
      have hnot : n ∉ rest := ih.mp h
      by_cases hm : m = n
      · simp [hm]
      · simp [hm, hnot, Ne.symm hm]

private theorem getElem?_of_lastIndex? (h : lastIndex? n l = some i) : l[i]? = some n := by
  induction l generalizing i with
  | nil => simp [lastIndex?] at h
  | cons m rest ih =>
    rw [lastIndex?] at h
    split at h
    · next j hj =>
      cases h
      simpa using ih hj
    · split at h
      · next hm =>
        cases h
        simp [hm]
      · cases h

/-- No later place has the name. -/
theorem getElem?_ne_of_lastIndex? (h : lastIndex? n l = some i) {j : Nat} (hj : i < j) :
    l[j]? ≠ some n := by
  induction l generalizing i j with
  | nil => simp [lastIndex?] at h
  | cons m rest ih =>
    obtain ⟨j, rfl⟩ := Nat.exists_eq_succ_of_ne_zero (show j ≠ 0 by omega)
    rw [getElem?_cons_succ]
    rw [lastIndex?] at h
    split at h
    · next k hk =>
      cases h
      exact ih hk (by omega)
    · next hnone =>
      intro hmem
      exact lastIndex?_eq_none_iff.mp hnone (mem_of_getElem? hmem)

/-- The last index of a name. -/
theorem lastIndex?_eq_some_iff :
    lastIndex? n l = some i ↔ l[i]? = some n ∧ ∀ j, i < j → l[j]? ≠ some n := by
  refine ⟨fun h => ⟨getElem?_of_lastIndex? h, fun j hj => getElem?_ne_of_lastIndex? h hj⟩, ?_⟩
  rintro ⟨hi, hlast⟩
  cases h : lastIndex? n l with
  | none => exact absurd (mem_of_getElem? hi) (lastIndex?_eq_none_iff.mp h)
  | some k =>
    have hk := getElem?_of_lastIndex? h
    rcases Nat.lt_trichotomy i k with hlt | rfl | hgt
    · exact absurd hk (hlast k hlt)
    · rfl
    · exact absurd hi (getElem?_ne_of_lastIndex? h hgt)

/-- The index has later positions in front, so the last one is found. -/
theorem lookup_nameIndex (names : List String) (n : String) :
    (nameIndex names).lookup n = lastIndex? n names := by
  have hall (k : Nat) :
      (names.zipIdx k).reverse.lookup n = (lastIndex? n names).map (· + k) := by
    induction names generalizing k with
    | nil => rfl
    | cons m rest ih =>
      rw [zipIdx_cons, reverse_cons, lookup_append, ih, lastIndex?]
      cases lastIndex? n rest with
      | some i => simp; omega
      | none =>
        by_cases hm : m = n
        · simp [hm]
        · simp [List.lookup_cons, hm, beq_eq_false_iff_ne.mpr (Ne.symm hm)]
  rw [nameIndex_eq, hall 0]
  simp

private theorem get?_eq_lastIndex? (v : VariableTable) (n : String) :
    v.get? n = lastIndex? n v.names := by
  rw [get?, v.index_eq, lookup_nameIndex]

/-- A name without a slot is not in the table. -/
theorem get?_eq_none_iff : v.get? n = none ↔ n ∉ v.names := by
  rw [get?_eq_lastIndex?, lastIndex?_eq_none_iff]

/-- A name stands for its last occurrence. -/
theorem get?_eq_some_iff :
    v.get? n = some i ↔ v.names[i]? = some n ∧ ∀ j, i < j → v.names[j]? ≠ some n := by
  rw [get?_eq_lastIndex?, lastIndex?_eq_some_iff]

theorem getElem?_of_get? (h : v.get? n = some i) : v.names[i]? = some n := (get?_eq_some_iff.mp h).1

/-- Slots are indices of the table. -/
theorem get?_lt (h : v.get? n = some i) : i < v.size :=
  (List.getElem?_eq_some_iff.mp (getElem?_of_get? h)).1

/-! ## What tables hold -/

/-- The table holds parameters, and behind them variables that have names of their own. -/
structure Holds (v : VariableTable) (params locals : List String) : Prop where
  names_eq : v.names = params ++ locals
  count_eq : v.paramCount = params.length
  nodup : locals.Nodup
  not_param : ∀ n ∈ locals, n ∉ params

namespace Holds

theorem empty : Holds {} [] [] := ⟨rfl, rfl, nodup_nil, by simp⟩

variable (h : v.Holds params locals)

include h

/-- The position of a variable lies behind the parameters. -/
theorem get?_local (hn : n ∈ locals) : v.get? n = some (params.length + locals.idxOf n) := by
  have hlt := idxOf_lt_length_of_mem hn
  rw [get?_eq_some_iff, h.names_eq]
  refine ⟨by simp [hlt], fun j hj hat => ?_⟩
  obtain ⟨k, rfl⟩ : ∃ k, j = params.length + k := ⟨j - params.length, by omega⟩
  rw [getElem?_append_right (by omega), Nat.add_sub_cancel_left] at hat
  -- Two positions of one name among the variables are the same.
  have hk : locals.idxOf n = k := by
    obtain ⟨hlt', rfl⟩ := List.getElem?_eq_some_iff.mp hat
    exact h.nodup.idxOf_getElem k hlt'
  omega

/-- The position of a parameter is its last one among the parameters. -/
theorem get?_param (hn : n ∈ params) :
    v.get? n = lastIndex? n params ∧ ∃ i < params.length, v.get? n = some i := by
  have hnot : lastIndex? n locals = none :=
    lastIndex?_eq_none_iff.mpr fun hmem => h.not_param n hmem hn
  have heq : v.get? n = lastIndex? n params := by
    rw [get?_eq_lastIndex?, h.names_eq, lastIndex?_append, hnot]
    rfl
  refine ⟨heq, ?_⟩
  cases hi : lastIndex? n params with
  | none => exact absurd hn (lastIndex?_eq_none_iff.mp hi)
  | some i =>
    exact ⟨i, (List.getElem?_eq_some_iff.mp (getElem?_of_lastIndex? hi)).1, heq.trans hi⟩

/-- The slot of a parameter is its last place among the parameters; that of a variable lies behind
them. -/
theorem slot (hi : v.get? n = some i) :
    lastIndex? n (v.names.take v.paramCount) = if i < v.paramCount then some i else none := by
  rw [h.names_eq, h.count_eq, take_left]
  by_cases hn : n ∈ params
  · obtain ⟨heq, j, hlt, hj⟩ := h.get?_param hn
    obtain rfl : i = j := Option.some.inj (hi.symm.trans hj)
    rw [← heq, hi, if_pos hlt]
  · have hlocal : n ∈ locals := by
      have hmem := mem_of_getElem? (getElem?_of_get? hi)
      exact (mem_append.mp (h.names_eq ▸ hmem)).resolve_left hn
    obtain rfl : i = _ := Option.some.inj (hi.symm.trans (h.get?_local hlocal))
    rw [lastIndex?_eq_none_iff.mpr hn, if_neg (by omega)]

private theorem isParameter_iff (n : String) : v.isParameter n = true ↔ n ∈ params := by
  by_cases hn : n ∈ params
  · obtain ⟨-, i, hlt, hi⟩ := h.get?_param hn
    simpa [isParameter, hi, hn, h.count_eq] using hlt
  · by_cases hlocal : n ∈ locals
    · simp [isParameter, h.get?_local hlocal, hn, h.count_eq]
    · have hnone : v.get? n = none := get?_eq_none_iff.mpr (by simp [h.names_eq, hn, hlocal])
      simp [isParameter, hnone, hn]

/-- Parameters can be added as long as there are no variables. -/
theorem addParameter (n : String) :
    (locals = [] → ∃ w, v.addParameter n = .ok w ∧ w.Holds (params ++ [n]) []) ∧
      (locals ≠ [] → v.addParameter n = .error .parameterAfterVariable) := by
  have hlength : v.names.length = params.length + locals.length := by simp [h.names_eq]
  refine ⟨?_, fun hne => ?_⟩
  · rintro rfl
    refine ⟨_, if_pos (by simp [h.count_eq, hlength]), ?_, ?_, nodup_nil, by simp⟩
    · simp [h.names_eq]
    · simp [h.count_eq]
  · have hpos := length_pos_iff.mpr hne
    exact if_neg (by rw [h.count_eq, hlength]; omega)

/-- A new name is declared behind the others. -/
theorem addLocal (n : String) :
    (n ∈ v.names → v.addLocal n = (false, v)) ∧
      (n ∉ v.names → (v.addLocal n).1 = true ∧ (v.addLocal n).2.Holds params (locals ++ [n])) := by
  refine ⟨fun hn => ?_, fun hn => ?_⟩
  · obtain ⟨i, hi⟩ := Option.ne_none_iff_exists'.mp fun hnone => get?_eq_none_iff.mp hnone hn
    rw [VariableTable.addLocal, hi]
  · rw [VariableTable.addLocal, get?_eq_none_iff.mpr hn]
    simp only [h.names_eq, mem_append, not_or] at hn
    refine ⟨rfl, by simp [h.names_eq], h.count_eq, ?_, ?_⟩
    · exact nodup_append.mpr ⟨h.nodup, by simp, fun m hm k hk hmk =>
        hn.2 (mem_singleton.mp hk ▸ hmk ▸ hm)⟩
    · simpa [or_imp, forall_and, hn.1] using h.not_param

/-- A variable is taken out, and nothing else is. -/
theorem removeLocal (n : String) :
    (n ∈ locals → (v.removeLocal n).1 = true ∧ (v.removeLocal n).2.Holds params (locals.erase n)) ∧
      (n ∉ locals → v.removeLocal n = (false, v)) := by
  refine ⟨fun hn => ?_, fun hn => ?_⟩
  · rw [VariableTable.removeLocal, h.get?_local hn]
    dsimp only
    rw [if_pos (by rw [h.count_eq]; omega)]
    refine ⟨rfl, ?_, h.count_eq, h.nodup.erase n, fun m hm => h.not_param m (mem_of_mem_erase hm)⟩
    show v.names.eraseIdx _ = _
    rw [h.names_eq, eraseIdx_append_of_length_le (by omega), Nat.add_sub_cancel_left,
      erase_eq_eraseIdx_of_idxOf rfl]
  · by_cases hparam : n ∈ params
    · obtain ⟨-, i, hlt, hi⟩ := h.get?_param hparam
      rw [VariableTable.removeLocal, hi]
      exact if_neg (by rw [h.count_eq]; omega)
    · rw [VariableTable.removeLocal, get?_eq_none_iff.mpr (by simp [h.names_eq, hparam, hn])]

end Holds

end VariableTable

/-! ## Sequences of operations -/

/-- The operations on a table. -/
inductive TableOp where
  | parameter (name : String)
  | declare (name : String)
  | remove (name : String)

namespace TableOp

/-- The name that is added as a parameter. -/
def parameter? : TableOp → Option String
  | parameter name => some name
  | _ => none

/-- The table after an operation. -/
def apply (v : VariableTable) : TableOp → Except Fault VariableTable
  | parameter name => v.addParameter name
  | declare name => .ok (v.addLocal name).2
  | remove name => .ok (v.removeLocal name).2

/-- An operation that does not fail adds a parameter, or leaves the parameters as they are. -/
theorem holds_apply (op : TableOp) (h : v.Holds params locals) (hw : op.apply v = .ok w) :
    ∃ locals', w.Holds (params ++ op.parameter?.toList) locals' := by
  cases op with
  | parameter name =>
    by_cases hl : locals = []
    · obtain ⟨w', hw', h'⟩ := (h.addParameter name).1 hl
      obtain rfl : w' = w := Except.ok.inj (hw'.symm.trans hw)
      exact ⟨[], h'⟩
    · cases ((h.addParameter name).2 hl).symm.trans hw
  | declare name =>
    obtain rfl := Except.ok.inj hw
    simp only [parameter?, Option.toList_none, append_nil]
    by_cases hn : name ∈ v.names
    · exact ⟨locals, by rwa [(h.addLocal name).1 hn]⟩
    · exact ⟨_, ((h.addLocal name).2 hn).2⟩
  | remove name =>
    obtain rfl := Except.ok.inj hw
    simp only [parameter?, Option.toList_none, append_nil]
    by_cases hn : name ∈ locals
    · exact ⟨_, ((h.removeLocal name).1 hn).2⟩
    · exact ⟨locals, by rwa [(h.removeLocal name).2 hn]⟩

/-- The table after a sequence of operations. -/
def run (v : VariableTable) (ops : List TableOp) : Except Fault VariableTable :=
  ops.foldlM apply v

/-- A sequence of operations that does not fail adds its parameters. -/
theorem holds_run {ops : List TableOp} (h : v.Holds params locals) (hw : run v ops = .ok w) :
    ∃ locals', w.Holds (params ++ ops.filterMap parameter?) locals' := by
  induction ops generalizing v params locals with
  | nil =>
    obtain rfl := Except.ok.inj hw
    exact ⟨locals, by simpa using h⟩
  | cons op ops ih =>
    rw [run, foldlM_cons] at hw
    cases hv : op.apply v with
    | error fault =>
      rw [hv] at hw
      cases hw
    | ok v' =>
      rw [hv] at hw
      obtain ⟨locals', h'⟩ := holds_apply _ h hv
      obtain ⟨locals'', h''⟩ := ih h' hw
      refine ⟨locals'', ?_⟩
      cases hp : op.parameter? <;> simpa [hp] using h''

end TableOp

open TableOp in
/-- After every sequence of operations that does not fail, names are found where they occur last.
The parameters that were added come first, in order and with repetitions; the variables behind them
have names of their own. A variable is declared unless its name is known, and removed unless it is a
parameter or unknown; otherwise nothing changes. Parameters are refused while there are
variables. -/
theorem table_follows_declarations {ops : List TableOp} {v : VariableTable}
    (hrun : run {} ops = .ok v) :
    (∀ n i, v.get? n = some i ↔ v.names[i]? = some n ∧ ∀ j, i < j → v.names[j]? ≠ some n) ∧
    (∀ n, v.get? n = none ↔ n ∉ v.names) ∧
    ∃ locals, v.names = ops.filterMap parameter? ++ locals ∧
      v.paramCount = (ops.filterMap parameter?).length ∧ locals.Nodup ∧
      (∀ n ∈ locals, n ∉ ops.filterMap parameter?) ∧
      (∀ n, v.isParameter n = true ↔ n ∈ ops.filterMap parameter?) ∧
      (∀ n, v.addLocal n = (false, v) ↔ n ∈ v.names) ∧
      (∀ n, n ∉ v.names → (v.addLocal n).1 = true ∧ (v.addLocal n).2.names = v.names ++ [n]) ∧
      (∀ n, v.removeLocal n = (false, v) ↔ n ∉ v.names ∨ n ∈ ops.filterMap parameter?) ∧
      (∀ n ∈ locals, (v.removeLocal n).1 = true ∧
        (v.removeLocal n).2.names = ops.filterMap parameter? ++ locals.erase n) ∧
      ∀ n, (∃ fault, v.addParameter n = .error fault) ↔ locals ≠ [] := by
  obtain ⟨locals, h⟩ := holds_run .empty hrun
  rw [List.nil_append] at h
  have hadded (n : String) (hn : n ∉ v.names) := (h.addLocal n).2 hn
  have hremoved (n : String) (hn : n ∈ locals) := (h.removeLocal n).1 hn
  refine ⟨fun _ _ => VariableTable.get?_eq_some_iff,
    fun _ => VariableTable.get?_eq_none_iff, locals,
    h.names_eq, h.count_eq, h.nodup, h.not_param, h.isParameter_iff, fun n => ⟨fun heq => ?_,
      (h.addLocal n).1⟩, fun n hn => ⟨(hadded n hn).1, ?_⟩, fun n => ⟨fun heq => ?_, fun hn => ?_⟩,
    fun n hn => ⟨(hremoved n hn).1, (hremoved n hn).2.names_eq⟩, fun n => ⟨?_, fun hne => ?_⟩⟩
  · by_contra hn
    have := (hadded n hn).1
    simp [heq] at this
  · rw [(hadded n hn).2.names_eq, h.names_eq, List.append_assoc]
  · by_contra hn
    obtain ⟨hin, hnot⟩ : n ∈ v.names ∧ n ∉ ops.filterMap parameter? := by
      simpa only [not_or, not_not] using hn
    rw [h.names_eq, List.mem_append] at hin
    have := (hremoved n (hin.resolve_left hnot)).1
    simp [heq] at this
  · refine (h.removeLocal n).2 fun hlocal => ?_
    rcases hn with hn | hn
    · exact hn (by simp [h.names_eq, hlocal])
    · exact h.not_param n hlocal hn
  · rintro ⟨fault, hfault⟩ hnil
    obtain ⟨w, hw, -⟩ := (h.addParameter n).1 hnil
    cases hw.symm.trans hfault
  · exact ⟨_, (h.addParameter n).2 hne⟩

open TableOp in
/-- A parameter that is declared twice and cannot be removed, and a variable that is removed. -/
theorem table_follows_declarations_repeated_parameter :
    let ops : List TableOp := [.parameter "a", .parameter "b", .parameter "a", .declare "x",
      .declare "y", .declare "b", .remove "x", .remove "a"]
    ∃ v, run {} ops = .ok v ∧ v.names = ["a", "b", "a", "y"] ∧ v.get? "a" = some 2 ∧
      (∀ j, 2 < j → v.names[j]? ≠ some "a") ∧ v.get? "x" = none ∧ v.paramCount = 3 ∧
      v.isParameter "a" = true ∧ v.removeLocal "a" = (false, v) ∧
      ∃ fault, v.addParameter "c" = .error fault := by
  intro ops
  have hrun : run {} ops = .ok { names := ["a", "b", "a", "y"], paramCount := 3 } := rfl
  obtain ⟨hsome, hnone, locals, hnames, hcount, -, -, hparam, -, -, hremove, -, hadd⟩ :=
    table_follows_declarations hrun
  refine ⟨_, hrun, rfl, rfl, ((hsome "a" 2).mp rfl).2, (hnone "x").mpr (by decide), hcount,
    (hparam "a").mpr (by decide), (hremove "a").mpr (.inr (by decide)), (hadd "c").mpr ?_⟩
  rintro rfl
  cases hnames

end ScriptEngine
