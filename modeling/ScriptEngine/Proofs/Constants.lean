import Mathlib.Algebra.Order.Ring.Nat
import Mathlib.Data.List.Basic
import ScriptEngine.Code.Assembler

/-!
# Constants of a unit

`Interned` says what adding a constant to a table comes to, whichever way the table is searched.
What an assembler is told in the meantime does not touch the constants that are there, so positions
stay valid.
-/

namespace ScriptEngine

/-- Adding a constant to a table gives its position: that at which it is, or that behind all others.
There is none if it is new and the table is full. -/
inductive Interned {α : Type} (items : Array α) (a : α) : Option Nat → Array α → Prop where
  | known {i : Nat} (hat : items[i]? = some a) (hlt : i < poolCapacity) :
    Interned items a (some i) items
  | added (hnew : a ∉ items) (hroom : items.size < poolCapacity) :
      Interned items a (some items.size) (items.push a)
  | full (hnew : a ∉ items) (hfull : items.size = poolCapacity) : Interned items a none items

namespace Interned

variable {α : Type} {items items' : Array α} {a b : α} {r : Option Nat} {i : Nat}

/-- Constants stay where they are. -/
theorem getElem?_of_getElem? (h : Interned items a r items') (hb : items[i]? = some b) :
    items'[i]? = some b := by
  cases h with
  | known | full => exact hb
  | added =>
    have hlt := (Array.getElem?_eq_some_iff.mp hb).1
    rw [Array.getElem?_push, if_neg (by omega), hb]

/-- A position is that of the constant, and there is room for it in the code. -/
theorem getElem?_eq (h : Interned items a (some i) items') :
    items'[i]? = some a ∧ i < poolCapacity := by
  cases h with
  | known hat hlt => exact ⟨hat, hlt⟩
  | added _ hroom => exact ⟨by simp, hroom⟩

private theorem eq_none_iff (h : Interned items a r items') :
    r = none ↔ a ∉ items ∧ items.size = poolCapacity := by
  cases h with
  | known hat => exact ⟨nofun, fun hfull => absurd (Array.mem_of_getElem? hat) hfull.1⟩
  | added _ hroom => exact ⟨nofun, fun hfull => by omega⟩
  | full hnew hfull => exact ⟨fun _ => ⟨hnew, hfull⟩, fun _ => rfl⟩

/-- A constant that is in the table is found in it. -/
theorem exists_of_mem (h : Interned items a r items') (ha : a ∈ items) :
    ∃ i, r = some i ∧ items[i]? = some a := by
  cases h with
  | known hat => exact ⟨_, rfl, hat⟩
  | added hnew | full hnew => exact absurd ha hnew

end Interned

/-- A string is found by the index. -/
theorem StringPool.interned (p : StringPool) (s : String) :
    Interned p.items s (p.intern s).1 (p.intern s).2.items := by
  obtain ⟨items, index, hindex, hsize⟩ := p
  have hmem : s ∈ items → index[s]? ≠ none := by
    intro hs hnone
    obtain ⟨i, hi⟩ := Array.mem_iff_getElem?.mp hs
    cases hnone.symm.trans ((hindex s i).mpr hi)
  unfold intern
  dsimp only
  split
  · next i hi =>
    have hat := (hindex s i).mp hi
    exact .known hat (Nat.lt_of_lt_of_le (Array.getElem?_eq_some_iff.mp hat).1 hsize)
  · next hnone =>
    split
    · next hroom => exact .added (fun hs => hmem hs hnone) hroom
    · exact .full (fun hs => hmem hs hnone) (by omega)

/-- A number is found by its bits. Its position is less than the capacity, so nothing is cut off. -/
theorem NumberPool.interned (p : NumberPool) (x : Number) :
    Interned p.items x (p.intern x).1 (p.intern x).2.items := by
  unfold intern
  split
  · next i hi =>
    obtain ⟨hlt, hbits, -⟩ := Array.findIdx?_eq_some_iff_getElem.mp hi
    have hcap : i < poolCapacity := Nat.lt_of_lt_of_le hlt p.size_le
    have hcut : (UInt16.ofNat i).toNat = i := UInt16.toNat_ofNat_of_lt' hcap
    have hat : p.items[i]? = some x := by
      have heq : p.items[i].bits = x.bits := by simpa using hbits
      rw [Array.getElem?_eq_getElem hlt]
      exact congrArg some (congrArg Number.mk heq)
    rw [hcut]
    exact .known hat hcap
  · next hnone =>
    have hnew : x ∉ p.items := fun hx => by simpa using Array.findIdx?_eq_none_iff.mp hnone x hx
    split
    · next hroom => exact .added hnew hroom
    · have := p.size_le
      exact .full hnew (by omega)

private theorem StringPool.intern_eq_self {p : StringPool} {s : String}
    (h : (p.intern s).1 = none) : (p.intern s).2 = p := by
  obtain ⟨items, index, hindex, hsize⟩ := p
  revert h
  unfold intern
  dsimp only
  split
  · exact nofun
  · split
    · exact nofun
    · exact fun _ => rfl

private theorem NumberPool.intern_eq_self {p : NumberPool} {x : Number}
    (h : (p.intern x).1 = none) : (p.intern x).2 = p := by
  revert h
  unfold intern
  split
  · exact nofun
  · split
    · exact nofun
    · exact fun _ => rfl

private theorem StringPool.nodup (p : StringPool) : p.items.toList.Nodup := by
  refine List.pairwise_iff_getElem.mpr fun i j hi hj hij heq => ?_
  have hat (k : Nat) (hk : k < p.items.toList.length) :
      p.index[p.items.toList[k]]? = some k := (p.index_iff _ k).mpr (by simp)
  have := (hat i hi).symm.trans (heq ▸ hat j hj)
  simp only [Option.some.injEq] at this
  omega

/-! ## Operations on an assembler -/

@[simp] theorem Assembler.toList_emitBytes (a : Assembler) (bytes : List UInt8) :
    (a.emitBytes bytes).code.toList = a.code.toList ++ bytes := by
  have hall : ∀ (bytes : List UInt8) (code : Array UInt8),
      (bytes.foldl Array.push code).toList = code.toList ++ bytes := by
    intro bytes
    induction bytes with
    | nil => simp
    | cons b bytes ih => intro code; simp
  exact hall bytes a.code

/-- What an assembler can be told. -/
inductive AssemblerOp where
  | emit (op : Token)
  | byte (value : Nat)
  | short (value : Nat)
  | long (value : Int)
  | patch (start : Nat) (value : Int)
  | string (s : String)
  | number (x : Number)
  | line (n : Nat)

namespace AssemblerOp

/-- The assembler after an operation. -/
def apply (a : Assembler) : AssemblerOp → Except Fault Assembler
  | emit op => a.emit op
  | byte value => .ok (a.emitByte value)
  | short value => .ok (a.emitShort value)
  | long value => .ok (a.emitLong value)
  | patch start value => a.patchLong start value
  | string s => .ok (a.addString s).2
  | number x => .ok (a.addNumber x).2
  | line n => .ok (a.noteLine n)

/-- The assembler after a sequence of operations. -/
def run (a : Assembler) (ops : List AssemblerOp) : Except Fault Assembler := ops.foldlM apply a

/-- A run is a step and then a run. -/
theorem run_cons {a b : Assembler} {op : AssemblerOp} {ops : List AssemblerOp}
    (h : run a (op :: ops) = .ok b) : ∃ c, op.apply a = .ok c ∧ run c ops = .ok b := by
  rw [run, List.foldlM_cons] at h
  cases hc : op.apply a with
  | error fault =>
    rw [hc] at h
    cases h
  | ok c => exact ⟨c, rfl, by rwa [hc] at h⟩

/-- An operation leaves constants where they are. -/
theorem getElem?_apply {a b : Assembler} {op : AssemblerOp} (h : op.apply a = .ok b) (i : Nat) :
    (∀ s, a.strings.items[i]? = some s → b.strings.items[i]? = some s) ∧
      ∀ x, a.numbers.items[i]? = some x → b.numbers.items[i]? = some x := by
  cases op with
  | emit op =>
    simp only [apply, Assembler.emit] at h
    split at h
    · cases h
      exact ⟨fun _ hs => hs, fun _ hx => hx⟩
    · cases h
  | patch start value =>
    simp only [apply, Assembler.patchLong] at h
    split at h
    · cases h
      exact ⟨fun _ hs => hs, fun _ hx => hx⟩
    · cases h
  | string s =>
    cases h
    exact ⟨fun _ ht => (a.strings.interned s).getElem?_of_getElem? ht, fun _ hx => hx⟩
  | number x =>
    cases h
    exact ⟨fun _ hs => hs, fun _ hy => (a.numbers.interned x).getElem?_of_getElem? hy⟩
  | byte | short | long | line =>
    cases h
    exact ⟨fun _ hs => hs, fun _ hx => hx⟩

/-- So does a sequence of operations. -/
theorem getElem?_run {a b : Assembler} {ops : List AssemblerOp} (h : run a ops = .ok b) (i : Nat) :
    (∀ s, a.strings.items[i]? = some s → b.strings.items[i]? = some s) ∧
      ∀ x, a.numbers.items[i]? = some x → b.numbers.items[i]? = some x := by
  induction ops generalizing a with
  | nil =>
    cases h
    exact ⟨fun _ hs => hs, fun _ hx => hx⟩
  | cons op ops ih =>
    obtain ⟨c, hc, hrest⟩ := run_cons h
    have hone := getElem?_apply hc i
    have hall := ih hrest
    exact ⟨fun s hs => hall.1 s (hone.1 s hs), fun x hx => hall.2 x (hone.2 x hx)⟩

end AssemblerOp

/-! ## Positions -/

/-- How an assembler keeps constants of one kind, if `add` adds one of them and `items` is their
table. The table has no constant twice and at most `2 ^ 16` of them. A constant is refused if it is
new and the table is full, and then nothing changes. Otherwise it has a position, at which it stays
whatever else the assembler is told, and at which it is found again; other constants have others. -/
structure KeepsConstants {α : Type} (add : Assembler → α → Except CodeError Nat × Assembler)
    (items : Assembler → Array α) (a : Assembler) : Prop where
  nodup : (items a).toList.Nodup
  size_le : (items a).size ≤ 2 ^ 16
  refused_iff : ∀ x, (∃ error, (add a x).1 = .error error) ↔ x ∉ items a ∧ (items a).size = 2 ^ 16
  unchanged : ∀ x error, (add a x).1 = .error error → (add a x).2 = a
  position : ∀ x i, (add a x).1 = .ok i → ∀ ops b, AssemblerOp.run (add a x).2 ops = .ok b →
    (items b)[i]? = some x ∧ (add b x).1 = .ok i ∧ ∀ y j, (add b y).1 = .ok j → (j = i ↔ y = x)

/-- A table of which it is known what adding a constant does keeps its constants. -/
theorem KeepsConstants.of_interned {α : Type}
    {add : Assembler → α → Except CodeError Nat × Assembler}
    {items : Assembler → Array α} {find : Assembler → α → Option Nat} {error : CodeError}
    (hadd : ∀ a x, (add a x).1 = Assembler.positionOr error (find a x))
    (hinterned : ∀ a x, Interned (items a) x (find a x) (items (add a x).2))
    (hnodup : ∀ a, (items a).toList.Nodup) (hsize : ∀ a, (items a).size ≤ poolCapacity)
    (hnone : ∀ a x, find a x = none → (add a x).2 = a)
    (hrun : ∀ a b ops, AssemblerOp.run a ops = .ok b → ∀ (i : Nat) (x : α),
      (items a)[i]? = some x → (items b)[i]? = some x)
    (a : Assembler) : KeepsConstants add items a := by
  have hfound {a : Assembler} {x : α} {i : Nat} (h : (add a x).1 = .ok i) : find a x = some i := by
    rw [hadd] at h
    cases hf : find a x with
    | none => simp [hf, Assembler.positionOr] at h
    | some j => simpa [hf, Assembler.positionOr] using h
  have hposition {b : Assembler} {y : α} {i j : Nat} (hi : (items b)[i]? = some y)
      (hj : (items b)[j]? = some y) : i = j := by
    rw [← Array.getElem?_toList] at hi hj
    exact (List.getElem?_inj (List.getElem?_eq_some_iff.mp hi).1 (hnodup b)).mp (hi.trans hj.symm)
  refine ⟨hnodup a, hsize a, fun x => ?_, fun x e h => hnone a x ?_, fun x i hi ops b hops => ?_⟩
  · refine Iff.trans ?_ (hinterned a x).eq_none_iff
    rw [hadd]
    cases find a x <;> simp [Assembler.positionOr]
  · cases hf : find a x with
    | none => rfl
    | some i => simp [hadd, hf, Assembler.positionOr] at h
  · have hb := hrun _ b ops hops i x (hfound hi ▸ hinterned a x).getElem?_eq.1
    -- Where a constant is in the table, it is found again.
    have hagain : (add b x).1 = .ok i := by
      obtain ⟨j, hj, hat⟩ := (hinterned b x).exists_of_mem (Array.mem_of_getElem? hb)
      rw [hadd, hj, hposition hat hb]
      rfl
    refine ⟨hb, hagain, fun y j hj => ⟨?_, ?_⟩⟩
    · rintro rfl
      have hy := (hfound hj ▸ hinterned b y).getElem?_eq.1
      exact Option.some.inj (hy.symm.trans ((hinterned b y).getElem?_of_getElem? hb))
    · rintro rfl
      exact Except.ok.inj (hj.symm.trans hagain)

/-- The string and number constants of a unit are kept in this way. Numbers are told apart by their
bits, so the two zeros are different constants. -/
theorem constants_keep_positions (a : Assembler) :
    KeepsConstants Assembler.addString (·.strings.items) a ∧
      KeepsConstants Assembler.addNumber (·.numbers.items) a := by
  constructor
  · refine .of_interned (fun _ _ => rfl) (fun a s => a.strings.interned s)
      (fun a => a.strings.nodup) (fun a => a.strings.size_le) (fun a s h => ?_)
      (fun _ _ _ h i => (AssemblerOp.getElem?_run h i).1) a
    simp [Assembler.addString, StringPool.intern_eq_self h]
  · refine .of_interned (fun _ _ => rfl) (fun a x => a.numbers.interned x)
      (fun a => a.numbers.nodup) (fun a => a.numbers.size_le) (fun a x h => ?_)
      (fun _ _ _ h i => (AssemblerOp.getElem?_run h i).2) a
    simp [Assembler.addNumber, NumberPool.intern_eq_self h]

example : (AssemblerOp.run {} [.number (Number.zero false), .number (Number.zero true),
    .number (Number.zero false)]).map (·.numbers.items.size) = .ok 2 := by decide +kernel

end ScriptEngine
