import ScriptEngine.Number.Basic
import Std.Data.HashMap

/-!
# Constant pools

The constants of a unit, each once, in the order in which they were first added. Code refers to them
by positions of sixteen bits, so a pool holds at most `2 ^ 16` of them. Strings are found by an
index of their positions, numbers by comparing their bits with those of all numbers in the pool.
-/

namespace ScriptEngine

def poolCapacity : Nat := Nat.pow 2 16

theorem StringPool.index_iff_empty (s : String) (i : Nat) :
    (∅ : Std.HashMap String Nat)[s]? = some i ↔ (#[] : Array String)[i]? = some s := by simp

structure StringPool where
  items : Array String := #[]
  index : Std.HashMap String Nat := ∅
  index_iff : ∀ (s : String) (i : Nat), index[s]? = some i ↔ items[i]? = some s := by
    exact StringPool.index_iff_empty
  size_le : items.size ≤ poolCapacity := by exact Nat.zero_le _

namespace StringPool

theorem index_iff_push {items : Array String} {index : Std.HashMap String Nat}
    (h : ∀ (s : String) (i : Nat), index[s]? = some i ↔ items[i]? = some s) {s : String}
    (hs : index[s]? = none) (t : String) (i : Nat) :
    (index.insert s items.size)[t]? = some i ↔ (items.push s)[i]? = some t := by
  rw [Std.HashMap.getElem?_insert, Array.getElem?_push]
  by_cases hi : i = items.size
  · by_cases hst : s = t <;> simp [hi, hst, h]
  · by_cases hst : s = t
    · have hnot : items[i]? ≠ some s := fun hat => by simp [(h s i).mpr hat] at hs
      simp [← hst, hi, hnot, Ne.symm hi]
    · simp [hst, hi, h]

/-- The position of a string, which is added if it is new; none if there is no room for it. -/
def intern (p : StringPool) (s : String) : Option Nat × StringPool :=
  match p with
  | ⟨items, index, index_iff, size_le⟩ =>
    match hs : index[s]? with
    | some i => (some i, ⟨items, index, index_iff, size_le⟩)
    | none =>
      let n := items.size
      if hroom : n < poolCapacity then
        (some n, ⟨items.push s, index.insert s n, index_iff_push index_iff hs,
          by rw [Array.size_push]; exact hroom⟩)
      else (none, ⟨items, index, index_iff, size_le⟩)

end StringPool

/-- Numbers of which no two have the same bits. -/
structure NumberPool where
  items : Array Number := #[]
  nodup : items.toList.Nodup := by exact List.nodup_nil
  size_le : items.size ≤ poolCapacity := by exact Nat.zero_le _

namespace NumberPool

theorem nodup_push {items : Array Number} {x : Number} (h : items.toList.Nodup)
    (hx : items.findIdx? (·.bits == x.bits) = none) : (items.push x).toList.Nodup := by
  rw [Array.toList_push, List.nodup_append]
  refine ⟨h, by simp, fun y hy z hz hyz => ?_⟩
  have hne := Array.findIdx?_eq_none_iff.mp hx y (Array.mem_toList_iff.mp hy)
  simp [hyz, List.mem_singleton.mp hz] at hne

/-- The position of a number, cut to sixteen bits. The number is added if it is new; there is no
position if there is no room for it. -/
def intern (p : NumberPool) (x : Number) : Option Nat × NumberPool :=
  match hx : p.items.findIdx? (·.bits == x.bits) with
  | some i => (some (UInt16.ofNat i).toNat, p)
  | none =>
    if hroom : p.items.size < poolCapacity then
      (some p.items.size,
        { items := p.items.push x, nodup := nodup_push p.nodup hx
          size_le := by rw [Array.size_push]; exact hroom })
    else (none, p)

end NumberPool

end ScriptEngine
