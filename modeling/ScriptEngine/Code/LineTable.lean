/-!
# Line tables

Which source line the code at an offset belongs to: each entry holds for the code from its offset up
to that of the next entry.
-/

namespace ScriptEngine

structure LineEntry where
  pc : Nat
  line : Nat
deriving DecidableEq, Repr, Inhabited

structure LineTable where
  entries : Array LineEntry := #[]
deriving DecidableEq, Repr, Inhabited

namespace LineTable

/-- Notes that code for a line starts at an offset. The line that is already in force is not noted
again, and a later note for the same offset replaces the earlier one. -/
def note (t : LineTable) (pc line : Nat) : LineTable :=
  match t.entries.back? with
  | none => ⟨#[⟨pc, line⟩]⟩
  | some last =>
    if last.line = line then t
    else if last.pc = pc then ⟨t.entries.pop.push ⟨pc, line⟩⟩
    else ⟨t.entries.push ⟨pc, line⟩⟩

/-- How many of the entries from `low` up to `high` and before are not behind an offset, if these
come first. -/
def partitionPoint (entries : Array LineEntry) (pc low high : Nat) : Nat :=
  if low < high then
    let middle := (low + high) / 2
    if (entries.getD middle default).pc ≤ pc then partitionPoint entries pc (middle + 1) high
    else partitionPoint entries pc low middle
  else low
termination_by high - low

/-- The line in force at an offset: that of the last entry not behind it. -/
def lineAt? (t : LineTable) (pc : Nat) : Option Nat :=
  match partitionPoint t.entries pc 0 t.entries.size with
  | 0 => none
  | i + 1 => t.entries[i]?.map (·.line)

end LineTable

end ScriptEngine
