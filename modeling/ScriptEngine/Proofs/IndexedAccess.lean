import Mathlib.Algebra.Order.Ring.Nat
import Std.Data.String.ToNat
import ScriptEngine.Object.Access

/-!
# Access by index

The names that are indices are the decimal numerals below `2 ^ 64`, each number in one spelling.
Every kind of object but the scope of a with statement takes such a name for its index: it makes no
difference by which of the two a property is read, tested, written or deleted.
-/

namespace ScriptEngine

variable {i n : Nat} {name : String}

/-! ## Numerals -/

private theorem digitChar_of_isDigit {c : Char} (hc : c.isDigit) :
    c.toNat - '0'.toNat < 10 ∧ (c.toNat - '0'.toNat).digitChar = c := by
  have hbounds : 48 ≤ c.toNat ∧ c.toNat ≤ 57 := by
    simpa [Char.isDigit, UInt32.le_iff_toNat_le] using hc
  have hlt : c.toNat - '0'.toNat < 10 := by
    show c.toNat - 48 < 10
    omega
  refine ⟨hlt, Char.toNat_inj.mp ?_⟩
  rw [Nat.toNat_digitChar_of_lt_ten hlt]
  show 48 + (c.toNat - 48) = c.toNat
  omega

/-- Digits behind a number other than zero. -/
theorem toDigits_append_digits {cs : List Char} (hn : 0 < n) (hcs : ∀ c ∈ cs, c.isDigit) :
    Nat.toDigits 10 n ++ cs = Nat.toDigits 10 (Nat.ofDigitChars 10 cs n) := by
  induction cs generalizing n with
  | nil => rw [Nat.ofDigitChars_nil, List.append_nil]
  | cons c cs ih =>
    obtain ⟨hlt, hchar⟩ := digitChar_of_isDigit (hcs c (by simp))
    have hone := Nat.toDigits_append_toDigits (by decide) hn hlt
    rw [Nat.toDigits_of_lt_base hlt, hchar] at hone
    rw [Nat.ofDigitChars_cons, ← ih (by omega) fun d hd => hcs d (by simp [hd]), ← hone,
      List.append_assoc, List.singleton_append]

/-- A numeral does not begin with zero. -/
theorem head?_toDigits (hn : 0 < n) : (Nat.toDigits 10 n).head? ≠ some '0' := by
  induction n using Nat.strongRecOn with
  | ind n ih =>
    rw [Nat.toDigits_eq_if (by decide)]
    split
    · next hlt =>
      have hdigits : ∀ d < 10, 0 < d → d.digitChar ≠ '0' := by decide
      simpa using hdigits n hlt hn
    · have ih := ih (n / 10) (by omega) (by omega)
      cases hd : Nat.toDigits 10 (n / 10) with
      | nil => exact absurd hd Nat.toDigits_ne_nil
      | cons c cs => simpa [hd] using ih

private theorem toList_indexName (i : Nat) : (indexName i).toList = Nat.toDigits 10 i := by
  show i.repr.toList = _
  rw [Nat.repr_eq_ofList_toDigits, String.toList_ofList]

/-- Different indices have different names. -/
theorem indexName_inj {j : Nat} : indexName i = indexName j ↔ i = j := Nat.repr_inj

/-- A name is an index exactly if it is the numeral of a number below `2 ^ 64`. -/
theorem arrayIndex?_eq_some_iff : arrayIndex? name = some i ↔ name = indexName i ∧ i < 2 ^ 64 := by
  constructor
  · intro h
    rw [arrayIndex?] at h
    split at h
    · cases h
    · cases h
    · next hnil hzero =>
      simp only [Option.ite_none_right_eq_some, Bool.and_eq_true, List.all_eq_true,
        decide_eq_true_eq, Option.some.injEq] at h
      obtain ⟨⟨hdigits, hlt⟩, rfl⟩ := h
      refine ⟨String.toList_injective ?_, hlt⟩
      rw [toList_indexName]
      cases hcs : name.toList with
      | nil => exact absurd hcs hnil
      | cons c cs =>
        rw [hcs] at hdigits
        obtain ⟨hten, hchar⟩ := digitChar_of_isDigit (hdigits c (by simp))
        -- The first digit is zero only if it is the only one.
        cases cs with
        | nil =>
          show [c] = Nat.toDigits 10 (10 * 0 + (c.toNat - '0'.toNat))
          rw [Nat.mul_zero, Nat.zero_add, Nat.toDigits_of_lt_base hten, hchar]
        | cons d rest =>
          have hpos : 0 < c.toNat - '0'.toNat := by
            refine Nat.pos_of_ne_zero fun hz => hzero d rest ?_
            rw [hcs, ← hchar, hz]
            rfl
          have hall := toDigits_append_digits hpos fun e (he : e ∈ d :: rest) =>
            hdigits e (by simp [List.mem_cons.mp he])
          rw [Nat.toDigits_of_lt_base hten, hchar] at hall
          simpa [Number.digitsValue, Nat.ofDigitChars] using hall
  · rintro ⟨rfl, hlt⟩
    have hvalue : Number.digitsValue (Nat.toDigits 10 i) = i :=
      Nat.ofDigitChars_toDigits (by decide) (by decide)
    rw [arrayIndex?, toList_indexName]
    split
    · next hnil => exact absurd hnil Nat.toDigits_ne_nil
    · next c rest hzero =>
      have hi : i = 0 := Nat.eq_zero_of_not_pos fun hpos => head?_toDigits hpos (by rw [hzero]; rfl)
      subst hi
      cases hzero
    · have hdigits : ∀ c ∈ Nat.toDigits 10 i, c.isDigit = true := fun c hc =>
        Nat.isDigit_of_mem_toDigits (by decide) (by decide) hc
      rw [hvalue, if_pos]
      simp only [Bool.and_eq_true, List.all_eq_true, decide_eq_true_eq]
      exact ⟨hdigits, hlt⟩

/-- An index has no name that is not a numeral. -/
theorem indexName_ne (h : name.toList.all Char.isDigit = false) : indexName i ≠ name := by
  rintro rfl
  rw [toList_indexName, List.all_eq_false] at h
  obtain ⟨c, hc, hnot⟩ := h
  exact hnot (Nat.isDigit_of_mem_toDigits (by decide) (by decide) hc)

/-! ## Reading and writing -/

namespace Store

variable {s : Store} {id : ObjId}

/-- Only the scope of a with statement stands for another object. -/
theorem exposed_eq_self (h : s.isWithScope id = false) : s.exposed id = id := by
  have hlink : exposedLink (s.object id) = none := by
    rw [isWithScope, kind] at h
    rw [exposedLink]
    split <;> simp_all
  rw [exposed]
  cases hsize : s.size with
  | zero => rfl
  | succ k => rw [walk, hlink, walk]; rfl

/-- Only functions make their prototypes. -/
theorem settlePrototype_eq_self (h : s.function? id = none) : s.settlePrototype id = s := by
  rw [settlePrototype, h]

/-- Reading a `prototype` settles it first. -/
theorem getOwn_run_settled (s : Store) (id : ObjId) :
    (StoreM.getOwn id "prototype").run s =
      ((s.settlePrototype id).read id "prototype").map (·, s.settlePrototype id) := by
  simp only [StoreM.getOwn, if_true, StateT.run_bind, StateT.run_modify, StateT.run_get, pure_bind]
  cases (s.settlePrototype id).read id "prototype" <;> rfl

/-- Reading changes the store for the prototypes of functions only. -/
theorem getOwn_run (h : name = "prototype" → s.function? id = none) :
    (StoreM.getOwn id name).run s = (s.read id name).map (·, s) := by
  by_cases hn : name = "prototype"
  · subst hn
    rw [getOwn_run_settled, settlePrototype_eq_self (h rfl)]
  · simp only [StoreM.getOwn, if_neg hn, StateT.run_bind, StateT.run_get, pure_bind]
    cases s.read id name <;> rfl

/-- A name that is an index is none of those that mean something else to some kind of object. -/
theorem access_index (s : Store) (id : ObjId) (hi : arrayIndex? name = some i) :
    s.read id name = s.readIndex id i ∧ s.has id name = s.hasIndex id i ∧
      (∀ v, s.putOwn id name v = s.putIndex id i v) ∧ s.delete id name = s.deleteIndex id i := by
  obtain ⟨rfl, -⟩ := arrayIndex?_eq_some_iff.mp hi
  have hlength : indexName i ≠ "length" := indexName_ne rfl
  have harity : indexName i ≠ "arity" := indexName_ne rfl
  have hname : indexName i ≠ "name" := indexName_ne rfl
  have hprototype : indexName i ≠ "prototype" := indexName_ne rfl
  have harguments : indexName i ≠ "arguments" := indexName_ne rfl
  have hcallee : indexName i ≠ "callee" := indexName_ne rfl
  have hcaller : indexName i ≠ "caller" := indexName_ne rfl
  cases hkind : s.kind id <;>
    simp [read, readIndex, has, hasIndex, putOwn, putIndex, delete, deleteIndex, *]

end Store

/-- Every object but the scope of a with statement takes the name of an index for the index: it
reads, has, writes and deletes the one as the other. These names are the numerals below `2 ^ 64`. -/
theorem named_access_is_indexed (s : Store) {id : ObjId} (hid : s.isWithScope id = false) (i : Nat)
    (hi : i < 2 ^ 64) :
    (StoreM.getOwn id (indexName i)).run s = (s.readIndex id i).map (·, s) ∧
      s.has id (indexName i) = s.hasIndex id i ∧
      (∀ v, s.put id (indexName i) v = s.putIndex id i v) ∧
      s.delete id (indexName i) = s.deleteIndex id i ∧
      ∀ name j, arrayIndex? name = some j ↔ name = indexName j ∧ j < 2 ^ 64 := by
  have hindex : arrayIndex? (indexName i) = some i := arrayIndex?_eq_some_iff.mpr ⟨rfl, hi⟩
  obtain ⟨hread, hhas, hput, hdelete⟩ := s.access_index id hindex
  refine ⟨?_, hhas, fun v => ?_, hdelete, fun _ _ => arrayIndex?_eq_some_iff⟩
  · rw [Store.getOwn_run fun h => absurd h (indexName_ne rfl), hread]
  · rw [Store.put, Store.exposed_eq_self hid, hput]

/-- The first element of an `arguments` object is an alias: by name and by index, the write goes to
the record of the call. -/
theorem named_access_is_indexed_of_alias :
    let unit : CompiledUnit := { (default : CompiledUnit) with argNames := ["x"], argCount := 1 }
    let record : Object :=
      { kind := .activation { function := ⟨0⟩, receiver := none, args := [] }
        properties := ({} : PropertyMap).define "x" { value := .null } }
    let arguments : ArgumentsData :=
      { activation := ⟨0⟩, unit, elements := #[some .null], length := none, callee := none
        caller := .missing }
    let s := ((Store.push {} record).2.push { kind := .arguments arguments }).2
    s.isWithScope ⟨1⟩ = false ∧ 0 < 2 ^ 64 ∧
      (s.put ⟨1⟩ "0" .undefined).readIndex ⟨1⟩ 0 = .ok (some .undefined) ∧
      ((s.put ⟨1⟩ "0" .undefined).properties ⟨0⟩).get? "x" = some .undefined := by
  intro unit record arguments s
  have hkind : s.isWithScope ⟨1⟩ = false := rfl
  have hput := (named_access_is_indexed s hkind 0 (by decide)).2.2.1 .undefined
  refine ⟨hkind, by decide, ?_⟩
  rw [show "0" = indexName 0 from rfl, hput]
  exact ⟨rfl, rfl⟩

end ScriptEngine
