import Mathlib
import ScriptEngine.Object.Text

/-!
# Texts of integral numbers

Integral numbers below `10 ^ 21` are written as integers of sixty-four bits. The text is the decimal
notation of the exact value if that is in their range, and otherwise that of the bound next to it.
-/

namespace ScriptEngine

namespace Number

variable {x : Number} {z : Int}

/-- The exact value of a finite number. -/
def exact (x : Number) : ℚ := (if x.negative then -1 else 1) * (x.mantissa * 2 ^ x.scale)

private theorem ratio_pos (x : Number) : 0 < x.ratio.2 := by
  rw [ratio]
  split
  · exact Nat.one_pos
  · exact Nat.two_pow_pos _

private theorem exact_eq_ratio (x : Number) :
    x.exact = (if x.negative then -1 else 1) * ((x.ratio.1 : ℚ) / x.ratio.2) := by
  rw [exact, ratio]
  congr 1
  split
  · next h =>
    obtain ⟨n, hn⟩ := Int.eq_ofNat_of_zero_le h
    simp [hn]
  · next h =>
    obtain ⟨n, hn⟩ := Int.eq_ofNat_of_zero_le (a := -x.scale) (by omega)
    have hscale : x.scale = -(n : Int) := by omega
    simp [hscale, div_eq_mul_inv]

/-- The magnitude of a number that is exactly an integer. -/
theorem ratio_of_exact (h : x.exact = z) : x.ratio.1 = z.natAbs * x.ratio.2 := by
  have hpos : (0 : ℚ) < x.ratio.2 := by exact_mod_cast x.ratio_pos
  have habs : (x.ratio.1 : ℚ) / x.ratio.2 = z.natAbs := by
    have habs := congrArg abs h
    rw [exact_eq_ratio, abs_mul, abs_of_nonneg (a := (x.ratio.1 : ℚ) / _) (by positivity)] at habs
    rw [Nat.cast_natAbs, Int.cast_abs, ← habs]
    split <;> simp
  rw [div_eq_iff hpos.ne'] at habs
  exact_mod_cast habs

private theorem truncate_of_exact (h : x.exact = z) : x.truncate = z := by
  have hdiv : x.ratio.1 / x.ratio.2 = z.natAbs := by
    rw [ratio_of_exact h, Nat.mul_div_cancel _ x.ratio_pos]
  have hpos : (0 : ℚ) < x.ratio.2 := by exact_mod_cast x.ratio_pos
  have hexact : (if x.negative then -1 else 1) * ((|z| : Int) : ℚ) = z := by
    rw [← Nat.cast_natAbs, ← h, exact_eq_ratio, ratio_of_exact h, Nat.cast_mul,
      mul_div_cancel_right₀ _ hpos.ne']
  rw [truncate, hdiv]
  cases hneg : x.negative with
  | true =>
    rw [hneg, if_pos rfl, neg_one_mul] at hexact
    exact_mod_cast hexact
  | false =>
    rw [hneg, if_neg nofun, one_mul] at hexact
    exact (Int.natCast_natAbs z).trans (by exact_mod_cast hexact)

private theorem display_of_exact (hfinite : x.isFinite) (h : x.exact = z)
    (hz : z.natAbs < 10 ^ 21) : x.display = toString (max (-2 ^ 63) (min (2 ^ 63 - 1) z)) := by
  have hexponent : x.exponentBits ≠ 2047 := by simpa [isFinite] using hfinite
  have hintegral : x.isIntegral = true := by
    simp [isIntegral, hfinite, ratio_of_exact h]
  have hlt : x.magnitudeLt (Nat.pow 10 21) = true := by
    rw [magnitudeLt, ratio_of_exact h, decide_eq_true_iff]
    exact Nat.mul_lt_mul_of_pos_right hz x.ratio_pos
  rw [display, if_neg (by simp [isNaN, hexponent]), if_neg (by simp [isInfinite, hexponent]),
    if_pos (by rw [hintegral, hlt]; rfl), truncate_of_exact h]
  rfl

end Number

/-- The text of an integral number below `10 ^ 21` is that of its value, clamped to sixty-four bits.
So it is exact just in their range, where different numbers have different texts. -/
theorem integral_number_text (s : Store) {x : Number} {z : Int} (hx : x.isFinite) (h : x.exact = z)
    (hz : z.natAbs < 10 ^ 21) :
    s.display (.number x) = toString (max (-2 ^ 63) (min (2 ^ 63 - 1) z)) ∧
      (s.display (.number x) = toString z ↔ -2 ^ 63 ≤ z ∧ z < 2 ^ 63) ∧
      ∀ (y : Number) (w : Int), y.isFinite → y.exact = w → -2 ^ 63 ≤ z ∧ z < 2 ^ 63 →
        -2 ^ 63 ≤ w ∧ w < 2 ^ 63 → s.display (.number x) = s.display (.number y) →
        x.exact = y.exact := by
  have htext : s.display (.number x) = _ := Number.display_of_exact hx h hz
  refine ⟨htext, ?_, fun y w hy hyw hzrange hwrange heq => ?_⟩
  · rw [htext, Int.toString_eq_repr, Int.toString_eq_repr, Int.repr_inj]
    omega
  · have htext' : s.display (.number y) = _ := Number.display_of_exact hy hyw (by omega)
    rw [htext, htext', Int.toString_eq_repr, Int.toString_eq_repr, Int.repr_inj] at heq
    rw [h, hyw]
    congr 1
    omega

/-- The least integer of sixty-four bits. -/
theorem integral_number_text_of_least :
    let x : Number := ⟨0xc3e0000000000000⟩
    x.isFinite ∧ x.exact = ((-2 ^ 63 : Int) : ℚ) ∧
      (default : Store).display (.number x) = toString (-2 ^ 63 : Int) := by
  intro x
  have hx : x.exact = ((-2 ^ 63 : Int) : ℚ) := by
    have hparts : x.negative = true ∧ x.mantissa = 2 ^ 52 ∧ x.scale = 11 := by decide
    rw [Number.exact, hparts.1, hparts.2.1, hparts.2.2]
    norm_num
  exact ⟨by decide, hx,
    (integral_number_text default (x := x) (by decide) hx (by decide)).2.1.mpr (by decide)⟩

/-- `2 ^ 63` and `2 ^ 64` have the same text. -/
theorem large_integral_texts_equal :
    let x : Number := ⟨0x43e0000000000000⟩
    let y : Number := ⟨0x43f0000000000000⟩
    x.exact = 2 ^ 63 ∧ y.exact = 2 ^ 64 ∧ x.display = y.display := by
  intro x y
  have hx : x.negative = false ∧ x.mantissa = 2 ^ 52 ∧ x.scale = 11 := by decide
  have hy : y.negative = false ∧ y.mantissa = 2 ^ 52 ∧ y.scale = 12 := by decide
  refine ⟨?_, ?_, by decide⟩
  · rw [Number.exact, hx.1, hx.2.1, hx.2.2]
    norm_num
  · rw [Number.exact, hy.1, hy.2.1, hy.2.2]
    norm_num

end ScriptEngine
