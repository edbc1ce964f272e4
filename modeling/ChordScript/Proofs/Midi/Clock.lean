import ChordScript.Midi.Clock
import ChordScript.Proofs.Binary.Value
import ChordScript.Proofs.Decimal.Dyadic
import ChordScript.Proofs.Decimal.Shortest

namespace ChordScript

open Binary

namespace Decimal.Ratio

variable {r : Ratio} (h : 0 < r.denominator) {n : Nat}

include h

theorem le_floor_iff : n ≤ r.floor ↔ (n : Rat) ≤ r.value := by
  rw [floor, Nat.le_div_iff_mul_le h, value, le_div_iff₀ (Nat.cast_pos.2 h)]
  norm_cast

theorem compareHalf_eq_lt_iff : r.compareHalf n = .lt ↔ r.value < n + 1 / 2 := by
  rw [compareHalf, Nat.compare_eq_lt, value, div_lt_iff₀ (Nat.cast_pos.2 h)]
  rw [← Nat.cast_lt (α := Rat)]
  push_cast
  constructor <;> intro lt <;> linarith

theorem compareHalf_eq_gt_iff : r.compareHalf n = .gt ↔ n + 1 / 2 < r.value := by
  rw [compareHalf, Nat.compare_eq_gt, value, lt_div_iff₀ (Nat.cast_pos.2 h)]
  rw [← Nat.cast_lt (α := Rat)]
  push_cast
  constructor <;> intro lt <;> linarith

theorem round_even : (r.round .even : Int) = halfEven r.value := by
  have nearest := halfEven_eq (n := (r.floor : Int)) (by exact_mod_cast floor_le h)
    (by exact_mod_cast lt_floor_add_one h)
  rw [nearest]
  cases half : r.compareHalf r.floor with
  | lt =>
    have below := (compareHalf_eq_lt_iff h).1 half
    rw [if_pos (by exact_mod_cast below)]
    simp only [round, half]
  | gt =>
    have above := (compareHalf_eq_gt_iff h).1 half
    rw [if_neg (by exact_mod_cast above.not_gt), if_pos (by exact_mod_cast above)]
    simp only [round, half]
    rfl
  | eq =>
    have below : ¬ r.value < r.floor + 1 / 2 := by
      rw [← compareHalf_eq_lt_iff h, half]
      decide
    have above : ¬ r.floor + 1 / 2 < r.value := by
      rw [← compareHalf_eq_gt_iff h, half]
      decide
    rw [if_neg (by exact_mod_cast below), if_neg (by exact_mod_cast above)]
    simp only [round, half]
    split <;> omega

end Decimal.Ratio

/-- A number of seconds for which there is a span of time: no span is negative, and whole seconds are
counted in 64 bits. -/
structure Waitable (x : Float) : Prop where
  finite : x.isFinite = true
  nonneg : 0 ≤ value x
  counted : value x < 2 ^ 64

namespace Midi

open Decimal (Dyadic Ratio)
open Float.Model (UnpackedFloat)

variable {x : Float} {n : Nat}

theorem ite_span_eq_some_iff (negative : Bool) (m : Nat) (e : Int) :
    (if (negative && m != 0) || Nat.pow 2 64 ≤ (Ratio.scaled m 2 e).floor then none
      else some (((Ratio.scaled m 2 e).times 10 9).round .even)) = some n ↔
      (negative = true → m = 0) ∧ (m * 2 ^ e : Rat) < 2 ^ 64 ∧
        halfEven (m * 2 ^ e * 10 ^ 9) = n := by
  have proper : 0 < (Ratio.scaled m 2 e).denominator := Ratio.denominator_scaled_pos two_pos m e
  have value : (Ratio.scaled m 2 e).value = m * 2 ^ e := Ratio.value_scaled two_pos m e
  have long : Nat.pow 2 64 ≤ (Ratio.scaled m 2 e).floor ↔ ¬ (m * 2 ^ e : Rat) < 2 ^ 64 := by
    rw [Ratio.le_floor_iff proper, value, not_lt]
    norm_num
  have rounded : ((((Ratio.scaled m 2 e).times 10 9).round .even : Nat) : Int) =
      halfEven (m * 2 ^ e * 10 ^ 9) := by
    rw [Ratio.round_even (Ratio.denominator_times_pos (by decide) 9 proper),
      Ratio.value_times (by decide), value]
    norm_num
  rw [← rounded, Nat.cast_inj]
  cases negative <;> simp [long, and_assoc]

theorem waitable_iff (finite : x.isFinite = true) :
    Waitable x ↔ 0 ≤ value x ∧ value x < 2 ^ 64 :=
  ⟨fun ⟨_, nonneg, counted⟩ => ⟨nonneg, counted⟩,
    fun ⟨nonneg, counted⟩ => ⟨finite, nonneg, counted⟩⟩

theorem span?_eq_some_iff : span? x = some n ↔ Waitable x ∧ halfEven (value x * 10 ^ 9) = n := by
  rw [span?, Dyadic.ofFloat_eq]
  cases unpacked : x.toModel.unpack with
  | notANumber | infinity s =>
    have infinite : x.isFinite = false := congrArg UnpackedFloat.isFinite unpacked
    refine iff_of_false nofun fun ⟨waitable, _⟩ => ?_
    rw [waitable.finite] at infinite
    cases infinite
  | zero s =>
    have finite : x.isFinite = true := congrArg UnpackedFloat.isFinite unpacked
    have zero : value x = 0 := by rw [value, unpacked]
    refine (ite_span_eq_some_iff (Dyadic.isNegative s) 0 Dyadic.leastExponent).trans ?_
    rw [waitable_iff finite, zero]
    simp
  | finite s m e pos =>
    have finite : x.isFinite = true := congrArg UnpackedFloat.isFinite unpacked
    have size : (0 : Rat) < m * 2 ^ e := mul_pos (Nat.cast_pos.2 pos) (zpow_pos two_pos e)
    refine (ite_span_eq_some_iff (Dyadic.isNegative s) m e).trans ?_
    cases s with
    | positive =>
      rw [waitable_iff finite, value_of_positive unpacked]
      simp [Dyadic.isNegative, size.le]
    | negative =>
      rw [waitable_iff finite, value_of_negative unpacked]
      simp [Dyadic.isNegative, pos.ne', size.not_ge]

theorem exists_span?_iff : (∃ n, span? x = some n) ↔ Waitable x := by
  simp only [span?_eq_some_iff, exists_and_left]
  refine and_iff_left_of_imp fun waitable => ?_
  have below : ((0 : Int) : Rat) ≤ value x * 10 ^ 9 := by
    rw [Int.cast_zero]
    exact mul_nonneg waitable.nonneg (by norm_num)
  exact ⟨_, (Int.toNat_of_nonneg (le_halfEven below)).symm⟩

namespace Clock

variable {c : Clock} {instant later : Nat}

theorem after?_eq_some_iff : c.after? instant x = some later ↔
    Waitable x ∧ (later : Int) = instant + halfEven (value x * 10 ^ 9) ∧ later ≤ c.last := by
  rw [after?, Option.bind_eq_some_iff]
  simp only [span?_eq_some_iff]
  constructor
  · rintro ⟨n, ⟨waitable, nearest⟩, told⟩
    split at told
    · rename_i before
      cases told
      exact ⟨waitable, by rw [nearest]; push_cast; rfl, before⟩
    · cases told
  · rintro ⟨waitable, sum, before⟩
    obtain ⟨n, span⟩ := exists_span?_iff.2 waitable
    obtain ⟨-, nearest⟩ := span?_eq_some_iff.1 span
    have total : instant + n = later := by omega
    exact ⟨n, ⟨waitable, nearest⟩, by rw [total, if_pos before]⟩

theorem after?_ne_none_iff : c.after? instant x ≠ none ↔
    Waitable x ∧ instant + halfEven (value x * 10 ^ 9) ≤ c.last := by
  simp only [Option.ne_none_iff_exists', after?_eq_some_iff, exists_and_left]
  refine and_congr_right fun waitable => ⟨?_, fun before => ?_⟩
  · rintro ⟨later, sum, before⟩
    omega
  · obtain ⟨n, span⟩ := exists_span?_iff.2 waitable
    obtain ⟨-, nearest⟩ := span?_eq_some_iff.1 span
    exact ⟨instant + n, by omega, by omega⟩

end Clock

end Midi

end ChordScript
