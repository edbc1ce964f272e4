import ChordScript.Proofs.Binary.Nearest

/-!
# Rounded results

Sums, products and quotients of unpacked numbers are computed with as many digits as there are, or
with two bits for what is left over, and then cut to the nearest binary number.
-/

namespace ChordScript.Binary

open Float.Model (Format UnpackedFloat totalExponent)
open Float.Model.Format (binary64)
open Float.Model.UnpackedFloat

/-- The bits after a mantissa tell where a number lies above it. -/
structure Keeps (em : ExtendedMantissa) (q : Rat) : Prop where
  lower : em.mantissa ≤ q
  upper : q < em.mantissa + 1
  round : em.roundBit = true ↔ em.mantissa + 1 / 2 ≤ q
  sticky : em.stickyBit = true ↔ q ≠ em.mantissa ∧ q ≠ em.mantissa + 1 / 2

namespace Keeps

variable {em : ExtendedMantissa} {q : Rat}

theorem inexact (h : Keeps em q) :
    (em.roundBit || em.stickyBit) = true ↔ q ≠ em.mantissa := by
  rw [Bool.or_eq_true, h.round, h.sticky]
  constructor
  · rintro (above | ⟨other, -⟩)
    · exact (lt_of_lt_of_le (by linarith) above).ne'
    · exact other
  · intro other
    rcases eq_or_ne q (em.mantissa + 1 / 2) with half | notHalf
    · exact .inl half.ge
    · exact .inr ⟨other, notHalf⟩

theorem shiftRightOne (h : Keeps em q) : Keeps em.shiftRightOne (q / 2) := by
  have inexact := h.inexact
  obtain ⟨lower, upper, -, -⟩ := h
  have parts : (em.mantissa : Rat) = 2 * (em.mantissa / 2 : Nat) + (em.mantissa % 2 : Nat) := by
    exact_mod_cast (Nat.div_add_mod em.mantissa 2).symm
  rw [parts] at lower upper inexact
  rcases Nat.mod_two_eq_zero_or_one em.mantissa with even | odd
  · rw [even, Nat.cast_zero, add_zero] at lower upper inexact
    refine ⟨?_, ?_, ?_, ?_⟩ <;> simp only [ExtendedMantissa.shiftRightOne]
    · linarith
    · linarith
    · simp only [even, bne_self_eq_false, Bool.false_eq_true, false_iff, not_le]
      linarith
    · rw [inexact]
      have other : q / 2 ≠ (em.mantissa / 2 : Nat) + 1 / 2 := by
        intro half
        linarith
      rw [and_iff_left other, ne_eq, ne_eq, div_eq_iff two_ne_zero, mul_comm]
  · rw [odd, Nat.cast_one] at lower upper inexact
    refine ⟨?_, ?_, ?_, ?_⟩ <;> simp only [ExtendedMantissa.shiftRightOne]
    · linarith
    · linarith
    · simp only [odd, Nat.reduceBNe, true_iff]
      linarith
    · rw [inexact]
      have other : q / 2 ≠ (em.mantissa / 2 : Nat) := by
        intro whole
        linarith
      rw [and_iff_right other, ne_eq, ne_eq, div_eq_iff two_ne_zero, add_mul, mul_comm,
        one_div_mul_cancel two_ne_zero]

theorem shiftRight (h : Keeps em q) (k : Nat) : Keeps (em >>> k) (q / 2 ^ k) := by
  change Keeps (k.repeat ExtendedMantissa.shiftRightOne em) _
  induction k with
  | zero => simpa [Nat.repeat] using h
  | succ k ih =>
    rw [pow_succ, ← div_div]
    exact ih.shiftRightOne

theorem roundedMantissa (h : Keeps em q) : (em.roundedMantissa : Int) = halfEven q := by
  obtain ⟨lower, upper, round, sticky⟩ := h
  rw [halfEven_eq (n := em.mantissa) lower upper]
  rw [Int.cast_natCast]
  obtain ⟨m, roundBit, stickyBit⟩ := em
  cases roundBit with
  | false =>
    have below : q < m + 1 / 2 := by simpa using round
    rw [if_pos below]
    cases stickyBit <;> rfl
  | true =>
    have le : m + 1 / 2 ≤ q := by simpa using round
    rw [if_neg le.not_gt]
    cases stickyBit with
    | true =>
      have other : q ≠ m + 1 / 2 := (sticky.1 rfl).2
      rw [if_pos (lt_of_le_of_ne le other.symm)]
      rfl
    | false =>
      have half : q = m + 1 / 2 := by
        by_contra other
        exact absurd (sticky.2 ⟨(lt_of_lt_of_le (by simp) le).ne', other⟩) (by simp)
      rw [if_neg (by simp [half])]
      rfl

end Keeps

theorem keeps_exact (m : Nat) : Keeps (.ofMantissaAndAccuracy m .exact) m := by
  constructor <;> simp [ExtendedMantissa.ofMantissaAndAccuracy]

theorem keeps_inexact (m : Nat) {f : Rat} (pos : 0 < f) (lt : f < 1) :
    Keeps (.ofMantissaAndAccuracy m (.inexact (compare f (1 / 2)))) (m + f) := by
  have lower : (m : Rat) ≤ m + f := by linarith
  have upper : (m : Rat) + f < m + 1 := by linarith
  rcases lt_trichotomy f (1 / 2) with below | half | above
  · rw [compare_lt_iff_lt.2 below]
    refine ⟨lower, upper, ?_, ?_⟩ <;> simp only [ExtendedMantissa.ofMantissaAndAccuracy]
    · simpa using below
    · simpa using ⟨pos.ne', by simpa using below.ne⟩
  · rw [compare_eq_iff_eq.2 half]
    refine ⟨lower, upper, ?_, ?_⟩ <;> simp only [ExtendedMantissa.ofMantissaAndAccuracy]
    · simpa using half.ge
    · simp [half]
  · rw [compare_gt_iff_gt.2 above]
    refine ⟨lower, upper, ?_, ?_⟩ <;> simp only [ExtendedMantissa.ofMantissaAndAccuracy]
    · simpa using above.le
    · simpa using ⟨pos.ne', by simpa using above.ne'⟩

theorem keeps_fraction (n : Nat) {d : Nat} (hd : 0 < d) :
    Keeps (.ofMantissaAndAccuracy (n / d) (accuracyOfFraction (n % d) d)) (n / d) := by
  have d_pos : (0 : Rat) < d := Nat.cast_pos.2 hd
  have parts : (n / d : Rat) = (n / d : Nat) + (n % d : Nat) / d := by
    have whole : (n : Rat) = (n / d : Nat) * d + (n % d : Nat) := by
      exact_mod_cast (Nat.div_add_mod' n d).symm
    conv_lhs => rw [whole, add_div, mul_div_cancel_right₀ _ d_pos.ne']
  rw [parts, accuracyOfFraction]
  split
  · rename_i none
    simpa only [none, Nat.cast_zero, zero_div, add_zero] using keeps_exact (n / d)
  · rename_i some
    have sides : compare (2 * (n % d)) d = compare ((n % d : Nat) / d : Rat) (1 / 2) := by
      rw [← cmp_eq_compare, ← cmp_eq_compare,
        ← cmp_mul_pos_right (mul_pos two_pos d_pos) ((n % d : Nat) / d : Rat),
        ← (Nat.strictMono_cast (α := Rat)).cmp_map_eq]
      congr 1
      · push_cast
        field_simp
      · field_simp
    rw [sides]
    refine keeps_inexact _ (div_pos ?_ d_pos) ((div_lt_one d_pos).2 ?_)
    · exact Nat.cast_pos.2 (Nat.pos_of_ne_zero some)
    · exact Nat.cast_lt.2 (Nat.mod_lt n hd)

/-- The one way to write a binary number as a mantissa and a place. -/
structure Canonical (m : Nat) (e : Int) : Prop where
  digits : m < 2 ^ 53
  place : -1074 ≤ e
  normal : e = -1074 ∨ 2 ^ 52 ≤ m

inductive Denotes : UnpackedFloat → Rat → Prop
  | zero : Denotes (.zero .positive) 0
  | finite {m : Nat} {e : Int} (pos : 0 < m) (canonical : Canonical m e) :
    Denotes (.finite .positive m e pos) (m * 2 ^ e)

theorem targetExponent_eq (t : Int) : binary64.targetExponent t = max (t - 53) (-1074) := rfl

theorem zpow_log2_le {m : Nat} (pos : 0 < m) (e : Int) : (2 : Rat) ^ (e + m.log2) ≤ m * 2 ^ e := by
  rw [← two_pow_mul]
  refine mul_le_mul_of_nonneg_right ?_ (zpow_pos two_pos e).le
  exact_mod_cast Nat.log2_self_le pos.ne'

theorem lt_zpow_log2 (m : Nat) (e : Int) :
    (m * 2 ^ e : Rat) < 2 ^ (e + (m.log2 + 1 : Nat)) := by
  rw [← two_pow_mul]
  refine mul_lt_mul_of_pos_right ?_ (zpow_pos two_pos e)
  exact_mod_cast Nat.lt_log2_self

theorem targetExponent_of_keeps {em : ExtendedMantissa} {q : Rat} {e : Int} (keeps : Keeps em q)
    (empty : em.mantissa = 0 → e ≤ lastPlace (q * 2 ^ e)) :
    binary64.targetExponent (totalExponent em.mantissa e) = lastPlace (q * 2 ^ e) := by
  have nonneg : 0 ≤ q * 2 ^ e :=
    mul_nonneg (em.mantissa.cast_nonneg.trans keeps.lower) (zpow_pos two_pos e).le
  rw [targetExponent_eq, totalExponent]
  apply le_antisymm
  · refine max_le ?_ (le_lastPlace _)
    rcases Nat.eq_zero_or_pos em.mantissa with zero | pos
    · have := empty zero
      rw [zero, Nat.log2_zero]
      omega
    · have lower : (2 : Rat) ^ (e + em.mantissa.log2) ≤ q * 2 ^ e :=
        (zpow_log2_le pos e).trans
          (mul_le_mul_of_nonneg_right keeps.lower (zpow_pos two_pos e).le)
      have place := lower.trans_lt (lt_zpow_lastPlace nonneg)
      rw [zpow_lt_zpow_iff_right₀ one_lt_two] at place
      omega
  · refine (lastPlace_le_iff nonneg).2 ⟨le_max_right _ _, ?_⟩
    have upper : q * 2 ^ e < 2 ^ (e + (em.mantissa.log2 + 1 : Nat)) := by
      rw [← two_pow_mul]
      refine mul_lt_mul_of_pos_right (keeps.upper.trans_le ?_) (zpow_pos two_pos e)
      exact_mod_cast Nat.lt_log2_self
    refine upper.trans_le ((zpow_le_zpow_iff_right₀ one_lt_two).2 ?_)
    omega

theorem canonical_shiftToTargetExponent {m : Nat} {e : Int} (digits : m ≤ 2 ^ 53)
    (place : -1074 ≤ e) (normal : e = -1074 ∨ 2 ^ 52 ≤ m) :
    Canonical (shiftToTargetExponent binary64 m e .exact).1.mantissa
        (shiftToTargetExponent binary64 m e .exact).2 ∧
      ((shiftToTargetExponent binary64 m e .exact).1.mantissa : Rat) *
        2 ^ (shiftToTargetExponent binary64 m e .exact).2 = m * 2 ^ e := by
  rcases digits.lt_or_eq with lt | rfl
  · have width : m.log2 ≤ 52 := by
      rcases Nat.eq_zero_or_pos m with rfl | pos
      · decide
      · exact Nat.le_of_lt_succ ((Nat.log2_lt pos.ne').2 lt)
    have stays : (binary64.targetExponent (totalExponent m e) - e).toNat = 0 := by
      rw [targetExponent_eq, totalExponent]
      omega
    have same : shiftToTargetExponent binary64 m e .exact = (⟨m, false, false⟩, e) := by
      simp only [shiftToTargetExponent, shiftToExponent, stays]
      exact Prod.ext rfl (add_zero e)
    rw [same]
    exact ⟨⟨lt, place, normal⟩, rfl⟩
  · have moves : (binary64.targetExponent (totalExponent (2 ^ 53) e) - e).toNat = 1 := by
      rw [targetExponent_eq, totalExponent, Nat.log2_two_pow]
      omega
    have next :
        shiftToTargetExponent binary64 (2 ^ 53) e .exact = (⟨2 ^ 52, false, false⟩, e + 1) := by
      simp only [shiftToTargetExponent, shiftToExponent, moves]
      rfl
    rw [next]
    refine ⟨⟨by norm_num, by omega, .inr le_rfl⟩, ?_⟩
    rw [zpow_add_one₀ two_ne_zero]
    push_cast
    ring

@[simp] theorem mantissa_ofMantissaAndAccuracy (m : Nat) (acc : Accuracy) :
    (ExtendedMantissa.ofMantissaAndAccuracy m acc).mantissa = m := by
  cases acc with
  | exact => rfl
  | inexact side => cases side <;> rfl

theorem denotes_of_canonical {m : Nat} {e : Int} (canonical : Canonical m e) :
    Denotes (if h : m = 0 then .zero .positive else .finite .positive m e (Nat.pos_of_ne_zero h))
      (m * 2 ^ e) := by
  by_cases none : m = 0
  · rw [dif_pos none, none, Nat.cast_zero, zero_mul]
    exact .zero
  · rw [dif_neg none]
    exact .finite _ canonical

theorem denotes_roundWithAccuracy {m : Nat} {e : Int} {acc : Accuracy} {q : Rat}
    (keeps : Keeps (.ofMantissaAndAccuracy m acc) q) (le : e ≤ lastPlace (q * 2 ^ e)) :
    Denotes (roundWithAccuracy binary64 .positive m e acc) (nearest (q * 2 ^ e)) := by
  have nonneg : 0 ≤ q * 2 ^ e :=
    mul_nonneg ((Nat.cast_nonneg _).trans keeps.lower) (zpow_pos two_pos e).le
  have target := targetExponent_of_keeps keeps fun _ => le
  rw [mantissa_ofMantissaAndAccuracy] at target
  obtain ⟨k, shift⟩ := Int.le.dest le
  let em := ExtendedMantissa.ofMantissaAndAccuracy m acc >>> k
  have first : shiftToTargetExponent binary64 m e acc = (em, lastPlace (q * 2 ^ e)) := by
    simp only [shiftToTargetExponent, shiftToExponent, target, ← shift, add_sub_cancel_left,
      Int.toNat_natCast, em]
  have scaled : q / 2 ^ k = q * 2 ^ e / unit (q * 2 ^ e) := by
    rw [unit, ← shift, ← two_pow_mul, mul_div_mul_right _ _ (zpow_pos two_pos e).ne']
  have rounded : (em.roundedMantissa : Int) = digits (q * 2 ^ e) := by
    rw [digits, ← scaled]
    exact (keeps.shiftRight k).roundedMantissa
  have most : em.roundedMantissa ≤ 2 ^ 53 := by
    have := digits_le nonneg
    omega
  have normal : lastPlace (q * 2 ^ e) = -1074 ∨ 2 ^ 52 ≤ em.roundedMantissa := by
    rcases (le_lastPlace (q * 2 ^ e)).eq_or_lt with least | normal
    · exact .inl least.symm
    · have := le_digits nonneg normal
      omega
  obtain ⟨canonical, same⟩ := canonical_shiftToTargetExponent most (le_lastPlace _) normal
  have value : nearest (q * 2 ^ e) = em.roundedMantissa * 2 ^ lastPlace (q * 2 ^ e) := by
    rw [nearest, ← rounded, Int.cast_natCast, unit]
  rw [value, ← same, roundWithAccuracy, first]
  exact denotes_of_canonical canonical

theorem decreaseExponent_snd (m : Nat) (e t : Int) : (decreaseExponent m e t).2 = min e t := by
  simp only [decreaseExponent]
  omega

theorem decreaseExponent_value (m : Nat) (e t : Int) :
    ((decreaseExponent m e t).1 : Rat) * 2 ^ min e t = m * 2 ^ e := by
  have place : min e t + (e - t).toNat = e := by omega
  simp only [decreaseExponent, Nat.shiftLeft_eq]
  rw [Nat.cast_mul, Nat.cast_pow, Nat.cast_two, mul_assoc, two_pow_mul, place]

theorem denotes_round {m : Nat} (pos : 0 < m) (e : Int) :
    Denotes (UnpackedFloat.round binary64 .positive m e) (nearest (m * 2 ^ e)) := by
  have target := targetExponent_of_keeps (e := e) (keeps_exact m) fun none => by
    rw [mantissa_ofMantissaAndAccuracy] at none
    omega
  rw [mantissa_ofMantissaAndAccuracy] at target
  have value := decreaseExponent_value m e (lastPlace (m * 2 ^ e))
  rw [← value]
  simp only [UnpackedFloat.round, target]
  rw [decreaseExponent_snd]
  refine denotes_roundWithAccuracy (keeps_exact _) ?_
  rw [value]
  exact min_le_right _ _

theorem denotes_normalize (m : Nat) (e : Int) :
    Denotes (UnpackedFloat.normalize binary64 m e .positive) (nearest (m * 2 ^ e)) := by
  rw [UnpackedFloat.normalize]
  rcases Nat.eq_zero_or_pos m with rfl | pos
  · simpa using Denotes.zero
  · have gt : compare (m : Int) 0 = .gt := compare_gt_iff_gt.2 (Int.natCast_pos.2 pos)
    rw [gt]
    exact denotes_round pos e

namespace Denotes

variable {u v : UnpackedFloat} {p q : Rat}

theorem nonneg (h : Denotes u q) : 0 ≤ q := by
  cases h with
  | zero => exact le_rfl
  | finite pos canonical => positivity

theorem nearest_eq (h : Denotes u q) : nearest q = q := by
  cases h with
  | zero => exact nearest_zero
  | finite pos canonical => exact nearest_mul_zpow canonical.digits.le canonical.place

theorem nearest_mul_two_pow (h : Denotes u q) (k : Nat) : nearest (q * 2 ^ k) = q * 2 ^ k := by
  cases h with
  | zero => simp
  | @finite m e pos canonical =>
    rw [mul_assoc, mul_comm (2 ^ e : Rat), two_pow_mul]
    exact nearest_mul_zpow canonical.digits.le (canonical.place.trans (by omega))

theorem add (hu : Denotes u p) (hv : Denotes v q) :
    Denotes (UnpackedFloat.add binary64 u v) (nearest (p + q)) := by
  cases hu with
  | zero =>
    rw [zero_add, hv.nearest_eq]
    cases hv with
    | zero => exact .zero
    | finite pos canonical => exact .finite pos canonical
  | @finite m e pos canonical =>
    cases hv with
    | zero =>
      rw [add_zero, nearest_mul_zpow canonical.digits.le canonical.place]
      exact .finite pos canonical
    | @finite n f _ _ =>
      have sum := add_mul ((decreaseExponent m e (min e f)).1 : Rat)
        (decreaseExponent n f (min e f)).1 (2 ^ min e f)
      have first := decreaseExponent_value m e (min e f)
      have second := decreaseExponent_value n f (min e f)
      rw [min_eq_right (min_le_left e f)] at first
      rw [min_eq_right (min_le_right e f)] at second
      rw [first, second] at sum
      rw [← sum, ← Nat.cast_add]
      exact denotes_normalize _ _

theorem mul (hu : Denotes u p) (hv : Denotes v q) :
    Denotes (UnpackedFloat.mul binary64 u v) (nearest (p * q)) := by
  cases hu with
  | zero =>
    rw [zero_mul, nearest_zero]
    cases hv with
    | zero => exact .zero
    | finite pos canonical => exact .zero
  | @finite m e m_pos hm =>
    cases hv with
    | zero =>
      rw [mul_zero, nearest_zero]
      exact .zero
    | @finite n f n_pos hn =>
      have product : (m * 2 ^ e * (n * 2 ^ f) : Rat) = (m * n : Nat) * 2 ^ (e + f) := by
        rw [zpow_add₀ two_ne_zero, Nat.cast_mul]
        ring
      rw [product]
      refine denotes_roundWithAccuracy (keeps_exact _) ?_
      -- Either both places are lowest, or the product has many digits.
      by_contra below
      rw [not_le, ← Int.le_sub_one_iff, lastPlace_le_iff (by positivity)] at below
      obtain ⟨place, small⟩ := below
      have few : m * n < 2 ^ 52 := by
        rw [show e + f - 1 + 53 = e + f + (52 : Nat) by push_cast; ring, ← two_pow_mul,
          mul_lt_mul_iff_of_pos_right (zpow_pos two_pos (e + f))] at small
        exact_mod_cast small
      have := Nat.le_mul_of_pos_right m n_pos
      have := Nat.le_mul_of_pos_left n m_pos
      have := hm.normal
      have := hn.normal
      omega

theorem div (hu : Denotes u p) (hv : Denotes v q) (hq : q ≠ 0) :
    Denotes (UnpackedFloat.div binary64 u v) (nearest (p / q)) := by
  cases hv with
  | zero => exact absurd rfl hq
  | @finite n f n_pos hn =>
    cases hu with
    | zero =>
      rw [zero_div, nearest_zero]
      exact .zero
    | @finite m e m_pos hm =>
      have quotient_nonneg : (0 : Rat) ≤ m * 2 ^ e / (n * 2 ^ f) := by positivity
      have place : totalExponent m e - totalExponent n f - 53 ≤
          lastPlace (m * 2 ^ e / (n * 2 ^ f)) := by
        have lt := lt_zpow_lastPlace quotient_nonneg
        rw [div_lt_iff₀ (by positivity)] at lt
        have between := ((zpow_log2_le m_pos e).trans_lt lt).trans
          (mul_lt_mul_of_pos_left (lt_zpow_log2 n f) (zpow_pos two_pos _))
        rw [two_zpow_mul, zpow_lt_zpow_iff_right₀ one_lt_two] at between
        simp only [totalExponent]
        omega
      change Denotes
        (let (d, t, acc) := divCore binary64 m e n f; roundWithAccuracy binary64 .positive d t acc) _
      simp only [divCore, targetExponent_eq]
      generalize cut : min (e - f) (max _ _) = t
      have le : t ≤ e - f := cut ▸ min_le_left _ _
      generalize shift : (e - f - t).toNat = k
      have quotient : (m * 2 ^ e / (n * 2 ^ f) : Rat) = (m <<< k : Nat) / n * 2 ^ t := by
        have places : t + k = e - f := by omega
        rw [Nat.shiftLeft_eq, Nat.cast_mul, Nat.cast_pow, Nat.cast_two, div_mul_eq_mul_div,
          mul_assoc, two_pow_mul, places, zpow_sub₀ two_ne_zero, mul_div_assoc', div_div,
          mul_comm (2 ^ f : Rat)]
      have least := le_lastPlace (m * 2 ^ e / (n * 2 ^ f))
      rw [quotient] at place least ⊢
      refine denotes_roundWithAccuracy (keeps_fraction _ n_pos) ?_
      omega

end Denotes

end ChordScript.Binary
