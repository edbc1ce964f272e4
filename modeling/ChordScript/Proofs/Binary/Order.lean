import ChordScript.Seconds
import Mathlib.Algebra.Order.Ring.Int
import Mathlib.Data.Prod.Lex

namespace ChordScript

open Float.Model (UnpackedFloat)
open Float.Model.UnpackedFloat (Sign)

namespace Binary

/-- Where a number stands: by its sign, then by its exponent, then by its mantissa. -/
def rank : UnpackedFloat → Int ×ₗ Int ×ₗ Int
  | .infinity .negative => toLex (-2, toLex (0, 0))
  | .finite .negative m e _ => toLex (-1, toLex (-e, -m))
  | .zero _ | .notANumber => toLex (0, toLex (0, 0))
  | .finite .positive m e _ => toLex (1, toLex (e, m))
  | .infinity .positive => toLex (2, toLex (0, 0))

theorem rank_infinity : rank (.infinity .positive) = toLex (2, toLex (0, 0)) := rfl

theorem rank_zero (s : Sign) : rank (.zero s) = toLex (0, toLex (0, 0)) := rfl

section

variable {m : Nat} {d : Int} {pos : 0 < m}

theorem rank_positive : rank (.finite .positive m d pos) = toLex (1, toLex (d, (m : Int))) := rfl

theorem rank_negative : rank (.finite .negative m d pos) = toLex (-1, toLex (-d, -(m : Int))) := rfl

end

theorem compare_neg (a b : Int) : compare (-a) (-b) = (compare a b).swap := by
  rcases lt_trichotomy a b with less | rfl | greater
  · rw [compare_lt_iff_lt.2 less, compare_gt_iff_gt.2 (neg_lt_neg less)]
    rfl
  · simp
  · rw [compare_gt_iff_gt.2 greater, compare_lt_iff_lt.2 (neg_lt_neg greater)]
    rfl

theorem compare_natCast (m n : Nat) : compare (m : Int) (n : Int) = compare m n := by
  rcases lt_trichotomy m n with less | rfl | greater
  · rw [compare_lt_iff_lt.2 less, compare_lt_iff_lt.2 (Int.ofNat_lt.2 less)]
  · simp
  · rw [compare_gt_iff_gt.2 greater, compare_gt_iff_gt.2 (Int.ofNat_lt.2 greater)]

theorem compare_eq_rank {a b : UnpackedFloat} (ha : a.isNaN = false) (hb : b.isNaN = false) :
    a.compare b = some (compare (rank a) (rank b)) := by
  have same_sign (k d e m n : Int) :
      compare (toLex (k, toLex (d, m))) (toLex (k, toLex (e, n))) =
        (compare d e).then (compare m n) := by
    change (compare k k).then ((compare d e).then (compare m n)) = _
    rw [compare_eq_iff_eq.2 rfl]
    rfl
  cases a with
  | notANumber => cases ha
  | infinity s =>
    cases b with
    | notANumber => cases hb
    | infinity t => cases s <;> cases t <;> rfl
    | zero t => cases s <;> rfl
    | finite t => cases s <;> cases t <;> rfl
  | zero s =>
    cases b with
    | notANumber => cases hb
    | infinity t => cases t <;> rfl
    | zero t => rfl
    | finite t => cases t <;> rfl
  | finite s m d =>
    cases b with
    | notANumber => cases hb
    | infinity t => cases s <;> cases t <;> rfl
    | zero t => cases s <;> rfl
    | finite t n e =>
      cases s <;> cases t
      · rw [rank_negative, rank_negative, same_sign, compare_neg, compare_neg, compare_natCast,
          ← Ordering.swap_then]
        rfl
      · rfl
      · rfl
      · rw [rank_positive, rank_positive, same_sign, compare_natCast]
        rfl

section

variable {x y : Float} (hx : x.isNaN = false) (hy : y.isNaN = false)

include hx hy

theorem lt_iff : x < y ↔ rank x.toModel.unpack < rank y.toModel.unpack := by
  refine (decide_eq_true_iff (p := x.toModel < y.toModel)).trans ?_
  change (x.toModel.unpack.compare y.toModel.unpack == some .lt) = true ↔ _
  rw [beq_iff_eq, compare_eq_rank hx hy, Option.some_inj, compare_lt_iff_lt]

theorem le_iff : x ≤ y ↔ rank x.toModel.unpack ≤ rank y.toModel.unpack := by
  refine (decide_eq_true_iff (p := x.toModel ≤ y.toModel)).trans ?_
  change (x.toModel.unpack.compare y.toModel.unpack).any (·.isLE) = true ↔ _
  rw [compare_eq_rank hx hy, Option.any_some, ← compare_le_iff_le, Ordering.isLE_iff_ne_gt]

theorem beq_iff : (x == y) = true ↔ rank x.toModel.unpack = rank y.toModel.unpack := by
  change (x.toModel.unpack.compare y.toModel.unpack == some .eq) = true ↔ _
  rw [beq_iff_eq, compare_eq_rank hx hy, Option.some_inj, compare_eq_iff_eq]

end

theorem isNaN_of_beq {x y : Float} (same : (x == y) = true) :
    x.isNaN = false ∧ y.isNaN = false := by
  change (x.toModel.unpack.compare y.toModel.unpack == some .eq) = true at same
  change x.toModel.unpack.isNaN = false ∧ y.toModel.unpack.isNaN = false
  generalize x.toModel.unpack = a at same ⊢
  generalize y.toModel.unpack = b at same ⊢
  cases a with
  | notANumber => cases same
  | infinity | zero | finite =>
    cases b with
    | notANumber => cases same
    | infinity | zero | finite => exact ⟨rfl, rfl⟩

theorem beq_of_beq {x y z : Float} (hx : (x == z) = true) (hy : (y == z) = true) :
    (x == y) = true := by
  obtain ⟨x_number, z_number⟩ := isNaN_of_beq hx
  obtain ⟨y_number, -⟩ := isNaN_of_beq hy
  rw [beq_iff x_number z_number] at hx
  rw [beq_iff y_number z_number] at hy
  rw [beq_iff x_number y_number, hx, hy]

theorem lt_of_lt_of_not_lt {x y z : Float} (hx : x.isNaN = false) (hy : y.isNaN = false)
    (hz : z.isNaN = false) (lt : x < y) (past : ¬ z < y) : x < z := by
  rw [lt_iff hx hy] at lt
  rw [lt_iff hz hy, not_lt] at past
  exact (lt_iff hx hz).2 (lt.trans_le past)

end Binary

@[simp] theorem Seconds.lt_float (x y : Float) : Seconds.lt x y = decide (x < y) := rfl

@[simp] theorem Seconds.isNaN_float (x : Float) : Seconds.isNaN x = x.isNaN := rfl

theorem Seconds.lt_eq_true_iff {x y : Float} (hx : isNaN x = false) (hy : isNaN y = false) :
    lt x y = true ↔ Binary.rank x.toModel.unpack < Binary.rank y.toModel.unpack := by
  rw [lt_float, decide_eq_true_eq, Binary.lt_iff hx hy]

end ChordScript
