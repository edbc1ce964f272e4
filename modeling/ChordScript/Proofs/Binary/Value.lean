import ChordScript.Proofs.Binary.Order
import ChordScript.Proofs.Binary.Rounding

/-!
# The values of binary numbers

A finite number that is not negative holds an exact value. Sums, products and quotients hold what is
nearest to the exact result, unless it is too large, and comparing numbers compares their values.
-/

namespace ChordScript.Binary

open Float.Model (Format UnpackedFloat)
open Float.Model.Format (binary64)
open Float.Model.UnpackedFloat

def value (x : Float) : Rat :=
  match x.toModel.unpack with
  | .finite .positive m e _ => m * 2 ^ e
  | .finite .negative m e _ => -(m * 2 ^ e)
  | _ => 0

section

variable {x : Float} {m : Nat} {e : Int} {pos : 0 < m}

theorem value_of_positive (h : x.toModel.unpack = .finite .positive m e pos) :
    value x = m * 2 ^ e := by
  rw [value, h]

theorem value_of_negative (h : x.toModel.unpack = .finite .negative m e pos) :
    value x = -(m * 2 ^ e) := by
  rw [value, h]

end

def Holds (x : Float) (q : Rat) : Prop := Denotes x.toModel.unpack q

theorem unpackSign_packComponents {spec : Format} (s e m) :
    unpackSign (packComponents spec s e m) = s.toBitVec := by
  ext i hi
  obtain rfl : i = 0 := by omega
  unfold unpackSign
  simp +arith [packComponents, BitVec.getElem_append]

theorem toNat_implicit (v : BitVec 52) : (1#1 ++ v).toNat = 2 ^ 52 + v.toNat := by
  rw [BitVec.toNat_append, ← Nat.shiftLeft_add_eq_or_of_lt v.isLt]
  rfl

theorem two_pow_le_toNat_implicit (v : BitVec 52) : 2 ^ 52 ≤ (1#1 ++ v).toNat := by
  rw [toNat_implicit]
  exact Nat.le_add_right _ _

theorem toNat_implicit_ofNat {m : Nat} (lo : 2 ^ 52 ≤ m) (hi : m < 2 ^ 53) :
    (1#1 ++ BitVec.ofNat 52 m).toNat = m := by
  rw [toNat_implicit, BitVec.toNat_ofNat]
  omega

section

variable {b : BitVec 64}

theorem unpack_of_last (last : @unpackExponent binary64 b = -1#11) :
    unpack binary64 b = if @unpackMantissa binary64 b = 0#52 then
      .infinity (.ofBitVec (@unpackSign binary64 b)) else .notANumber :=
  if_pos last

variable (not_last : @unpackExponent binary64 b ≠ -1#11)

include not_last

theorem unpack_of_first (first : @unpackExponent binary64 b = 0#11) :
    unpack binary64 b = if h : @unpackMantissa binary64 b = 0#52 then
        .zero (.ofBitVec (@unpackSign binary64 b))
      else .finite (.ofBitVec (@unpackSign binary64 b)) (@unpackMantissa binary64 b).toNat (-1074)
        (Nat.pos_of_ne_zero fun zero => h (BitVec.eq_of_toNat_eq zero)) := by
  refine (if_neg not_last).trans ((if_pos first).trans ?_)
  by_cases h : @unpackMantissa binary64 b = 0#52
  · rw [dif_pos h, dif_pos h]
  · rw [dif_neg h, dif_neg h, first]
    rfl

theorem unpack_of_later (not_first : @unpackExponent binary64 b ≠ 0#11) :
    unpack binary64 b = .finite (.ofBitVec (@unpackSign binary64 b))
      (1#1 ++ @unpackMantissa binary64 b).toNat ((@unpackExponent binary64 b).toNat - 1075)
      ((Nat.two_pow_pos 52).trans_le (two_pow_le_toNat_implicit _)) :=
  (if_neg not_last).trans (if_neg not_first)

end

section

variable {m : Nat} (pos : 0 < m)

theorem unpack_long {k : Nat} (hk : k < 2046) (lo : 2 ^ 52 ≤ m) (hi : m < 2 ^ 53) :
    unpack binary64 (packComponents binary64 .positive (.ofNat 11 (k + 1)) (.ofNat 52 m)) =
      .finite .positive m (-1074 + k) pos := by
  have exponent : (BitVec.ofNat 11 (k + 1)).toNat = k + 1 := by
    rw [BitVec.toNat_ofNat, Nat.mod_eq_of_lt (by omega)]
  have not_last : BitVec.ofNat 11 (k + 1) ≠ -1#11 := by
    rw [ne_eq, ← BitVec.toNat_inj, exponent, show (-1#11).toNat = 2047 from rfl]
    omega
  have not_first : BitVec.ofNat 11 (k + 1) ≠ 0#11 := by
    rw [ne_eq, ← BitVec.toNat_inj, exponent]
    exact Nat.succ_ne_zero k
  have given := @unpackExponent_packComponents binary64 .positive (.ofNat 11 (k + 1)) (.ofNat 52 m)
  rw [← given] at not_last not_first
  rw [unpack_of_later not_last not_first, finite.injEq, unpackExponent_packComponents,
    unpackMantissa_packComponents, unpackSign_packComponents, toNat_implicit_ofNat lo hi, exponent]
  refine ⟨rfl, rfl, ?_⟩
  omega

theorem unpack_short (hi : m < 2 ^ 52) :
    unpack binary64 (packComponents binary64 .positive 0#11 (.ofNat 52 m)) =
      .finite .positive m (-1074) pos := by
  have mantissa : (BitVec.ofNat 52 m).toNat = m := by
    rw [BitVec.toNat_ofNat, Nat.mod_eq_of_lt hi]
  have not_zero : BitVec.ofNat 52 m ≠ 0#52 := by
    rw [ne_eq, ← BitVec.toNat_inj, mantissa]
    exact pos.ne'
  have first := @unpackExponent_packComponents binary64 .positive 0#11 (.ofNat 52 m)
  have not_last : 0#11 ≠ -1#11 := by decide
  rw [← @unpackMantissa_packComponents binary64 .positive 0#11 (.ofNat 52 m)] at not_zero
  rw [← first] at not_last
  rw [unpack_of_first not_last first, dif_neg not_zero, finite.injEq,
    unpackMantissa_packComponents, unpackSign_packComponents, mantissa]
  exact ⟨rfl, rfl, rfl⟩

end

theorem pack_finite {s : Sign} {m : Nat} {e : Int} {pos : 0 < m} :
    pack binary64 (.finite s m e pos) =
      if 2 ^ 11 ≤ (e + 1023 + 52).toNat + 1 then packedInfinity binary64 s
      else if m.log2 + 1 = 53 then
        packComponents binary64 s (.ofNat 11 (e + 1023 + 52).toNat) (.ofNat 52 m)
      else packComponents binary64 s 0#11 (.ofNat 52 m) := rfl

theorem unpack_pack {u : UnpackedFloat} {q : Rat} (h : Denotes u q) (small : q < 2 ^ (1024 : Int)) :
    unpack binary64 (pack binary64 u) = u := by
  cases h with
  | zero => rfl
  | @finite m e pos canonical =>
    obtain ⟨digits, place, normal⟩ := canonical
    obtain ⟨k, rfl⟩ := Int.le.dest place
    have top : k < 2046 := by
      have lt := (zpow_log2_le pos _).trans_lt small
      rw [zpow_lt_zpow_iff_right₀ one_lt_two] at lt
      have long : 52 ≤ m.log2 ∨ k = 0 := by
        refine normal.symm.imp (fun large => (Nat.le_log2 pos.ne').2 large) fun least => ?_
        omega
      omega
    have biased : (-1074 + k + 1023 + 52 : Int).toNat = k + 1 := by omega
    rw [pack_finite, biased, if_neg (by omega)]
    by_cases width : m.log2 = 52
    · rw [if_pos (congrArg (· + 1) width)]
      exact unpack_long pos top ((Nat.le_log2 pos.ne').1 width.ge) digits
    · rw [if_neg fun full => width (Nat.succ_injective full)]
      have short : m < 2 ^ 52 := by
        have few := (Nat.log2_lt pos.ne').2 digits
        exact (Nat.log2_lt pos.ne').1 (by omega)
      obtain rfl : k = 0 := by omega
      exact unpack_short pos short

theorem unpack_pack_of_large {u : UnpackedFloat} {q : Rat} (h : Denotes u q)
    (large : 2 ^ (1024 : Int) ≤ q) : unpack binary64 (pack binary64 u) = .infinity .positive := by
  cases h with
  | zero => exact absurd large (by norm_num)
  | @finite m e pos canonical =>
    have place := large.trans_lt (lt_zpow_log2 m e)
    rw [zpow_lt_zpow_iff_right₀ one_lt_two] at place
    have width := (Nat.log2_lt pos.ne').2 canonical.digits
    have top : 2 ^ 11 ≤ (e + 1023 + 52).toNat + 1 := by omega
    rw [pack_finite, if_pos top]
    rfl

theorem canonical_unpack {b : BitVec 64} {s : Sign} {m : Nat} {e : Int} {pos : 0 < m}
    (h : unpack binary64 b = .finite s m e pos) : Canonical m e := by
  by_cases last : @unpackExponent binary64 b = -1#11
  · rw [unpack_of_last last] at h
    by_cases whole : @unpackMantissa binary64 b = 0#52
    · rw [if_pos whole] at h
      cases h
    · rw [if_neg whole] at h
      cases h
  by_cases first : @unpackExponent binary64 b = 0#11
  · rw [unpack_of_first last first] at h
    by_cases zero : @unpackMantissa binary64 b = 0#52
    · rw [dif_pos zero] at h
      cases h
    · rw [dif_neg zero] at h
      cases h
      exact ⟨(BitVec.isLt _).trans (by decide), le_rfl, .inl rfl⟩
  · rw [unpack_of_later last first] at h
    cases h
    have later : 0 < (@unpackExponent binary64 b).toNat :=
      Nat.pos_of_ne_zero fun zero => first (BitVec.eq_of_toNat_eq zero)
    exact ⟨BitVec.isLt _, by omega, .inr (two_pow_le_toNat_implicit _)⟩

theorem Canonical.lt_of_place_lt {m n : Nat} {e f : Int} (hm : Canonical m e) (hn : Canonical n f)
    (lt : e < f) : (m * 2 ^ e : Rat) < n * 2 ^ f := by
  have long : 2 ^ 52 ≤ n := hn.normal.resolve_left (hm.place.trans_lt lt).ne'
  calc (m * 2 ^ e : Rat)
      < 2 ^ 53 * 2 ^ e := mul_lt_mul_of_pos_right (mod_cast hm.digits) (zpow_pos two_pos e)
    _ ≤ 2 ^ 52 * 2 ^ f := by
      rw [two_pow_mul, two_pow_mul, zpow_le_zpow_iff_right₀ one_lt_two]
      omega
    _ ≤ n * 2 ^ f := mul_le_mul_of_nonneg_right (mod_cast long) (zpow_pos two_pos f).le

theorem Canonical.lt_iff {m n : Nat} {e f : Int} (hm : Canonical m e) (hn : Canonical n f) :
    (m * 2 ^ e : Rat) < n * 2 ^ f ↔ e < f ∨ e = f ∧ m < n := by
  rcases lt_trichotomy e f with lt | rfl | gt
  · exact iff_of_true (hm.lt_of_place_lt hn lt) (.inl lt)
  · simp [zpow_pos]
  · refine iff_of_false (hn.lt_of_place_lt hm gt).not_gt ?_
    rintro (lt | ⟨same, -⟩)
    · exact lt_asymm lt gt
    · exact gt.ne' same

theorem Canonical.eq_of_value_eq {m n : Nat} {e f : Int} (hm : Canonical m e) (hn : Canonical n f)
    (same : (m * 2 ^ e : Rat) = n * 2 ^ f) : m = n ∧ e = f := by
  have below := mt (hm.lt_iff hn).2 same.not_lt
  have above := mt (hn.lt_iff hm).2 same.not_gt
  omega

theorem Denotes.rank_lt_iff {u v : UnpackedFloat} {p q : Rat} (hu : Denotes u p)
    (hv : Denotes v q) : rank u < rank v ↔ p < q := by
  cases hu with
  | zero =>
    cases hv with
    | zero => simp
    | finite pos canonical =>
      rw [rank_zero, rank_positive]
      simp [Prod.Lex.toLex_lt_toLex, pos, zpow_pos]
  | @finite m e pos hm =>
    cases hv with
    | zero =>
      have nonneg : (0 : Rat) ≤ m * 2 ^ e := by positivity
      rw [rank_zero, rank_positive]
      simp [Prod.Lex.toLex_lt_toLex, nonneg.not_gt]
    | finite _ hn =>
      rw [rank_positive, rank_positive]
      simp [Prod.Lex.toLex_lt_toLex, hm.lt_iff hn]

namespace Holds

variable {x y : Float} {p q : Rat}

theorem value_eq (h : Holds x q) : value x = q := by
  rw [Holds] at h
  rw [value]
  generalize x.toModel.unpack = u at h
  cases h <;> rfl

theorem isNaN (h : Holds x q) : x.isNaN = false := by
  change x.toModel.unpack.isNaN = false
  rw [Holds] at h
  generalize x.toModel.unpack = u at h
  cases h <;> rfl

theorem isFinite (h : Holds x q) : x.isFinite = true := by
  change x.toModel.unpack.isFinite = true
  rw [Holds] at h
  generalize x.toModel.unpack = u at h
  cases h <;> rfl

theorem nonneg (h : Holds x q) : 0 ≤ q := Denotes.nonneg h

theorem nearest_eq (h : Holds x q) : nearest q = q := Denotes.nearest_eq h

theorem lt_iff (hx : Holds x p) (hy : Holds y q) : x < y ↔ p < q :=
  (Binary.lt_iff hx.isNaN hy.isNaN).trans (Denotes.rank_lt_iff hx hy)

end Holds

theorem Denotes.holds_pack {u : UnpackedFloat} {q : Rat} (h : Denotes u q)
    (small : q < 2 ^ (1024 : Int)) : Holds ⟨.pack u⟩ q := by
  have same : (Float.Model.pack u).unpack = u := unpack_pack h small
  rw [Holds]
  rwa [same]

namespace Holds

variable {x y : Float} {p q : Rat}

theorem add (hx : Holds x p) (hy : Holds y q) (small : nearest (p + q) < 2 ^ (1024 : Int)) :
    Holds (x + y) (nearest (p + q)) :=
  (Denotes.add hx hy).holds_pack small

theorem mul (hx : Holds x p) (hy : Holds y q) (small : nearest (p * q) < 2 ^ (1024 : Int)) :
    Holds (x * y) (nearest (p * q)) :=
  (Denotes.mul hx hy).holds_pack small

theorem div (hx : Holds x p) (hy : Holds y q) (hq : q ≠ 0)
    (small : nearest (p / q) < 2 ^ (1024 : Int)) : Holds (x / y) (nearest (p / q)) :=
  (Denotes.div hx hy hq).holds_pack small

end Holds

theorem holds_one : Holds (Float.ofBits 0x3FF0000000000000) 1 := by
  have normal : Canonical (2 ^ 52) (-52) := ⟨by norm_num, by norm_num, .inr le_rfl⟩
  have denotes := Denotes.finite (by norm_num) normal
  have one : (((2 ^ 52 : Nat) : Rat) * 2 ^ (-52 : Int)) = 1 := by norm_num
  rwa [one] at denotes

theorem holds_ofNat {n : Nat} (h : n < 2 ^ 53) : Holds (Float.ofNat n) n := by
  have whole : nearest n = n := nearest_natCast h.le
  have small : (n : Rat) < 2 ^ (1024 : Int) := by
    have digits : (n : Rat) < 2 ^ (53 : Int) := by exact_mod_cast h
    exact digits.trans (zpow_lt_zpow_right₀ one_lt_two (by norm_num))
  have cast : Holds n.toUInt64.toFloat n := by
    have bits : n.toUInt64.toNat = n := Nat.mod_eq_of_lt (h.trans (by norm_num))
    have value : nearest (n.toUInt64.toNat * 2 ^ (0 : Int)) = n := by
      rw [bits, zpow_zero, mul_one, whole]
    have normalized := denotes_normalize n.toUInt64.toNat 0
    rw [value] at normalized
    exact normalized.holds_pack small
  have product : Float.ofNat n = n.toUInt64.toFloat * Float.ofBits 0x3FF0000000000000 := by
    change Float.ofScientific n false 0 = _
    rw [Float.ofScientific, dif_pos ⟨h, by decide⟩]
    rfl
  have held := cast.mul holds_one (by rwa [mul_one, whole])
  rwa [mul_one, whole, ← product] at held

section

variable {x : Float} (finite : x.isFinite = true)

include finite

theorem isNaN_of_isFinite : x.isNaN = false := by
  change x.toModel.unpack.isFinite = true at finite
  change x.toModel.unpack.isNaN = false
  generalize x.toModel.unpack = u at finite ⊢
  cases u with
  | notANumber => cases finite
  | infinity | zero | finite => rfl

theorem sign_iff : (x < 0 ↔ value x < 0) ∧ (0 < x ↔ 0 < value x) := by
  have number := isNaN_of_isFinite finite
  have zero : rank (0 : Float).toModel.unpack = toLex (0, toLex (0, 0)) := by decide
  rw [lt_iff number rfl, lt_iff rfl number, zero]
  change x.toModel.unpack.isFinite = true at finite
  cases unpacked : x.toModel.unpack with
  | notANumber | infinity =>
    rw [unpacked] at finite
    cases finite
  | zero s =>
    rw [rank_zero, value, unpacked]
    simp
  | finite s m e pos =>
    have size : (0 : Rat) < m * 2 ^ e := mul_pos (Nat.cast_pos.2 pos) (zpow_pos two_pos e)
    cases s with
    | positive =>
      rw [rank_positive, value_of_positive unpacked]
      simp [Prod.Lex.toLex_lt_toLex, size, size.le]
    | negative =>
      rw [rank_negative, value_of_negative unpacked]
      simp [Prod.Lex.toLex_lt_toLex, size, size.le]

end

theorem holds_of_pos {x : Float} (pos : 0 < value x) : Holds x (value x) := by
  rw [Holds]
  rw [value] at pos ⊢
  generalize unpacked : x.toModel.unpack = u at pos ⊢
  cases u with
  | notANumber | infinity | zero => exact absurd pos (lt_irrefl 0)
  | finite s m e m_pos =>
    have canonical : Canonical m e := canonical_unpack unpacked
    cases s with
    | positive => exact .finite m_pos canonical
    | negative =>
      have size : (0 : Rat) ≤ m * 2 ^ e := by positivity
      exact absurd pos (not_lt.2 (neg_nonpos.2 size))

/-! ### Sums that are too large -/

def IsInfinite (x : Float) : Prop := x.toModel.unpack = .infinity .positive

namespace IsInfinite

variable {x y : Float} {p q : Rat}

theorem isFinite (h : IsInfinite x) : x.isFinite = false := by
  change x.toModel.unpack.isFinite = false
  rw [h]
  rfl

theorem isNaN (h : IsInfinite x) : x.isNaN = false := by
  change x.toModel.unpack.isNaN = false
  rw [h]
  rfl

theorem le (h : IsInfinite y) (hx : x.isNaN = false) : x ≤ y := by
  rw [le_iff hx h.isNaN, h]
  cases x.toModel.unpack with
  | notANumber => decide
  | infinity s => cases s <;> decide
  | zero s =>
    rw [rank_zero]
    decide
  | finite s =>
    cases s with
    | positive =>
      rw [rank_positive, rank_infinity]
      simp [Prod.Lex.toLex_le_toLex]
    | negative =>
      rw [rank_negative, rank_infinity]
      simp [Prod.Lex.toLex_le_toLex]

theorem add (hx : IsInfinite x) (hy : Holds y q) : IsInfinite (x + y) := by
  have sum : UnpackedFloat.add binary64 x.toModel.unpack y.toModel.unpack =
      .infinity .positive := by
    rw [Holds] at hy
    rw [hx]
    generalize y.toModel.unpack = v at hy
    cases hy <;> rfl
  change unpack binary64 (pack binary64 (.add binary64 x.toModel.unpack y.toModel.unpack)) = _
  rw [sum]
  rfl

end IsInfinite

theorem Holds.add_of_overflow {x y : Float} {p q : Rat} (hx : Holds x p) (hy : Holds y q)
    (large : overflow ≤ p + q) : IsInfinite (x + y) :=
  unpack_pack_of_large (Denotes.add hx hy)
    ((two_zpow_le_nearest_iff (add_nonneg hx.nonneg hy.nonneg)).2 large)

theorem Holds.le_iff {x y : Float} {p q : Rat} (hx : Holds x p) (hy : Holds y q) :
    x ≤ y ↔ p ≤ q := by
  rw [Binary.le_iff hx.isNaN hy.isNaN, ← not_lt, Denotes.rank_lt_iff hy hx, not_lt]

end ChordScript.Binary
