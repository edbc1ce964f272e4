import ChordScript.Decimal.Dyadic
import ChordScript.Proofs.Binary.Value

namespace ChordScript.Decimal.Dyadic

open Binary (Canonical toNat_implicit unpack_of_last unpack_of_first unpack_of_later)
open Float.Model (UnpackedFloat)
open Float.Model.Format (binary64)
open Float.Model.UnpackedFloat

def bits : Dyadic → Nat
  | .nan => 0
  | .infinite negative => negative.toNat * 2 ^ 63 + 2047 * 2 ^ 52
  | .finite negative m e =>
    negative.toNat * 2 ^ 63 + if m < 2 ^ 52 then m else (e + 1075).toNat * 2 ^ 52 + (m - 2 ^ 52)

theorem toNat_beq_one (n : Nat) : (n % 2 == 1).toNat = n % 2 := by
  rcases Nat.mod_two_eq_zero_or_one n with h | h <;> rw [h] <;> rfl

theorem ofBits_eq (n : Nat) : ofBits n =
    if n / 2 ^ 52 % 2 ^ 11 = 2047 then
      if n % 2 ^ 52 = 0 then .infinite (n / 2 ^ 63 % 2 == 1) else .nan
    else if n / 2 ^ 52 % 2 ^ 11 = 0 then .finite (n / 2 ^ 63 % 2 == 1) (n % 2 ^ 52) (-1074)
    else .finite (n / 2 ^ 63 % 2 == 1) (2 ^ 52 + n % 2 ^ 52)
      (-1074 + (n / 2 ^ 52 % 2 ^ 11 : Nat) - 1) := rfl

theorem bits_ofBits {n : Nat} (small : n < 2 ^ 64) (number : ofBits n ≠ .nan) :
    bits (ofBits n) = n := by
  rw [ofBits_eq] at number ⊢
  split at number
  · split at number
    · rename_i last whole
      rw [if_pos last, if_pos whole, bits, toNat_beq_one]
      omega
    · exact absurd rfl number
  · rename_i not_last
    rw [if_neg not_last]
    split
    · rename_i first
      rw [bits, toNat_beq_one, if_pos (Nat.mod_lt _ (by norm_num))]
      omega
    · rename_i not_first
      rw [bits, toNat_beq_one, if_neg (by omega)]
      omega

theorem canonical_of_ofBits {n : Nat} {negative : Bool} {m : Nat} {e : Int}
    (parts : ofBits n = .finite negative m e) : Canonical m e := by
  rw [ofBits_eq] at parts
  split at parts
  · split at parts <;> cases parts
  · split at parts
    · cases parts
      exact ⟨by omega, le_rfl, .inl rfl⟩
    · rename_i not_first
      cases parts
      exact ⟨by omega, by omega, .inr (by omega)⟩

theorem toNat_unpackExponent (b : BitVec 64) :
    (@unpackExponent binary64 b).toNat = b.toNat / 2 ^ 52 % 2 ^ 11 := by
  rw [← Nat.shiftRight_eq_div_pow]
  exact BitVec.extractLsb_toNat 62 52 b

theorem toNat_unpackMantissa (b : BitVec 64) :
    (@unpackMantissa binary64 b).toNat = b.toNat % 2 ^ 52 :=
  BitVec.extractLsb_toNat 51 0 b

def isNegative : Sign → Bool
  | .positive => false
  | .negative => true

theorem toNat_unpackSign (b : BitVec 64) : (@unpackSign binary64 b).toNat = b.toNat / 2 ^ 63 % 2 := by
  rw [← Nat.shiftRight_eq_div_pow]
  exact BitVec.extractLsb_toNat 63 63 b

def ofUnpacked : UnpackedFloat → Dyadic
  | .notANumber => .nan
  | .infinity s => .infinite (isNegative s)
  | .zero s => .finite (isNegative s) 0 leastExponent
  | .finite s m e _ => .finite (isNegative s) m e

theorem ofUnpacked_finite {s : Sign} {m : Nat} {e : Int} {pos : 0 < m} :
    ofUnpacked (.finite s m e pos) = .finite (isNegative s) m e := rfl

theorem isNegative_ofBitVec (v : BitVec 1) : isNegative (Sign.ofBitVec v) = (v.toNat == 1) := by
  revert v
  decide

theorem ofFloat_eq (x : Float) : ofFloat x = ofUnpacked x.toModel.unpack := by
  let b : BitVec 64 := x.toBits.toBitVec
  change ofBits b.toNat = ofUnpacked (unpack binary64 b)
  have sign : (b.toNat / 2 ^ 63 % 2 == 1) = isNegative (.ofBitVec (@unpackSign binary64 b)) := by
    rw [isNegative_ofBitVec, toNat_unpackSign]
  have last : @unpackExponent binary64 b = -1#11 ↔ b.toNat / 2 ^ 52 % 2 ^ 11 = 2047 := by
    rw [← BitVec.toNat_inj, toNat_unpackExponent]
    rfl
  have first : @unpackExponent binary64 b = 0#11 ↔ b.toNat / 2 ^ 52 % 2 ^ 11 = 0 := by
    rw [← BitVec.toNat_inj, toNat_unpackExponent]
    rfl
  have whole : @unpackMantissa binary64 b = 0#52 ↔ b.toNat % 2 ^ 52 = 0 := by
    rw [← BitVec.toNat_inj, toNat_unpackMantissa]
    rfl
  have implicit : (1#1 ++ @unpackMantissa binary64 b).toNat = 2 ^ 52 + b.toNat % 2 ^ 52 := by
    rw [← toNat_unpackMantissa]
    exact toNat_implicit _
  rw [ofBits_eq, sign]
  by_cases is_last : @unpackExponent binary64 b = -1#11
  · rw [unpack_of_last is_last, if_pos (last.1 is_last)]
    by_cases is_whole : @unpackMantissa binary64 b = 0#52
    · rw [if_pos is_whole, if_pos (whole.1 is_whole)]
      rfl
    · rw [if_neg is_whole, if_neg (mt whole.2 is_whole)]
      rfl
  rw [if_neg (mt last.2 is_last)]
  by_cases is_first : @unpackExponent binary64 b = 0#11
  · rw [unpack_of_first is_last is_first, if_pos (first.1 is_first), ← toNat_unpackMantissa]
    by_cases zero : @unpackMantissa binary64 b = 0#52
    · rw [dif_pos zero, zero]
      rfl
    · rw [dif_neg zero]
      rfl
  · rw [unpack_of_later is_last is_first, if_neg (mt first.2 is_first), ofUnpacked_finite, implicit,
      toNat_unpackExponent]
    congr 1
    omega

theorem ofFloat_ne_nan {x : Float} (number : x.isNaN = false) : ofFloat x ≠ .nan := by
  change x.toModel.unpack.isNaN = false at number
  rw [ofFloat_eq]
  generalize x.toModel.unpack = u at number
  cases u with
  | notANumber => cases number
  | infinity | zero | finite => exact nofun

theorem eq_of_ofFloat_eq {x y : Float} (number : x.isNaN = false) (same : ofFloat x = ofFloat y) :
    x = y := by
  have hx := ofFloat_ne_nan number
  have hy : ofFloat y ≠ .nan := same ▸ hx
  have bits_eq : x.toBits.toNat = y.toBits.toNat := by
    rw [← bits_ofBits x.toBits.toNat_lt hx, ← bits_ofBits y.toBits.toNat_lt hy]
    exact congrArg bits same
  have bits_eq : x.toModel.toBits = y.toModel.toBits := UInt64.toNat_inj.1 bits_eq
  obtain ⟨⟨a, _⟩⟩ := x
  obtain ⟨⟨b, _⟩⟩ := y
  obtain rfl : a = b := bits_eq
  rfl

end ChordScript.Decimal.Dyadic
