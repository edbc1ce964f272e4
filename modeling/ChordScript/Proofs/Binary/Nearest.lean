import Mathlib.Algebra.Order.Field.Power
import Mathlib.Algebra.Order.Ring.Rat
import Mathlib.Data.Int.Log
import Mathlib.Data.Rat.Floor
import Mathlib.Tactic.Linarith
import Mathlib.Tactic.Positivity
import Mathlib.Tactic.Ring

namespace ChordScript.Binary

def halfEven (q : Rat) : Int :=
  if q - ⌊q⌋ < 1 / 2 then ⌊q⌋
  else if 1 / 2 < q - ⌊q⌋ then ⌊q⌋ + 1
  else ⌊q⌋ + ⌊q⌋ % 2

theorem halfEven_eq {q : Rat} {n : Int} (lo : n ≤ q) (hi : q < n + 1) :
    halfEven q = if q < n + 1 / 2 then n else if n + 1 / 2 < q then n + 1 else n + n % 2 := by
  have floor : ⌊q⌋ = n := Int.floor_eq_iff.2 ⟨lo, hi⟩
  rw [halfEven, floor]
  simp only [sub_lt_iff_lt_add', lt_sub_iff_add_lt']

@[simp] theorem halfEven_intCast (n : Int) : halfEven n = n := by
  rw [halfEven_eq le_rfl (lt_add_one _), if_pos (by linarith)]

theorem floor_le_halfEven (q : Rat) : ⌊q⌋ ≤ halfEven q := by
  rw [halfEven]
  split_ifs <;> omega

theorem halfEven_le_floor_add_one (q : Rat) : halfEven q ≤ ⌊q⌋ + 1 := by
  rw [halfEven]
  split_ifs <;> omega

theorem halfEven_mono {p q : Rat} (le : p ≤ q) : halfEven p ≤ halfEven q := by
  rcases (Int.floor_le_floor le).lt_or_eq with lt | same
  · exact (halfEven_le_floor_add_one p).trans (lt.trans_le (floor_le_halfEven q))
  · rw [halfEven_eq (Int.floor_le p) (Int.lt_floor_add_one p),
      halfEven_eq (same ▸ Int.floor_le q) (same ▸ Int.lt_floor_add_one q)]
    split_ifs <;> first | omega | linarith

theorem le_halfEven {q : Rat} {n : Int} (h : n ≤ q) : n ≤ halfEven q := by
  simpa using halfEven_mono h

theorem halfEven_le {q : Rat} {n : Int} (h : q ≤ n) : halfEven q ≤ n := by
  simpa using halfEven_mono h

theorem lt_halfEven_iff {q : Rat} {n : Int} (h : n ≤ q) :
    n < halfEven q ↔ n + 1 / 2 < q ∨ q = n + 1 / 2 ∧ n % 2 = 1 := by
  rcases lt_or_ge q (n + 1) with within | beyond
  · rw [halfEven_eq h within]
    rcases lt_trichotomy q (n + 1 / 2) with below | half | above
    · rw [if_pos below]
      simp only [lt_self_iff_false, below.not_gt, below.ne, false_and, or_self]
    · have parity : n < n + n % 2 ↔ n % 2 = 1 := by omega
      simpa only [half, lt_self_iff_false, if_false, true_and, false_or] using parity
    · rw [if_neg above.not_gt, if_pos above]
      simp only [lt_add_one, above, true_or]
  · have le : n + 1 ≤ halfEven q := le_halfEven (by exact_mod_cast beyond)
    exact iff_of_true le (.inl (by linarith))

theorem halfEven_eq_of_near {q : Rat} {n : Int} (lo : n - 1 / 2 ≤ q) (hi : q ≤ n + 1 / 2)
    (even : q = n - 1 / 2 ∨ q = n + 1 / 2 → n % 2 = 0) : halfEven q = n := by
  rcases lt_or_ge q n with below | above
  · rw [halfEven_eq (n := n - 1) (by push_cast; linarith) (by push_cast; linarith)]
    push_cast
    rw [if_neg (by linarith)]
    rcases lo.lt_or_eq with lt | half
    · rw [if_pos (by linarith)]
      omega
    · have := even (.inl half.symm)
      rw [if_neg (by linarith)]
      omega
  · rw [halfEven_eq above (by linarith)]
    rcases hi.lt_or_eq with lt | half
    · rw [if_pos lt]
    · have := even (.inr half)
      rw [if_neg half.not_lt, if_neg half.not_gt]
      omega

/-- The place of the last digit of the binary numbers around a number. -/
def lastPlace (q : Rat) : Int :=
  if q = 0 then -1074 else max (Int.log 2 q - 52) (-1074)

def unit (q : Rat) : Rat := 2 ^ lastPlace q

def digits (q : Rat) : Int := halfEven (q / unit q)

def nearest (q : Rat) : Rat := digits q * unit q

theorem unit_pos (q : Rat) : 0 < unit q := zpow_pos two_pos _

theorem le_lastPlace (q : Rat) : -1074 ≤ lastPlace q := by
  rw [lastPlace]
  split_ifs
  · exact le_rfl
  · exact le_max_right _ _

theorem two_zpow_mul (m e : Int) : (2 : Rat) ^ m * 2 ^ e = 2 ^ (e + m) := by
  rw [← zpow_add₀ two_ne_zero, add_comm]

theorem two_pow_mul (m : Nat) (e : Int) : (2 : Rat) ^ m * 2 ^ e = 2 ^ (e + m) := by
  rw [← two_zpow_mul, zpow_natCast]

theorem lastPlace_le_iff {q : Rat} (h : 0 ≤ q) {e : Int} :
    lastPlace q ≤ e ↔ -1074 ≤ e ∧ q < 2 ^ (e + 53) := by
  rw [lastPlace]
  rcases h.eq_or_lt with rfl | pos
  · simp [zpow_pos]
  · have place : Int.log 2 q - 52 ≤ e ↔ q < 2 ^ (e + 53) := by
      rw [← Nat.cast_ofNat (R := Rat), Int.lt_zpow_iff_log_lt (by norm_num) pos]
      omega
    rw [if_neg pos.ne', max_le_iff, place, and_comm]

theorem lastPlace_mono {p q : Rat} (hp : 0 ≤ p) (h : p ≤ q) : lastPlace p ≤ lastPlace q := by
  have place := (lastPlace_le_iff (hp.trans h)).1 le_rfl
  exact (lastPlace_le_iff hp).2 ⟨place.1, h.trans_lt place.2⟩

theorem lt_zpow_lastPlace {q : Rat} (h : 0 ≤ q) : q < 2 ^ (lastPlace q + 53) :=
  ((lastPlace_le_iff h).1 le_rfl).2

theorem zpow_lastPlace_le {q : Rat} (h : 0 ≤ q) (normal : -1074 < lastPlace q) :
    2 ^ (lastPlace q + 52) ≤ q := by
  by_contra below
  have lower := (lastPlace_le_iff (e := lastPlace q - 1) h).2 ⟨by omega, by
    rw [show lastPlace q - 1 + 53 = lastPlace q + 52 by ring]
    exact not_le.1 below⟩
  omega

theorem lastPlace_eq {q : Rat} {e : Int} (lo : -1074 ≤ e) (hi : q < 2 ^ (e + 53))
    (normal : e = -1074 ∨ 2 ^ (e + 52) ≤ q) (h : 0 ≤ q) : lastPlace q = e := by
  refine le_antisymm ((lastPlace_le_iff h).2 ⟨lo, hi⟩) ?_
  rcases normal with rfl | normal
  · exact le_lastPlace q
  · have place := normal.trans_lt (lt_zpow_lastPlace h)
    rw [zpow_lt_zpow_iff_right₀ one_lt_two] at place
    omega

theorem nearest_of_multiple {q : Rat} {n : Int} {e : Int} (whole : q = n * 2 ^ e)
    (le : lastPlace q ≤ e) : nearest q = q := by
  have split : (2 : Rat) ^ e = 2 ^ (e - lastPlace q).toNat * unit q := by
    rw [unit, two_pow_mul, Int.toNat_of_nonneg (by omega)]
    ring_nf
  have scaled : q / unit q = (n * 2 ^ (e - lastPlace q).toNat : Int) := by
    rw [div_eq_iff (unit_pos q).ne']
    conv_lhs => rw [whole, split]
    push_cast
    ring
  rw [nearest, digits, scaled, halfEven_intCast, ← scaled, div_mul_cancel₀ _ (unit_pos q).ne']

theorem nearest_eq_of_near {q : Rat} {n e : Int} (place : lastPlace q = e)
    (lo : (n - 1 / 2) * 2 ^ e ≤ q) (hi : q ≤ (n + 1 / 2) * 2 ^ e)
    (even : q = (n - 1 / 2) * 2 ^ e ∨ q = (n + 1 / 2) * 2 ^ e → n % 2 = 0) :
    nearest q = n * 2 ^ e := by
  have pos : (0 : Rat) < 2 ^ e := zpow_pos two_pos e
  rw [nearest, digits, unit, place, halfEven_eq_of_near ((le_div_iff₀ pos).2 lo)
    ((div_le_iff₀ pos).2 hi)]
  rwa [div_eq_iff pos.ne', div_eq_iff pos.ne']

theorem nearest_mul_zpow {m : Nat} {e : Int} (hm : m ≤ 2 ^ 53) (he : -1074 ≤ e) :
    nearest (m * 2 ^ e) = m * 2 ^ e := by
  have nonneg : (0 : Rat) ≤ m * 2 ^ e := by positivity
  rcases hm.lt_or_eq with lt | rfl
  · apply nearest_of_multiple (n := m) (e := e) rfl
    refine (lastPlace_le_iff nonneg).2 ⟨he, ?_⟩
    rw [← two_zpow_mul]
    refine mul_lt_mul_of_pos_right ?_ (zpow_pos two_pos e)
    exact_mod_cast lt
  · have power : ((2 ^ 53 : Nat) : Rat) * 2 ^ e = (1 : Int) * 2 ^ (e + 53) := by
      rw [← two_zpow_mul]
      norm_num
    apply nearest_of_multiple power
    refine (lastPlace_le_iff nonneg).2 ⟨by omega, ?_⟩
    rw [power, Int.cast_one, one_mul, zpow_lt_zpow_iff_right₀ one_lt_two]
    omega

theorem nearest_two_zpow {e : Int} (he : -1074 ≤ e) : nearest (2 ^ e) = 2 ^ e := by
  simpa using nearest_mul_zpow (m := 1) (by norm_num) he

theorem nearest_natCast {n : Nat} (h : n ≤ 2 ^ 53) : nearest n = n := by
  simpa using nearest_mul_zpow h (e := 0) (by norm_num)

@[simp] theorem nearest_zero : nearest 0 = 0 := by
  simpa using nearest_natCast (n := 0) (by norm_num)

theorem digits_le {q : Rat} (h : 0 ≤ q) : digits q ≤ 2 ^ 53 := by
  apply halfEven_le
  have lt := lt_zpow_lastPlace h
  rw [← two_zpow_mul] at lt
  rw [div_le_iff₀ (unit_pos q)]
  exact_mod_cast lt.le

theorem le_digits {q : Rat} (h : 0 ≤ q) (normal : -1074 < lastPlace q) : 2 ^ 52 ≤ digits q := by
  apply le_halfEven
  have le := zpow_lastPlace_le h normal
  rw [← two_zpow_mul] at le
  rw [le_div_iff₀ (unit_pos q)]
  exact_mod_cast le

theorem nearest_mono {p q : Rat} (hp : 0 ≤ p) (h : p ≤ q) : nearest p ≤ nearest q := by
  have hq := hp.trans h
  rcases (lastPlace_mono hp h).lt_or_eq with lt | same
  · -- A power of two lies between the two numbers.
    calc nearest p
        ≤ 2 ^ (53 : Int) * unit p := by
          refine mul_le_mul_of_nonneg_right ?_ (unit_pos p).le
          exact_mod_cast digits_le hp
      _ ≤ 2 ^ (52 : Int) * unit q := by
          rw [unit, unit, two_zpow_mul, two_zpow_mul, zpow_le_zpow_iff_right₀ one_lt_two]
          omega
      _ ≤ nearest q := by
          refine mul_le_mul_of_nonneg_right ?_ (unit_pos q).le
          exact_mod_cast le_digits hq ((le_lastPlace p).trans_lt lt)
  · rw [nearest, nearest, digits, digits, unit, unit, same]
    refine mul_le_mul_of_nonneg_right ?_ (unit_pos q).le
    exact_mod_cast halfEven_mono (div_le_div_of_nonneg_right h (unit_pos q).le)

/-- Added to `s`, a number up to half the distance to the next binary number goes under. -/
def Absorbed (s d : Rat) : Prop := d < unit s / 2 ∨ d = unit s / 2 ∧ digits s % 2 = 0

instance (s d : Rat) : Decidable (Absorbed s d) := inferInstanceAs (Decidable (_ ∨ _))

theorem not_absorbed_of_lt {s d : Rat} (hs : 0 ≤ s) (lt : s < 2 ^ 53 * d)
    (le : 2 ^ (-1074 : Int) ≤ d) : ¬ Absorbed s d := by
  have long : unit s < 2 * d := by
    rcases (le_lastPlace s).eq_or_lt with least | normal
    · have pos : (0 : Rat) < 2 ^ (-1074 : Int) := zpow_pos two_pos _
      rw [unit, ← least]
      linarith
    · have digits := (zpow_lastPlace_le hs normal).trans_lt lt
      rw [← two_zpow_mul, ← unit] at digits
      norm_num at digits
      linarith
  rintro (less | ⟨half, -⟩) <;> linarith

theorem le_nearest_add {s d : Rat} (hs : 0 ≤ s) (binary : nearest s = s) (hd : 0 ≤ d) :
    s ≤ nearest (s + d) :=
  binary.symm.le.trans (nearest_mono hs (le_add_of_nonneg_right hd))

theorem two_pow_mul_unit_le {s q : Rat} (hq : 0 ≤ q) (h : lastPlace s < lastPlace q) :
    2 ^ 53 * unit s ≤ q := by
  by_contra below
  rw [not_le, unit, two_pow_mul] at below
  have stays := (lastPlace_le_iff hq).2 ⟨le_lastPlace s, below⟩
  omega

theorem add_unit_le {s : Rat} (hs : 0 ≤ s) (binary : nearest s = s) :
    s + unit s ≤ 2 ^ 53 * unit s := by
  have lt : (digits s * unit s : Rat) < 2 ^ 53 * unit s := by
    rw [unit, two_pow_mul, ← unit]
    exact binary.le.trans_lt (lt_zpow_lastPlace hs)
  rw [mul_lt_mul_iff_of_pos_right (unit_pos s)] at lt
  have next : (digits s + 1 : Rat) ≤ 2 ^ 53 := by exact_mod_cast lt
  calc s + unit s
      = (digits s + 1) * unit s := by
        rw [add_one_mul, add_left_inj]
        exact binary.symm
    _ ≤ 2 ^ 53 * unit s := mul_le_mul_of_nonneg_right next (unit_pos s).le

section

variable {s d : Rat} (hs : 0 ≤ s) (binary : nearest s = s) (hd : 0 ≤ d)

include binary hd

theorem lt_nearest_add_iff_of_lastPlace_eq (same : lastPlace (s + d) = lastPlace s) :
    s < nearest (s + d) ↔ ¬ Absorbed s d := by
  have value : s = digits s * unit s := binary.symm
  have u_pos := unit_pos s
  have unit_eq : unit (s + d) = unit s := by rw [unit, unit, same]
  have scaled : (s + d) / unit s = digits s + d / unit s := by
    rw [add_div, add_left_inj, div_eq_iff u_pos.ne']
    exact value
  have up : s < nearest (s + d) ↔ digits s < halfEven (digits s + d / unit s) := by
    rw [nearest, digits, unit_eq, scaled]
    conv_lhs => lhs; rw [value]
    rw [mul_lt_mul_iff_of_pos_right u_pos, Int.cast_lt]
  have share : d / unit s = 1 / 2 ↔ d = unit s / 2 := by
    rw [div_eq_iff u_pos.ne', one_div_mul_eq_div]
  rw [up, lt_halfEven_iff (le_add_of_nonneg_right (div_nonneg hd u_pos.le)), Absorbed,
    add_lt_add_iff_left, add_right_inj, share, lt_div_iff₀ u_pos, one_div_mul_eq_div]
  have parity := Int.emod_two_eq (digits s)
  grind

include hs

theorem add_unit_le_nearest_add (crosses : lastPlace s < lastPlace (s + d)) :
    s + unit s ≤ nearest (s + d) ∧ unit s ≤ d := by
  have passed := two_pow_mul_unit_le (add_nonneg hs hd) crosses
  have apart := add_unit_le hs binary
  have power : nearest (2 ^ 53 * unit s) = 2 ^ 53 * unit s := by
    rw [unit, two_pow_mul]
    exact nearest_two_zpow ((le_lastPlace s).trans (by omega))
  have u_pos := unit_pos s
  have le := nearest_mono (by positivity) passed
  rw [power] at le
  exact ⟨apart.trans le, (add_le_add_iff_left s).1 (apart.trans passed)⟩

theorem lt_nearest_add_iff : s < nearest (s + d) ↔ ¬ Absorbed s d := by
  rcases (lastPlace_mono hs (le_add_of_nonneg_right hd)).eq_or_lt with same | crosses
  · exact lt_nearest_add_iff_of_lastPlace_eq binary hd same.symm
  · obtain ⟨le, long⟩ := add_unit_le_nearest_add hs binary hd crosses
    have u_pos := unit_pos s
    refine iff_of_true (by linarith) ?_
    rintro (less | ⟨half, -⟩) <;> linarith

end

theorem absorbed_two_zpow {k : Int} (hk : -1022 ≤ k) : Absorbed (2 ^ k) (2 ^ (k - 53)) := by
  have place : lastPlace (2 ^ k) = k - 52 := by
    refine lastPlace_eq (by omega) ?_ (.inr ?_) (by positivity)
    · rw [zpow_lt_zpow_iff_right₀ one_lt_two]
      omega
    · rw [sub_add_cancel]
  have half : (2 : Rat) ^ (k - 53) = unit (2 ^ k) / 2 := by
    rw [unit, place, div_eq_mul_inv, ← zpow_sub_one₀ two_ne_zero, sub_sub]
    rfl
  have scaled : (2 : Rat) ^ k / 2 ^ (k - 52) = (2 ^ 52 : Int) := by
    rw [← zpow_sub₀ two_ne_zero, sub_sub_cancel]
    norm_num
  have even : digits (2 ^ k) % 2 = 0 := by
    rw [digits, unit, place, scaled, halfEven_intCast]
    rfl
  exact .inr ⟨half, even⟩

theorem nearest_add_le_two_zpow {s d : Rat} {k : Int} (hk : -1022 ≤ k) (hs : 0 ≤ s)
    (s_le : s ≤ 2 ^ k) (hd : 0 ≤ d) (d_le : d ≤ 2 ^ (k - 53)) : nearest (s + d) ≤ 2 ^ k := by
  have binary : nearest (2 ^ k) = 2 ^ k := nearest_two_zpow (by omega)
  have stays := mt (lt_nearest_add_iff (by positivity) binary (by positivity)).1
    (not_not.2 (absorbed_two_zpow hk))
  exact (nearest_mono (add_nonneg hs hd) (add_le_add s_le d_le)).trans (not_lt.1 stays)

def largest : Rat := (2 ^ 53 - 1) * 2 ^ 971

def overflow : Rat := largest + 2 ^ 970

theorem two_zpow_le_nearest_iff {q : Rat} (h : 0 ≤ q) :
    2 ^ (1024 : Int) ≤ nearest q ↔ overflow ≤ q := by
  constructor
  · intro large
    by_contra below
    have binary : nearest largest = largest := by decide +kernel
    have small : largest < 2 ^ (1024 : Int) := by decide +kernel
    suffices nearest q ≤ largest from (large.trans this).not_gt small
    rcases le_total q largest with le | ge
    · exact (nearest_mono h le).trans_eq binary
    · have half : unit largest / 2 = 2 ^ 970 := by decide +kernel
      have stays : Absorbed largest (q - largest) := by
        left
        rw [half, sub_lt_iff_lt_add']
        exact not_le.1 below
      have nonneg : 0 ≤ largest := by decide +kernel
      have same := mt (lt_nearest_add_iff nonneg binary (sub_nonneg.2 ge)).1 (not_not.2 stays)
      rwa [add_sub_cancel, not_lt] at same
  · intro large
    have top : nearest overflow = 2 ^ (1024 : Int) := by decide +kernel
    exact top.symm.le.trans (nearest_mono (by decide +kernel) large)

end ChordScript.Binary
