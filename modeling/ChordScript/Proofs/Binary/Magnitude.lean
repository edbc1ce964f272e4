import ChordScript.Proofs.Binary.Value

namespace ChordScript.Binary

def Within (lo hi : Int) (x : Float) : Prop := ∃ q, Holds x q ∧ 2 ^ lo ≤ q ∧ q ≤ 2 ^ hi

theorem within_ofNat {n k : Nat} (pos : 0 < n) (le : n ≤ 2 ^ k) (hk : k < 53) :
    Within 0 k (Float.ofNat n) := by
  refine ⟨n, holds_ofNat (le.trans_lt (Nat.pow_lt_pow_right one_lt_two hk)), ?_, ?_⟩
  · rw [zpow_zero]
    exact_mod_cast pos
  · rw [zpow_natCast]
    exact_mod_cast le

theorem lt_zpow_of_le {q : Rat} {k : Int} (le : q ≤ 2 ^ k) (hk : k < 1024) : q < 2 ^ (1024 : Int) :=
  le.trans_lt (zpow_lt_zpow_right₀ one_lt_two hk)

theorem nearest_bounds {q : Rat} {lo hi : Int} (hlo : -1074 ≤ lo) (ge : 2 ^ lo ≤ q)
    (le : q ≤ 2 ^ hi) : 2 ^ lo ≤ nearest q ∧ nearest q ≤ 2 ^ hi := by
  have lo_pos : (0 : Rat) < 2 ^ lo := zpow_pos two_pos lo
  have ordered : lo ≤ hi := (zpow_le_zpow_iff_right₀ one_lt_two).1 (ge.trans le)
  constructor
  · simpa only [nearest_two_zpow hlo] using nearest_mono lo_pos.le ge
  · simpa only [nearest_two_zpow (hlo.trans ordered)] using nearest_mono (lo_pos.le.trans ge) le

namespace Within

variable {x y : Float} {a b c d : Int}

theorem holds (h : Within a b x) : Holds x (value x) ∧ 2 ^ a ≤ value x ∧ value x ≤ 2 ^ b := by
  obtain ⟨q, holds, bounds⟩ := h
  rw [holds.value_eq]
  exact ⟨holds, bounds⟩

theorem mono (h : Within a b x) (hc : c ≤ a) (hd : b ≤ d) : Within c d x := by
  obtain ⟨q, holds, lo, hi⟩ := h
  exact ⟨q, holds, (zpow_le_zpow_right₀ one_le_two hc).trans lo,
    hi.trans (zpow_le_zpow_right₀ one_le_two hd)⟩

section

variable (hx : Within a b x) (hy : Within c d y) (lo : -1074 ≤ a + c) (hi : b + d < 1024)

include hx hy lo hi

theorem holds_mul :
    Holds (x * y) (nearest (value x * value y)) ∧ 2 ^ (a + c) ≤ nearest (value x * value y) ∧
      nearest (value x * value y) ≤ 2 ^ (b + d) := by
  obtain ⟨x_holds, x_lo, x_hi⟩ := hx.holds
  obtain ⟨y_holds, y_lo, y_hi⟩ := hy.holds
  have bounds := nearest_bounds lo
    (le_of_eq_of_le (zpow_add₀ two_ne_zero a c)
      (mul_le_mul x_lo y_lo (by positivity) x_holds.nonneg))
    ((mul_le_mul x_hi y_hi y_holds.nonneg (by positivity)).trans_eq
      (zpow_add₀ two_ne_zero b d).symm)
  exact ⟨x_holds.mul y_holds (lt_zpow_of_le bounds.2 hi), bounds⟩

theorem mul : Within (a + c) (b + d) (x * y) := ⟨_, holds_mul hx hy lo hi⟩

theorem value_mul : value (x * y) = nearest (value x * value y) :=
  (holds_mul hx hy lo hi).1.value_eq

end

theorem div (hx : Within a b x) (hy : Within c d y) (lo : -1074 ≤ a - d) (hi : b - c < 1024) :
    Within (a - d) (b - c) (x / y) := by
  obtain ⟨p, hp, p_lo, p_hi⟩ := hx
  obtain ⟨q, hq, q_lo, q_hi⟩ := hy
  have q_pos : 0 < q := (zpow_pos two_pos c).trans_le q_lo
  have bounds := nearest_bounds lo
    (le_of_eq_of_le (zpow_sub₀ two_ne_zero a d) (div_le_div₀ hp.nonneg p_lo q_pos q_hi))
    ((div_le_div₀ (by positivity) p_hi (by positivity) q_lo).trans_eq
      (zpow_sub₀ two_ne_zero b c).symm)
  exact ⟨_, hp.div hq q_pos.ne' (lt_zpow_of_le bounds.2 hi), bounds⟩

end Within

end ChordScript.Binary
