import ChordScript.Decimal.Shortest
import ChordScript.Proofs.Binary.Rounding

namespace ChordScript.Decimal

open Binary (Canonical nearest)

def Scientific.value (s : Scientific) : Rat := s.digits * 10 ^ s.exponent

def Ratio.value (r : Ratio) : Rat := r.numerator / r.denominator

namespace Ratio

theorem zpow_eq_div {base : Nat} (pos : 0 < base) (e : Int) :
    (base ^ e : Rat) = base ^ e.toNat / base ^ (-e).toNat := by
  have base_ne : (base : Rat) ≠ 0 := Nat.cast_ne_zero.2 pos.ne'
  conv_lhs => rw [← Int.toNat_sub_toNat_neg e, zpow_sub₀ base_ne, zpow_natCast, zpow_natCast]

variable {r : Ratio} {base : Nat} (pos : 0 < base) (n : Nat) (e : Int)

include pos

theorem denominator_scaled_pos : 0 < (scaled n base e).denominator := Nat.pow_pos pos

theorem value_scaled : (scaled n base e).value = n * base ^ e := by
  rw [value, zpow_eq_div pos, ← mul_div_assoc]
  simp only [scaled, Nat.pow_eq]
  push_cast
  rfl

theorem denominator_times_pos (h : 0 < r.denominator) : 0 < (r.times base e).denominator :=
  Nat.mul_pos h (Nat.pow_pos pos)

theorem value_times : (r.times base e).value = r.value * base ^ e := by
  rw [value, value, zpow_eq_div pos, div_mul_div_comm]
  simp only [times, Nat.pow_eq]
  push_cast
  rfl

end Ratio

namespace Ratio

variable {r : Ratio} (h : 0 < r.denominator) {n : Nat}

include h

theorem compareNat_eq_lt_iff : r.compareNat n = .lt ↔ r.value < n := by
  rw [compareNat, Nat.compare_eq_lt, value, div_lt_iff₀ (Nat.cast_pos.2 h)]
  norm_cast

theorem compareNat_eq_gt_iff : r.compareNat n = .gt ↔ n < r.value := by
  rw [compareNat, Nat.compare_eq_gt, value, lt_div_iff₀ (Nat.cast_pos.2 h)]
  norm_cast

theorem compareNat_eq_eq_iff : r.compareNat n = .eq ↔ r.value = n := by
  rw [compareNat, Nat.compare_eq_eq, value, div_eq_iff (Nat.cast_ne_zero.2 h.ne')]
  norm_cast

theorem floor_le : r.floor ≤ r.value := by
  rw [value, le_div_iff₀ (Nat.cast_pos.2 h)]
  exact_mod_cast Nat.div_mul_le_self _ _

theorem lt_floor_add_one : r.value < r.floor + 1 := by
  rw [value, div_lt_iff₀ (Nat.cast_pos.2 h)]
  exact_mod_cast (Nat.div_lt_iff_lt_mul h).1 (Nat.lt_succ_self r.floor)

omit h in
theorem round_eq (halfway : Halfway) :
    r.round halfway = r.floor ∨ r.round halfway = r.floor + 1 := by
  unfold round
  split
  · exact .inl rfl
  · exact .inr rfl
  · exact .inr rfl
  · exact ite_eq_or_eq _ _ _

end Ratio

namespace Interval

variable {i : Interval} {grid : Int} {n : Nat}

def Within (i : Interval) (q : Rat) : Prop :=
  (i.low * 2 ^ i.unit < q ∧ q < i.high * 2 ^ i.unit) ∨
    i.closed = true ∧ (i.low * 2 ^ i.unit = q ∨ i.high * 2 ^ i.unit = q)

theorem denominator_onGrid_pos (i : Interval) (point : Nat) (grid : Int) :
    0 < (i.onGrid point grid).denominator :=
  Ratio.denominator_times_pos (by decide) _ (Ratio.denominator_scaled_pos (by decide) _ _)

theorem value_onGrid (i : Interval) (point : Nat) (grid : Int) :
    (i.onGrid point grid).value = point * 2 ^ i.unit / 10 ^ grid := by
  rw [onGrid, Ratio.value_times (by decide), Ratio.value_scaled (by decide), zpow_neg,
    ← div_eq_mul_inv]
  norm_cast

theorem contains_iff : i.contains grid n = true ↔ i.Within (n * 10 ^ grid) := by
  have pos : (0 : Rat) < 10 ^ grid := zpow_pos (by norm_num) grid
  have low := i.denominator_onGrid_pos i.low grid
  have high := i.denominator_onGrid_pos i.high grid
  simp only [contains, Within, Bool.or_eq_true, Bool.and_eq_true, beq_iff_eq,
    Ratio.compareNat_eq_lt_iff low, Ratio.compareNat_eq_gt_iff high, Ratio.compareNat_eq_eq_iff low,
    Ratio.compareNat_eq_eq_iff high, value_onGrid, div_lt_iff₀ pos, lt_div_iff₀ pos,
    div_eq_iff pos.ne']

theorem within_of_nearest? {halfway : Halfway} {s : Scientific}
    (found : i.nearest? halfway grid = some s) : i.Within s.value := by
  rw [nearest?] at found
  split at found
  · rename_i here next
    cases found
    rcases Ratio.round_eq (r := i.onGrid i.value grid) halfway with down | up
    · rw [Scientific.value, down]
      exact contains_iff.1 here
    · rw [Scientific.value, up]
      exact contains_iff.1 next
  · rename_i here _
    cases found
    exact contains_iff.1 here
  · rename_i next
    cases found
    exact contains_iff.1 next
  · cases found

theorem nearest?_ne_none (low : i.low < i.value) (high : i.value < i.high)
    (fine : 10 ^ grid < (i.high - i.low : Rat) * 2 ^ i.unit) (halfway : Halfway) :
    i.nearest? halfway grid ≠ none := by
  have unit_pos : (0 : Rat) < 2 ^ i.unit := zpow_pos two_pos _
  have pos : (0 : Rat) < 10 ^ grid := zpow_pos (by norm_num) grid
  have proper := i.denominator_onGrid_pos i.value grid
  have above := Ratio.floor_le proper
  have below := Ratio.lt_floor_add_one proper
  rw [value_onGrid, le_div_iff₀ pos] at above
  rw [value_onGrid, div_lt_iff₀ pos] at below
  have low : (i.low * 2 ^ i.unit : Rat) < i.value * 2 ^ i.unit :=
    mul_lt_mul_of_pos_right (Nat.cast_lt.2 low) unit_pos
  have high : (i.value * 2 ^ i.unit : Rat) < i.high * 2 ^ i.unit :=
    mul_lt_mul_of_pos_right (Nat.cast_lt.2 high) unit_pos
  intro missed
  rw [nearest?] at missed
  split at missed
  · cases missed
  · cases missed
  · cases missed
  · rename_i here next
    rw [← Bool.not_eq_true, contains_iff] at here next
    have under : ((i.onGrid i.value grid).floor * 10 ^ grid : Rat) ≤ i.low * 2 ^ i.unit := by
      by_contra inside
      exact here (.inl ⟨not_le.1 inside, above.trans_lt high⟩)
    have past : (i.high * 2 ^ i.unit : Rat) ≤ ((i.onGrid i.value grid).floor + 1) * 10 ^ grid := by
      by_contra inside
      refine next (.inl ⟨?_, ?_⟩) <;> push_cast
      · exact low.trans below
      · exact not_le.1 inside
    linarith

end Interval

theorem Interval.low_around (m : Nat) (e : Int) : (around m e).low =
    if m = 2 ^ 52 ∧ e ≠ -1074 then 4 * m - 1 else 4 * m - 2 := rfl

theorem value_stripZeros (fuel : Nat) (s : Scientific) : (s.stripZeros fuel).value = s.value := by
  induction fuel generalizing s with
  | zero => rfl
  | succ fuel ih =>
    obtain ⟨d, k⟩ := s
    rw [Scientific.stripZeros]
    split
    · rename_i trailing
      rw [ih, Scientific.value, Scientific.value]
      obtain ⟨c, rfl⟩ : ∃ c, d = c * 10 := ⟨d / 10, by omega⟩
      rw [Nat.mul_div_cancel _ (by decide), zpow_add_one₀ (by norm_num)]
      push_cast
      ring
    · rfl

theorem lt_pow_digitCount (n : Nat) : n < 10 ^ digitCount n :=
  (Nat.length_toDigits_le_iff (by decide) (List.length_pos_iff.2 Nat.toDigits_ne_nil)).1 le_rfl

theorem pow_digitCount_le {n : Nat} (pos : 0 < n) : 10 ^ (digitCount n - 1) ≤ n := by
  rcases Nat.eq_zero_or_pos (digitCount n - 1) with single | more
  · rw [single]
    exact pos
  · have long : ¬ digitCount n ≤ digitCount n - 1 := by omega
    exact not_lt.1 (mt (Nat.length_toDigits_le_iff (by decide) more).2 long)

theorem zpow_order_le {r : Ratio} (n_pos : 0 < r.numerator) (d_pos : 0 < r.denominator) :
    10 ^ order r ≤ r.value := by
  rw [order]
  split
  · rename_i large
    have floor_pos : 0 < r.floor := Nat.div_pos large d_pos
    have digits : 1 ≤ digitCount r.floor := List.length_pos_iff.2 Nat.toDigits_ne_nil
    refine le_trans ?_ (Ratio.floor_le d_pos)
    rw [← Nat.cast_one, ← Nat.cast_sub digits, zpow_natCast]
    exact_mod_cast pow_digitCount_le floor_pos
  · have few := lt_pow_digitCount ((r.denominator - 1) / r.numerator)
    rw [Nat.div_lt_iff_lt_mul n_pos] at few
    have le :
        r.denominator ≤ 10 ^ digitCount ((r.denominator - 1) / r.numerator) * r.numerator := by
      omega
    rw [zpow_neg, zpow_natCast, Ratio.value, le_div_iff₀ (Nat.cast_pos.2 d_pos),
      inv_mul_le_iff₀ (by positivity)]
    exact_mod_cast le

section

variable {m : Nat} {e : Int}

theorem quarter_unit (n : Rat) (e : Int) : n * 2 ^ e = 4 * n * 2 ^ (e - 2) := by
  rw [zpow_sub₀ two_ne_zero]
  norm_num
  ring

variable (canonical : Canonical m e) (pos : 0 < m)

include canonical pos

theorem nearest?_around_ne_none (halfway : Halfway) :
    (Interval.around m e).nearest? halfway (order (Ratio.scaled m 2 e) - 16) ≠ none := by
  have proper : 0 < (Ratio.scaled m 2 e).denominator := Ratio.denominator_scaled_pos (by decide) _ _
  have order_le : (10 : Rat) ^ order (Ratio.scaled m 2 e) ≤ m * 2 ^ e := by
    have le := zpow_order_le (Nat.mul_pos pos (Nat.pow_pos (by decide))) proper
    rw [Ratio.value_scaled (by decide)] at le
    exact_mod_cast le
  have digits := canonical.digits
  have low : (Interval.around m e).low < 4 * m := by
    rw [Interval.low_around]
    split_ifs <;> omega
  have wide : 4 * m + (Interval.around m e).low * 10 ^ 16 < (4 * m + 2) * 10 ^ 16 := by
    rw [Interval.low_around]
    split_ifs <;> omega
  refine Interval.nearest?_ne_none low (Nat.lt_add_of_pos_right (by decide)) ?_ halfway
  rw [zpow_sub₀ (by norm_num), div_lt_iff₀ (by norm_num)]
  calc (10 : Rat) ^ order (Ratio.scaled m 2 e)
      ≤ 4 * m * 2 ^ (e - 2) := order_le.trans_eq (quarter_unit _ e)
    _ < ((4 * m + 2 : Nat) - (Interval.around m e).low) * 10 ^ (16 : Int) * 2 ^ (e - 2) := by
      refine mul_lt_mul_of_pos_right ?_ (zpow_pos two_pos _)
      rw [sub_mul, lt_sub_iff_add_lt]
      exact_mod_cast wide
    _ = _ := mul_right_comm _ _ _

theorem within_shortest (halfway : Halfway) :
    (Interval.around m e).Within (shortest halfway m e).value := by
  rw [shortest, value_stripZeros]
  cases found : List.findSome? ((Interval.around m e).nearest? halfway)
    ((List.range mostDigits).map fun (n : Nat) => order (Ratio.scaled m 2 e) - n) with
  | some s =>
    obtain ⟨grid, -, found⟩ := List.exists_of_findSome?_eq_some found
    exact Interval.within_of_nearest? found
  | none =>
    have last : order (Ratio.scaled m 2 e) - 16 ∈
        (List.range mostDigits).map fun (n : Nat) => order (Ratio.scaled m 2 e) - n :=
      List.mem_map.2 ⟨16, by decide, rfl⟩
    exact absurd (List.findSome?_eq_none_iff.1 found _ last)
      (nearest?_around_ne_none canonical pos halfway)

end

section

variable {m : Nat} {e : Int} {t : Rat}

theorem Interval.Within.bounds (h : (around m e).Within (t * 2 ^ (e - 2))) :
    (around m e).low ≤ t ∧ t ≤ 4 * m + 2 ∧
      (t = (around m e).low ∨ t = 4 * m + 2 → m % 2 = 0) := by
  have unit_pos : (0 : Rat) < 2 ^ (e - 2) := zpow_pos two_pos _
  have high : ((around m e).high : Rat) = 4 * m + 2 := by
    simp only [around]
    push_cast
    rfl
  have low : ((around m e).low : Rat) ≤ 4 * m + 2 := by
    rw [← high, Nat.cast_le, low_around]
    split_ifs <;> exact (Nat.sub_le _ _).trans (Nat.le_add_right _ _)
  have h : ((around m e).low < t ∧ t < 4 * m + 2) ∨
      m % 2 = 0 ∧ ((around m e).low = t ∨ 4 * m + 2 = t) := by
    rw [← high]
    refine h.imp (And.imp ?_ ?_) (And.imp of_decide_eq_true (Or.imp ?_ ?_))
    · exact (mul_lt_mul_iff_of_pos_right unit_pos).1
    · exact (mul_lt_mul_iff_of_pos_right unit_pos).1
    · exact mul_right_cancel₀ unit_pos.ne'
    · exact mul_right_cancel₀ unit_pos.ne'
  rcases h with ⟨lo, hi⟩ | ⟨even, rfl | rfl⟩
  · exact ⟨lo.le, hi.le, fun ends => absurd ends (not_or.2 ⟨lo.ne', hi.ne⟩)⟩
  · exact ⟨le_rfl, low, fun _ => even⟩
  · exact ⟨low, le_rfl, fun _ => even⟩

theorem two_zpow_add (e k : Int) : (2 : Rat) ^ (e + k) = 2 ^ (k + 2) * 2 ^ (e - 2) := by
  rw [Binary.two_zpow_mul]
  congr 1
  ring

theorem nearest_below_power (normal : -1074 < e) (lo : 2 ^ 54 - 1 ≤ t) (below : t < 2 ^ 54) :
    nearest (t * 2 ^ (e - 2)) = 2 ^ 52 * 2 ^ e := by
  have unit_pos : (0 : Rat) < 2 ^ (e - 2) := zpow_pos two_pos _
  have half : (2 : Rat) ^ (e + -1) = 2 * 2 ^ (e - 2) := by
    rw [two_zpow_add]
    norm_num
  have place : Binary.lastPlace (t * 2 ^ (e - 2)) = e + -1 := by
    refine Binary.lastPlace_eq (by omega) ?_ (.inr ?_) (mul_nonneg (by linarith) unit_pos.le)
    · rw [add_assoc, two_zpow_add, mul_lt_mul_iff_of_pos_right unit_pos]
      norm_num
      linarith
    · rw [add_assoc, two_zpow_add, mul_le_mul_iff_of_pos_right unit_pos]
      norm_num
      linarith
  have doubled : (2 ^ 52 * 2 ^ e : Rat) = ((2 ^ 53 : Int) : Rat) * 2 ^ (e + -1) := by
    rw [half, quarter_unit]
    norm_num
    ring
  rw [doubled]
  refine Binary.nearest_eq_of_near place ?_ ?_ fun _ => rfl
  · rw [half, ← mul_assoc, mul_le_mul_iff_of_pos_right unit_pos]
    norm_num
    linarith
  · rw [half, ← mul_assoc, mul_le_mul_iff_of_pos_right unit_pos]
    norm_num
    linarith

variable (canonical : Canonical m e)

include canonical

theorem nearest_around (pos : 0 < m) (normal : e = -1074 ∨ 2 ^ 54 ≤ t) (lo : 4 * m - 2 ≤ t)
    (hi : t ≤ 4 * m + 2) (ends : t = 4 * m - 2 ∨ t = 4 * m + 2 → m % 2 = 0) :
    nearest (t * 2 ^ (e - 2)) = m * 2 ^ e := by
  have unit_pos : (0 : Rat) < 2 ^ (e - 2) := zpow_pos two_pos _
  have digits : (m : Rat) + 1 ≤ 2 ^ 53 := by exact_mod_cast canonical.digits
  have one : (1 : Rat) ≤ m := by exact_mod_cast pos
  have place : Binary.lastPlace (t * 2 ^ (e - 2)) = e := by
    refine Binary.lastPlace_eq canonical.place ?_ (normal.imp_right fun large => ?_)
      (mul_nonneg (by linarith) unit_pos.le)
    · rw [two_zpow_add, mul_lt_mul_iff_of_pos_right unit_pos]
      norm_num
      linarith
    · rw [two_zpow_add, mul_le_mul_iff_of_pos_right unit_pos]
      norm_num
      linarith
  refine Binary.nearest_eq_of_near (n := m) place ?_ ?_ fun at_end => ?_
  · rw [quarter_unit (_ - _), mul_le_mul_iff_of_pos_right unit_pos]
    push_cast
    linarith
  · rw [quarter_unit (_ + _), mul_le_mul_iff_of_pos_right unit_pos]
    push_cast
    linarith
  · rw [quarter_unit (_ - _), quarter_unit (_ + _), mul_left_inj' unit_pos.ne',
      mul_left_inj' unit_pos.ne'] at at_end
    push_cast at at_end
    have even := ends (at_end.imp (fun lower => by linarith) fun upper => by linarith)
    omega

theorem nearest_of_within (pos : 0 < m) {q : Rat} (h : (Interval.around m e).Within q) :
    nearest q = m * 2 ^ e := by
  obtain ⟨t, rfl⟩ : ∃ t, q = t * 2 ^ (e - 2) :=
    ⟨q / 2 ^ (e - 2), (div_mul_cancel₀ _ (zpow_pos two_pos _).ne').symm⟩
  obtain ⟨lo, hi, ends⟩ := h.bounds
  rw [Interval.low_around] at lo ends
  by_cases power : m = 2 ^ 52 ∧ e ≠ -1074
  · obtain ⟨rfl, normal⟩ := power
    rw [if_pos ⟨rfl, normal⟩] at lo
    norm_num at lo hi
    rcases lt_or_ge t (2 ^ 54) with below | above
    · have place := canonical.place
      have rounded := nearest_below_power (e := e) (by omega) (by linarith) below
      exact_mod_cast rounded
    · norm_num at above
      refine nearest_around canonical pos (.inr (by linarith)) ?_ ?_ fun _ => rfl <;>
        norm_num <;> linarith
  · rw [if_neg power, Nat.cast_sub (by omega)] at lo ends
    push_cast at lo ends
    refine nearest_around canonical pos ?_ lo hi ends
    refine or_iff_not_imp_left.2 fun normal => ?_
    have long := canonical.normal.resolve_left normal
    have longer : (2 ^ 52 + 1 : Rat) ≤ m := by
      exact_mod_cast Nat.lt_of_le_of_ne long fun same => power ⟨same.symm, normal⟩
    linarith

end

theorem nearest_shortest {m : Nat} {e : Int} (canonical : Canonical m e) (pos : 0 < m)
    (halfway : Halfway) : nearest (shortest halfway m e).value = m * 2 ^ e :=
  nearest_of_within canonical pos (within_shortest canonical pos halfway)

end ChordScript.Decimal
