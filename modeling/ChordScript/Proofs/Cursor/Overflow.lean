import ChordScript.Proofs.Schedule.Magnitude

namespace ChordScript

open Binary

inductive Move
  | seconds (x : Float)
  | measure (tempo : Tempo)

def Move.length : Move → Float
  | .seconds x => x
  | .measure tempo => tempo.measure

namespace Cursor

variable {c : Cursor Float} {m : Move}

def move (c : Cursor Float) : Move → Cursor Float
  | .seconds x => c.advance x
  | .measure tempo => c.advanceMeasure tempo

def run (c : Cursor Float) (moves : List Move) : Cursor Float := moves.foldl move c

structure Usable (before after : Cursor Float) : Prop where
  finite : after.offset.isFinite = true
  nonneg : 0 ≤ after.offset
  forward : before.offset ≤ after.offset

/-- The guard lets the length pass, and the sum is nearer to `2 ^ 1024` than to any finite number. -/
structure Exceeds (c : Cursor Float) (m : Move) : Prop where
  finite : m.length.isFinite = true
  pos : 0 < value m.length
  large : overflow ≤ value c.offset + value m.length

def Overflows : Cursor Float → List Move → Prop
  | _, [] => False
  | c, m :: moves => c.Exceeds m ∨ (c.move m).Overflows moves

def Counts (c : Cursor Float) : Prop :=
  Holds c.offset (value c.offset) ∨ IsInfinite c.offset

theorem counts_start : Counts start := .inl <| by
  rw [show start.offset = Seconds.zero from rfl, holds_zero.value_eq]
  exact holds_zero

theorem offset_move (c : Cursor Float) (m : Move) :
    (c.move m).offset = (c.advance m.length).offset := by
  cases m <;> rfl

theorem offset_move_of_pos (finite : m.length.isFinite = true) (pos : 0 < value m.length) :
    (c.move m).offset = c.offset + m.length := by
  have after : Seconds.zero < m.length := (sign_iff finite).2.2 pos
  have guard : Seconds.isFinite m.length = true := finite
  simp [offset_move, advance, guard, after]

theorem offset_move_of_not (h : ¬ (m.length.isFinite = true ∧ 0 < value m.length)) :
    (c.move m).offset = c.offset := by
  rw [offset_move, advance, if_neg]
  intro passed
  obtain ⟨finite, after⟩ := Bool.and_eq_true_iff.1 passed
  exact h ⟨finite, (sign_iff finite).2.1 (of_decide_eq_true after)⟩

section

variable (h : Holds c.offset (value c.offset))

include h

theorem isInfinite_move_of_exceeds (exceeds : c.Exceeds m) : IsInfinite (c.move m).offset := by
  rw [offset_move_of_pos exceeds.finite exceeds.pos]
  exact h.add_of_overflow (holds_of_pos exceeds.pos) exceeds.large

theorem holds_move (within : ¬ c.Exceeds m) :
    ∃ q, Holds (c.move m).offset q ∧ value c.offset ≤ q ∧
      ∀ k : Int, -1022 ≤ k → value c.offset ≤ 2 ^ k → value m.length ≤ 2 ^ (k - 53) → q ≤ 2 ^ k := by
  by_cases guard : m.length.isFinite = true ∧ 0 < value m.length
  · obtain ⟨finite, pos⟩ := guard
    have small : nearest (value c.offset + value m.length) < 2 ^ (1024 : Int) := by
      rw [← not_le, two_zpow_le_nearest_iff (add_nonneg h.nonneg pos.le)]
      exact fun large => within ⟨finite, pos, large⟩
    rw [offset_move_of_pos finite pos]
    exact ⟨_, h.add (holds_of_pos pos) small, le_nearest_add h.nonneg h.nearest_eq pos.le,
      fun k hk le length => nearest_add_le_two_zpow hk h.nonneg le pos.le length⟩
  · rw [offset_move_of_not guard]
    exact ⟨_, h, le_rfl, fun _ _ le _ => le⟩

end

theorem isInfinite_move (h : IsInfinite c.offset) (m : Move) : IsInfinite (c.move m).offset := by
  by_cases guard : m.length.isFinite = true ∧ 0 < value m.length
  · rw [offset_move_of_pos guard.1 guard.2]
    exact h.add (holds_of_pos guard.2)
  · rwa [offset_move_of_not guard]

namespace Counts

variable (h : c.Counts)

include h

theorem isNaN : c.offset.isNaN = false := h.elim (·.isNaN) (·.isNaN)

theorem nonneg : 0 ≤ c.offset := by
  rcases h with h | h
  · exact (holds_zero.le_iff h).2 h.nonneg
  · exact h.le rfl

theorem isFinite_iff : c.offset.isFinite = true ↔ Holds c.offset (value c.offset) := by
  constructor
  · intro finite
    refine h.resolve_right fun infinite => ?_
    rw [infinite.isFinite] at finite
    cases finite
  · exact fun h => h.isFinite

theorem move (m : Move) : (c.move m).Counts := by
  rcases h with h | h
  · by_cases exceeds : c.Exceeds m
    · exact .inr (isInfinite_move_of_exceeds h exceeds)
    · obtain ⟨q, holds, -⟩ := holds_move h exceeds
      exact .inl (holds.value_eq.symm ▸ holds)
  · exact .inr (isInfinite_move h m)

theorem isFinite_move_iff (m : Move) :
    (c.move m).offset.isFinite = true ↔ c.offset.isFinite = true ∧ ¬ c.Exceeds m := by
  rcases h with h | h
  · by_cases exceeds : c.Exceeds m
    · simp [(isInfinite_move_of_exceeds h exceeds).isFinite, exceeds]
    · obtain ⟨q, holds, -⟩ := holds_move h exceeds
      simp [holds.isFinite, h.isFinite, exceeds]
  · simp [(isInfinite_move h m).isFinite, h.isFinite]

theorem le_move (m : Move) : c.offset ≤ (c.move m).offset := by
  rcases h.move m with after | after
  · obtain ⟨finite, within⟩ := (h.isFinite_move_iff m).1 after.isFinite
    have before := h.isFinite_iff.1 finite
    obtain ⟨q, holds, le, -⟩ := holds_move before within
    exact (before.le_iff holds).2 le
  · exact after.le h.isNaN

theorem run (moves : List Move) : (c.run moves).Counts := by
  induction moves generalizing c with
  | nil => exact h
  | cons m moves ih => exact ih (h.move m)

theorem isFinite_run_iff (moves : List Move) :
    (c.run moves).offset.isFinite = true ↔ c.offset.isFinite = true ∧ ¬ c.Overflows moves := by
  induction moves generalizing c with
  | nil => simp [Cursor.run, Overflows]
  | cons m moves ih =>
    change ((c.move m).run moves).offset.isFinite = true ↔ _
    rw [ih (h.move m), h.isFinite_move_iff, Overflows, not_or, and_assoc]

end Counts

def Short (m : Move) : Prop := ∀ x, m = .seconds x → value x ≤ 2 ^ 970

theorem Short.length (h : Short m) : value m.length ≤ 2 ^ (1023 - 53 : Int) := by
  cases m with
  | seconds x => exact (h x rfl).trans_eq (by norm_num)
  | measure tempo =>
    exact tempo.within_measure.holds.2.2.trans (zpow_le_zpow_right₀ one_le_two (by norm_num))

theorem low_run {moves : List Move} (short : ∀ m ∈ moves, Short m)
    (h : Holds c.offset (value c.offset) ∧ value c.offset ≤ 2 ^ (1023 : Int)) :
    Holds (c.run moves).offset (value (c.run moves).offset) ∧
      value (c.run moves).offset ≤ 2 ^ (1023 : Int) := by
  induction moves generalizing c with
  | nil => exact h
  | cons m moves ih =>
    obtain ⟨first, others⟩ := List.forall_mem_cons.1 short
    obtain ⟨holds, low⟩ := h
    have within : ¬ c.Exceeds m := fun exceeds => by
      have room : 2 ^ (1023 : Int) + 2 ^ (1023 - 53 : Int) < overflow := by decide +kernel
      exact (exceeds.large.trans (add_le_add low first.length)).not_gt room
    obtain ⟨q, after, -, bound⟩ := holds_move holds within
    apply ih others
    rw [after.value_eq]
    exact ⟨after, bound 1023 (by norm_num) low first.length⟩

/-- No move takes a cursor back or below zero, and each leaves it usable as long as none takes it too
far. None ever does among measures and lengths up to `2 ^ 970` seconds, however many there are. -/
theorem usable_move_iff (moves : List Move) (m : Move) :
    let c : Cursor Float := start.run moves
    (0 ≤ (c.move m).offset ∧ c.offset ≤ (c.move m).offset) ∧
    (Usable c (c.move m) ↔ ¬ start.Overflows (moves ++ [m])) ∧
    ((∀ x, .seconds x ∈ moves ++ [m] → value x ≤ 2 ^ 970) → Usable c (c.move m)) := by
  intro c
  have counts : c.Counts := counts_start.run moves
  have order : 0 ≤ (c.move m).offset ∧ c.offset ≤ (c.move m).offset :=
    ⟨(counts.move m).nonneg, counts.le_move m⟩
  have last : c.move m = start.run (moves ++ [m]) := by simp [c, run]
  have usable : Usable c (c.move m) ↔ (c.move m).offset.isFinite = true :=
    ⟨(·.finite), fun finite => ⟨finite, order.1, order.2⟩⟩
  refine ⟨order, ?_, fun short => ?_⟩
  · rw [usable, last, counts_start.isFinite_run_iff]
    exact and_iff_right rfl
  · rw [usable, last]
    have low : value (start : Cursor Float).offset ≤ 2 ^ (1023 : Int) := by
      rw [show start.offset = Seconds.zero from rfl, holds_zero.value_eq]
      positivity
    have all : ∀ m' ∈ moves ++ [m], Short m' := fun m' mem x same => short x (same ▸ mem)
    exact (low_run all ⟨counts_start.isFinite_iff.1 rfl, low⟩).1.isFinite

namespace Overflow

def moves : List Move := [.seconds 0.5, .seconds (-1), .seconds (0 / 0), .measure { bpm := 24 }]

theorem usable_move_iff_guarded :
    let c : Cursor Float := start.run moves
    (∀ x, .seconds x ∈ moves ++ [.measure .standard] → value x ≤ 2 ^ 970) ∧
      Usable c (c.move (.measure .standard)) ∧ (c.move (.measure .standard)).offset = 12.5 := by
  intro c
  have short : ∀ x, .seconds x ∈ moves ++ [.measure .standard] → value x ≤ 2 ^ 970 := by
    simp only [moves, List.mem_append, List.mem_cons, List.not_mem_nil, Move.seconds.injEq,
      reduceCtorEq, or_false]
    rintro x (rfl | rfl | rfl) <;> decide +kernel
  exact ⟨short, (usable_move_iff moves (.measure .standard)).2.2 short, by decide +kernel⟩

theorem not_forall_usable :
    ¬ ∀ (moves : List Move) (m : Move),
      Usable (start.run moves) (((start : Cursor Float).run moves).move m) := by
  intro usable
  let most : Move := .seconds (.ofBits 0x7FEFFFFFFFFFFFFF)
  have lost : (((start : Cursor Float).run [most]).move most).offset.isFinite = false := by
    decide +kernel
  rw [(usable [most] most).finite] at lost
  cases lost

end Overflow

end Cursor

end ChordScript
