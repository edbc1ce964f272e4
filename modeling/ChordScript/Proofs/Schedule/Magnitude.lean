import ChordScript.Proofs.Binary.Magnitude
import ChordScript.Proofs.Cue.Order
import ChordScript.Proofs.NoteValue.Grammar
import ChordScript.Proofs.Schedule.Exact

namespace ChordScript

open Binary

theorem within_number {n : Nat} (pos : 0 < n) (lt : n < Text.numberBound) :
    Within 0 32 (Seconds.ofNat n) :=
  within_ofNat pos (show n < 2 ^ 32 from lt).le (by norm_num)

theorem within_four : Within 0 2 (Seconds.ofNat Tempo.beatsPerMeasure) :=
  within_ofNat (by decide) (by decide) (by norm_num)

theorem Tempo.within_beat (t : Tempo) : Within (-32) 6 t.beat := by
  have sixty : Within 0 6 (Seconds.ofNat 60) :=
    within_ofNat (by norm_num) (by norm_num) (by norm_num)
  exact sixty.div (within_number t.bpm_pos t.bpm_lt) (by norm_num) (by norm_num)

theorem Tempo.within_measure (t : Tempo) : Within (-32) 8 t.measure :=
  t.within_beat.mul within_four (by norm_num) (by norm_num)

namespace NoteValue

theorem within_wholeNotes {v : NoteValue} (positive : v.IsPositive) (small : v.IsSmall) :
    Within (-33) 32 v.wholeNotes := by
  have one : Within 0 0 (Seconds.ofNat 1) :=
    within_ofNat (by norm_num) (by norm_num) (by norm_num)
  cases v with
  | measures n =>
    exact (within_number positive small).mono (by norm_num) (by norm_num)
  | division d dotted =>
    have plain := one.div (within_number positive small) (by norm_num) (by norm_num)
    cases dotted with
    | false => exact plain.mono (by norm_num) (by norm_num)
    | true =>
      have three : Within 0 2 (Seconds.ofNat 3) :=
        within_ofNat (by norm_num) (by norm_num) (by norm_num)
      have two : Within 0 1 (Seconds.ofNat 2) :=
        within_ofNat (by norm_num) (by norm_num) (by norm_num)
      have dot := three.div two (by norm_num) (by norm_num)
      exact (plain.mul dot (by norm_num) (by norm_num)).mono (by norm_num) (by norm_num)
  | fraction n d =>
    have numerator := within_number positive.1 small.1
    have denominator := within_number positive.2 small.2
    exact (numerator.div denominator (by norm_num) (by norm_num)).mono (by norm_num) (by norm_num)

theorem within_seconds {v : NoteValue} (positive : v.IsPositive) (small : v.IsSmall) (t : Tempo) :
    Within (-65) 40 (v.seconds t) := by
  have beats := (within_wholeNotes positive small).mul within_four (by norm_num) (by norm_num)
  exact beats.mul t.within_beat (by norm_num) (by norm_num)

end NoteValue

namespace Binary

/-- A time that a schedule can reach: lengths go under in the bound, so that no sum passes it. -/
def Reached (x : Float) : Prop := ∃ q, Holds x q ∧ q ≤ 2 ^ 94

theorem holds_zero : Holds Seconds.zero 0 := by
  have held := holds_ofNat (n := 0) (by norm_num)
  rw [Nat.cast_zero] at held
  exact held

theorem reached_zero : Reached Seconds.zero := ⟨0, holds_zero, by positivity⟩

namespace Reached

variable {x y : Float} {k : Int}

theorem holds (hx : Reached x) : Holds x (value x) ∧ value x ≤ 2 ^ 94 := by
  obtain ⟨s, hs, s_le⟩ := hx
  rw [hs.value_eq]
  exact ⟨hs, s_le⟩

theorem holds_add (hx : Reached x) (hy : Within k 40 y) :
    Holds (x + y) (nearest (value x + value y)) ∧ nearest (value x + value y) ≤ 2 ^ 94 := by
  obtain ⟨x_holds, x_le⟩ := hx.holds
  obtain ⟨y_holds, -, y_le⟩ := hy.holds
  have low : value y ≤ 2 ^ (94 - 53 : Int) :=
    y_le.trans (zpow_le_zpow_right₀ one_le_two (by norm_num))
  have le := nearest_add_le_two_zpow (by norm_num) x_holds.nonneg x_le y_holds.nonneg low
  exact ⟨x_holds.add y_holds (lt_zpow_of_le (k := 94) le (by norm_num)), le⟩

theorem add (hx : Reached x) (hy : Within k 40 y) : Reached (x + y) := ⟨_, hx.holds_add hy⟩

theorem value_add (hx : Reached x) (hy : Within k 40 y) :
    value (x + y) = nearest (value x + value y) :=
  (hx.holds_add hy).1.value_eq

end Reached

end Binary

theorem Command.within_writtenSeconds {c : Command} {tempo : Tempo} {x : Float}
    (h : c.writtenSeconds? tempo = some x) : Within (-65) 40 x := by
  obtain ⟨v, read, rfl⟩ := Option.map_eq_some_iff.1 h
  obtain ⟨token, -, read⟩ := Option.bind_eq_some_iff.1 read
  exact NoteValue.within_seconds (NoteValue.isPositive_of_read? read)
    (NoteValue.isSmall_of_read? read) tempo

theorem Cursor.offset_advance_within (c : Cursor Float) {x : Float} {lo hi : Int}
    (h : Within lo hi x) : (c.advance x).offset = c.offset + x := by
  obtain ⟨q, hq, le, -⟩ := h
  have pos : Seconds.zero < x := (holds_zero.lt_iff hq).2 ((zpow_pos two_pos lo).trans_le le)
  have finite : Seconds.isFinite x = true := hq.isFinite
  simp [advance, finite, pos]

theorem Discipline.reached_advance (d : Discipline) (tempo : Tempo) (c : Command)
    {cursor : Cursor Float} (h : Reached cursor.offset) :
    Reached (d.advance tempo c cursor).offset := by
  cases d with
  | measureAligned =>
    have measure := tempo.within_measure.mono le_rfl (by norm_num : (8 : Int) ≤ 40)
    rw [advance, Cursor.advanceMeasure, Cursor.offset_advance_within _ measure]
    exact h.add measure
  | sequential =>
    rw [advance]
    split
    · rename_i x written
      have length := Command.within_writtenSeconds written
      rw [Cursor.offset_advance_within _ length]
      exact h.add length
    · exact h

structure Event.Placed (e : Event Float) : Prop where
  start : Reached e.start
  duration : Within (-65) 40 e.duration

namespace Event

def Vanishes (e : Event Float) : Prop := Absorbed (value e.start) (value e.duration)

instance : DecidablePred Vanishes := fun _ => inferInstanceAs (Decidable (Absorbed _ _))

namespace Placed

variable {e : Event Float} (h : e.Placed)

include h

theorem finish : Reached e.finish := h.start.add h.duration

theorem value_finish : value e.finish = nearest (value e.start + value e.duration) :=
  h.start.value_add h.duration

theorem start_lt_finish_iff : e.start < e.finish ↔ ¬ e.Vanishes := by
  have start := h.start.holds.1
  have duration := h.duration.holds.1
  rw [start.lt_iff h.finish.holds.1, h.value_finish]
  exact lt_nearest_add_iff start.nonneg start.nearest_eq duration.nonneg

theorem not_finish_lt_start : ¬ e.finish < e.start := by
  have start := h.start.holds.1
  have duration := h.duration.holds.1
  rw [h.finish.holds.1.lt_iff start, h.value_finish, not_lt]
  exact le_nearest_add start.nonneg start.nearest_eq duration.nonneg

theorem not_vanishes_of_lt (lt : value e.start < 2 ^ 53 * value e.duration) : ¬ e.Vanishes :=
  not_absorbed_of_lt h.start.holds.1.nonneg lt
    ((zpow_le_zpow_right₀ one_le_two (by norm_num)).trans h.duration.holds.2.1)

end Placed

end Event

theorem Command.placed_of_mem {c : Command} {tempo : Tempo} {start : Float}
    {events : List (Event Float)} (h : c.events tempo start = .ok events) (reached : Reached start)
    {e : Event Float} (he : e ∈ events) : e.Placed := by
  obtain ⟨rfl, written | ⟨-, -, measure⟩⟩ := mem_events h he
  · exact ⟨reached, within_writtenSeconds written⟩
  · have small : (NoteValue.division 1 false).IsSmall := show 1 < 2 ^ 32 by norm_num
    refine ⟨reached, ?_⟩
    rw [measure]
    exact NoteValue.within_seconds (by decide) small tempo

namespace Walk

theorem reached_next (d : Discipline) {w : Walk Float} (c : Command)
    (h : Reached w.cursor.offset) : Reached (w.next d c).cursor.offset := by
  cases c with
  | setTempo tempo => exact h
  | chord | note | rest => exact d.reached_advance _ _ h

theorem reached_finish (d : Discipline) {w : Walk Float} (statements : List Statement)
    (h : Reached w.cursor.offset) : Reached (w.finish d statements).cursor.offset := by
  induction statements generalizing w with
  | nil => exact h
  | cons s rest ih => exact ih (reached_next d s.command h)

theorem placed_of_mem_outcomes (d : Discipline) {w : Walk Float} (statements : List Statement)
    (h : Reached w.cursor.offset) {e : Event Float}
    (he : e ∈ (outcomes d w statements).flatMap (·.2.events)) : e.Placed := by
  induction statements generalizing w with
  | nil => cases he
  | cons s rest ih =>
    rw [outcomes, List.flatMap_cons] at he
    rcases List.mem_append.1 he with here | later
    · obtain ⟨events, resolved, here⟩ := events_of_mem_outcome here
      exact Command.placed_of_mem resolved h here
    · exact ih (reached_next d s.command h) later

end Walk

theorem Program.placed_of_mem_place {p : Program} {tempo : Tempo} {d : Discipline} {e : Event Float}
    (h : e ∈ (p.place tempo d : Schedule Float).events) : e.Placed := by
  have reached : Reached (Walk.start tempo).cursor.offset := reached_zero
  rw [place] at h
  exact Walk.placed_of_mem_outcomes d p.statements reached h

namespace Schedule

variable {s : Schedule Float}

theorem placed_of_schedule {p : Program} {context : Context} (h : p.schedule context = .ok s)
    {e : Event Float} (he : e ∈ s.events) : e.Placed := by
  obtain ⟨d, -, rfl, -⟩ := Program.schedule_eq_ok.1 h
  exact Program.placed_of_mem_place he

theorem isTimed_of_placed (h : ∀ e ∈ s.events, e.Placed) : s.IsTimed :=
  fun e he => ⟨(h e he).start.holds.1.isNaN, (h e he).finish.holds.1.isNaN⟩

end Schedule

end ChordScript
