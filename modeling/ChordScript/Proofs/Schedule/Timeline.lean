import ChordScript.Proofs.Schedule.ClosedForm
import Mathlib.Algebra.Order.Ring.Rat

namespace ChordScript

namespace Timed

theorem measure_pos (x : Timed) : 0 < x.measure := by
  rw [measure, ← Tempo.measure_rat]
  exact x.tempo.measure_pos

theorem step_nonneg (d : Discipline) (x : Timed) : 0 ≤ x.step d := by
  cases d with
  | measureAligned => exact x.measure_pos.le
  | sequential =>
    rw [step]
    cases h : x.length? with
    | none => rfl
    | some length => exact (length?_pos h).le

theorem sum_step_nonneg (d : Discipline) (commands : List Timed) :
    0 ≤ (commands.map (·.step d)).sum := by
  apply List.sum_nonneg
  intro step member
  obtain ⟨x, -, rfl⟩ := List.mem_map.1 member
  exact x.step_nonneg d

theorem start_and_duration {x : Timed} {start : Rat} {e : Event Rat} (h : e ∈ x.events start) :
    e.start = start ∧ (x.length? = some e.duration ∨ e.duration = x.measure) := by
  rw [events] at h
  split at h
  · split at h
    · rcases List.mem_cons.1 h with rfl | bass
      · exact ⟨rfl, .inl ‹_›⟩
      · obtain ⟨pitch, -, rfl⟩ := Option.map_eq_some_iff.1 (Option.mem_toList.1 bass)
        exact ⟨rfl, .inr rfl⟩
    · cases h
  · obtain ⟨pitch, -, rfl⟩ := Option.map_eq_some_iff.1 (Option.mem_toList.1 h)
    exact ⟨rfl, .inl ‹_›⟩
  · obtain rfl := List.mem_singleton.1 h
    exact ⟨rfl, .inl ‹_›⟩
  · cases h

theorem duration_pos {x : Timed} {start : Rat} {e : Event Rat} (h : e ∈ x.events start) :
    0 < e.duration := by
  rcases (start_and_duration h).2 with length | measure
  · exact length?_pos length
  · rw [measure]
    exact x.measure_pos

theorem step_pos {x : Timed} {start : Rat} {e : Event Rat} (h : e ∈ x.events start)
    (d : Discipline) : 0 < x.step d := by
  cases d with
  | measureAligned => exact x.measure_pos
  | sequential =>
    rw [step]
    cases written : x.length? with
    | none => simp [events, written] at h
    | some length => exact length?_pos written

theorem start_lt_finish {x : Timed} {start : Rat} {e : Event Rat} (h : e ∈ x.events start) :
    e.start < e.finish :=
  lt_add_of_pos_right e.start (duration_pos h)

theorem events_of_not_chord {x : Timed} (h : x.command.isChord = false) (start : Rat) :
    x.events start = [] ∨
      ∃ e, x.events start = [e] ∧ e.start = start ∧ e.finish = start + x.step .sequential := by
  rw [events]
  split
  · rename_i command _
    rw [command] at h
    cases h
  · rename_i pitch _ length _ written
    cases Pitch.read? pitch with
    | none => exact .inl rfl
    | some p =>
      refine .inr ⟨_, rfl, rfl, ?_⟩
      rw [step, written]
      rfl
  · rename_i length _ written
    refine .inr ⟨_, rfl, rfl, ?_⟩
    rw [step, written]
    rfl
  · exact .inl rfl

theorem pitches_of_not_chord {x : Timed} (h : x.command.isChord = false) {start : Rat}
    {e : Event Rat} (he : e ∈ x.events start) : e.pitches.length ≤ 1 := by
  rw [events] at he
  split at he
  · rename_i command _
    rw [command] at h
    cases h
  · obtain ⟨pitch, -, rfl⟩ := Option.map_eq_some_iff.1 (Option.mem_toList.1 he)
    exact Nat.le_refl 1
  · obtain rfl := List.mem_singleton.1 he
    exact Nat.zero_le 1
  · cases he

end Timed

namespace Program

theorem command_of_mem_timed {tempo : Tempo} {statements : List Statement} {x : Timed}
    (h : x ∈ timed tempo statements) :
    x.command ∈ statements.map (·.command) ∧ x.command.tempo? = none := by
  induction statements generalizing tempo with
  | nil => cases h
  | cons s rest ih =>
    rw [timed_cons] at h
    rw [List.map_cons]
    split at h
    · exact (ih h).imp_left (List.mem_cons_of_mem _)
    · rcases List.mem_cons.1 h with rfl | h
      · exact ⟨List.mem_cons_self, ‹_›⟩
      · exact (ih h).imp_left (List.mem_cons_of_mem _)

theorem exists_of_mem_placedFrom {d : Discipline} {start : Rat} {commands : List Timed}
    {e : Event Rat} (h : e ∈ placedFrom d start commands) :
    ∃ before x after, commands = before ++ x :: after ∧
      e ∈ x.events (start + (before.map (·.step d)).sum) := by
  induction commands generalizing start with
  | nil => cases h
  | cons x rest ih =>
    rcases List.mem_append.1 h with here | later
    · exact ⟨[], x, rest, rfl, by rwa [List.map_nil, List.sum_nil, add_zero]⟩
    · obtain ⟨before, y, after, rfl, found⟩ := ih later
      refine ⟨x :: before, y, after, rfl, ?_⟩
      rwa [List.map_cons, List.sum_cons, ← add_assoc]

theorem mem_placedFrom {d : Discipline} {start : Rat} {commands : List Timed} {e : Event Rat}
    (h : e ∈ placedFrom d start commands) : start ≤ e.start ∧ e.start < e.finish := by
  obtain ⟨before, x, after, -, found⟩ := exists_of_mem_placedFrom h
  refine ⟨?_, Timed.start_lt_finish found⟩
  rw [(Timed.start_and_duration found).1]
  exact le_add_of_nonneg_right (Timed.sum_step_nonneg d before)

theorem duration_pos_of_mem_placedFrom {d : Discipline} {start : Rat} {commands : List Timed}
    {e : Event Rat} (h : e ∈ placedFrom d start commands) : 0 < e.duration := by
  obtain ⟨before, x, after, -, found⟩ := exists_of_mem_placedFrom h
  exact Timed.duration_pos found

theorem pairwise_start_placedFrom (d : Discipline) (start : Rat) (commands : List Timed) :
    (placedFrom d start commands).Pairwise fun e f => e.start ≤ f.start := by
  induction commands generalizing start with
  | nil => exact .nil
  | cons x rest ih =>
    have here {e : Event Rat} (he : e ∈ x.events start) : e.start = start :=
      (Timed.start_and_duration he).1
    refine List.pairwise_append.2 ⟨?_, ih (start + x.step d), ?_⟩
    · exact List.pairwise_of_forall_mem_list fun e he f hf => ((here he).trans (here hf).symm).le
    · intro e he f hf
      rw [here he]
      exact (le_add_of_nonneg_right (x.step_nonneg d)).trans (mem_placedFrom hf).1

theorem start_lt_of_mem_placedFrom {d : Discipline} {start : Rat} {commands : List Timed}
    {e : Event Rat} (h : e ∈ placedFrom d start commands) :
    e.start < start + (commands.map (·.step d)).sum := by
  obtain ⟨before, x, after, rfl, found⟩ := exists_of_mem_placedFrom h
  rw [(Timed.start_and_duration found).1, List.map_append, List.sum_append, List.map_cons,
    List.sum_cons]
  rw [← add_assoc]
  exact lt_add_of_pos_right _
    (add_pos_of_pos_of_nonneg (Timed.step_pos found d) (Timed.sum_step_nonneg d after))

theorem pairwise_placedFrom {d : Discipline} {pick : Event Rat → Bool} {start : Rat}
    {commands : List Timed}
    (h : ∀ x ∈ commands, ∀ start, (x.events start).filter pick = [] ∨
      ∃ e, (x.events start).filter pick = [e] ∧ e.finish = start + x.step d) :
    ((placedFrom d start commands).filter pick).Pairwise fun e f => e.finish ≤ f.start := by
  induction commands generalizing start with
  | nil => exact .nil
  | cons x rest ih =>
    obtain ⟨single, others⟩ := List.forall_mem_cons.1 h
    rw [placedFrom, List.filter_append]
    rcases single start with none | ⟨e, one, finish⟩
    · rw [none]
      exact ih others
    · rw [one]
      refine List.pairwise_cons.2 ⟨?_, ih others⟩
      intro f later
      rw [finish]
      exact (mem_placedFrom (List.mem_of_mem_filter later)).1

theorem placedFrom_sequential {start : Rat} {commands : List Timed}
    (h : ∀ x ∈ commands, x.command.isChord = false) :
    (placedFrom .sequential start commands).Pairwise fun e f => e.finish ≤ f.start := by
  rw [← List.filter_true (placedFrom .sequential start commands)]
  apply pairwise_placedFrom
  intro x member start
  rw [List.filter_true]
  exact (Timed.events_of_not_chord (h x member) start).imp_right
    fun ⟨e, one, _, finish⟩ => ⟨e, one, finish⟩

theorem start_lt_finish {p : Program} {tempo : Tempo} {d : Discipline} {e : Event Rat}
    (h : e ∈ (p.place tempo d).events) : e.start < e.finish := by
  rw [place_eq, placed_eq] at h
  exact (mem_placedFrom h).2

end Program

theorem Discipline.not_isChord_of_choose {asked : Option Discipline} {commands : List Command}
    (h : choose asked commands = some .sequential) : ∀ c ∈ commands, c.isChord = false := by
  simpa using (choose_eq_sequential.1 h).2

namespace Program

section

variable {p : Program} {asked : Option Discipline} (tempo : Tempo)
  (h : Discipline.choose asked p.commands = some .sequential)

include h

theorem not_isChord_of_mem_timed : ∀ x ∈ timed tempo p.statements, x.command.isChord = false :=
  fun _ member => Discipline.not_isChord_of_choose h _ (command_of_mem_timed member).1

theorem place_sequential :
    (p.place tempo .sequential : Schedule Rat).events.Pairwise fun e f => e.finish ≤ f.start := by
  rw [place_eq, placed_eq]
  exact placedFrom_sequential (not_isChord_of_mem_timed tempo h)

end

end Program

end ChordScript
