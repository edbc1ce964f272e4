import ChordScript.Proofs.Schedule.Timeline
import Mathlib.Tactic.Linarith

namespace ChordScript

def gapsFrom (ended : Rat) : List (Event Rat) → Rat → List Rat
  | [], finish => [finish - ended]
  | e :: rest, finish => (e.start - ended) :: gapsFrom e.finish rest finish

def Schedule.gaps (s : Schedule Rat) : List Rat := gapsFrom 0 s.events s.finalCursor

/-- How long the dropped commands take, counted from event to event: the commands that no diagnostic
is about are where the counting starts again. -/
def Timed.droppedLengths (commands : List Timed) : List Rat :=
  (commands.splitOnP (·.diagnostic?.isNone)).map fun dropped => (dropped.filterMap length?).sum

namespace Timed

theorem events_of_dropped {x : Timed} (h : x.diagnostic?.isNone = false) (start : Rat) :
    x.events start = [] := by
  apply events_of_faults
  intro fine
  simp [diagnostic?, fine] at h

theorem faults_of_events_eq_nil {x : Timed} {start : Rat} (timed : x.command.tempo? = none)
    (single : x.command.isChord = false) (h : x.events start = []) : x.command.faults ≠ [] := by
  obtain ⟨line, command, tempo⟩ := x
  cases command with
  | setTempo t => cases timed
  | chord root quality duration => cases single
  | note pitch duration =>
    cases hd : NoteValue.read? duration <;> cases hp : Pitch.read? pitch <;>
      simp_all [events, length?, Command.duration?, Command.faults, Command.faultOf]
  | rest duration =>
    cases hd : NoteValue.read? duration <;>
      simp_all [events, length?, Command.duration?, Command.faults, Command.faultOf]

theorem events_of_placed {x : Timed} (timed : x.command.tempo? = none)
    (single : x.command.isChord = false) (h : x.diagnostic?.isNone = true) (start : Rat) :
    ∃ e, x.events start = [e] ∧ e.start = start ∧ e.finish = start + x.step .sequential := by
  rcases events_of_not_chord single start with none | one
  · have faulty := faults_of_events_eq_nil timed single none
    rw [diagnostic?, Option.isNone_iff_eq_none, Option.map_eq_none_iff,
      List.head?_eq_none_iff] at h
    exact absurd h faulty
  · exact one

theorem sum_length? (commands : List Timed) :
    (commands.filterMap length?).sum = (commands.map (·.step .sequential)).sum := by
  induction commands with
  | nil => rfl
  | cons x rest ih =>
    rw [List.filterMap_cons, List.map_cons, List.sum_cons, ← ih, step]
    cases x.length? with
    | none => exact (zero_add _).symm
    | some length => rfl

theorem droppedLengths_cons (x : Timed) (rest : List Timed) :
    droppedLengths (x :: rest) =
      if x.diagnostic?.isNone then 0 :: droppedLengths rest
      else (droppedLengths rest).modifyHead (x.step .sequential + ·) := by
  rw [droppedLengths, List.splitOnP_cons_eq_if_modifyHead]
  split
  · rfl
  · rw [droppedLengths]
    cases h : rest.splitOnP (·.diagnostic?.isNone) with
    | nil => exact absurd h (List.splitOnP_ne_nil _ _)
    | cons dropped others => simp [sum_length?]

end Timed

theorem Schedule.soundingEnd_eq {s : Schedule Rat} (h : ∀ e ∈ s.events, e.finish ≤ s.finalCursor) :
    s.soundingEnd = s.finalCursor := by
  have stays (ends : List Rat) (early : ∀ t ∈ ends, t ≤ s.finalCursor) :
      ends.foldl Seconds.later s.finalCursor = s.finalCursor := by
    induction ends with
    | nil => rfl
    | cons t rest ih =>
      obtain ⟨first, others⟩ := List.forall_mem_cons.1 early
      have not_later : Seconds.later s.finalCursor t = s.finalCursor := by
        rw [Seconds.later]
        split
        · rfl
        · rename_i not_earlier
          simp only [Seconds.lt_rat, Bool.or_eq_true, decide_eq_true_eq, not_or, not_lt]
            at not_earlier
          exact le_antisymm first not_earlier.2
      rw [List.foldl_cons, not_later, ih others]
  apply stays
  intro t member
  obtain ⟨e, he, rfl⟩ := List.mem_map.1 member
  exact h e he

theorem modifyHead_zero_add (lengths : List Rat) : lengths.modifyHead (0 + ·) = lengths := by
  cases lengths with
  | nil => rfl
  | cons length rest => rw [List.modifyHead_cons, zero_add]

namespace Program

theorem gapsFrom_placedFrom {commands : List Timed}
    (timed : ∀ x ∈ commands, x.command.tempo? = none)
    (single : ∀ x ∈ commands, x.command.isChord = false) (ended start : Rat) :
    gapsFrom ended (placedFrom .sequential start commands)
        (start + (commands.map (·.step .sequential)).sum) =
      (Timed.droppedLengths commands).modifyHead (start - ended + ·) := by
  induction commands generalizing ended start with
  | nil => simp [placedFrom, gapsFrom, Timed.droppedLengths]
  | cons x rest ih =>
    obtain ⟨x_timed, others⟩ := List.forall_mem_cons.1 timed
    obtain ⟨x_single, others_single⟩ := List.forall_mem_cons.1 single
    rw [placedFrom, List.map_cons, List.sum_cons, ← add_assoc, Timed.droppedLengths_cons]
    cases placed : x.diagnostic?.isNone with
    | true =>
      -- The gap before the event is closed, and counting starts again where the event is over.
      obtain ⟨e, one, begins, finish⟩ := Timed.events_of_placed x_timed x_single placed start
      have later := ih others others_single e.finish e.finish
      rw [one, List.singleton_append, gapsFrom, begins, ← finish, later, sub_self,
        modifyHead_zero_add]
      simp
    | false =>
      have later := ih others others_single ended (start + x.step .sequential)
      rw [Timed.events_of_dropped placed, List.nil_append, later]
      simp only [Bool.false_eq_true, ↓reduceIte, List.modifyHead_modifyHead, Function.comp_def]
      congr 1
      funext length
      ring

theorem finish_le_of_mem_placedFrom {start : Rat} {commands : List Timed} {e : Event Rat}
    (single : ∀ x ∈ commands, x.command.isChord = false)
    (h : e ∈ placedFrom .sequential start commands) :
    e.finish ≤ start + (commands.map (·.step .sequential)).sum := by
  obtain ⟨before, x, after, rfl, found⟩ := exists_of_mem_placedFrom h
  have x_single : x.command.isChord = false :=
    single x (List.mem_append_right _ List.mem_cons_self)
  rcases Timed.events_of_not_chord x_single _ with none | ⟨f, one, -, finish⟩
  · rw [none] at found
    cases found
  · rw [one, List.mem_singleton] at found
    rw [found, finish, List.map_append, List.sum_append, List.map_cons, List.sum_cons]
    linarith [Timed.sum_step_nonneg .sequential after]

section

variable {p : Program} {asked : Option Discipline} (tempo : Tempo)
  (h : Discipline.choose asked p.commands = some .sequential)

include h

theorem gaps_sequential :
    (p.place tempo .sequential).gaps = Timed.droppedLengths (timed tempo p.statements) := by
  have gaps := gapsFrom_placedFrom (fun x member => (command_of_mem_timed member).2)
    (not_isChord_of_mem_timed tempo h) 0 0
  rw [zero_add] at gaps
  rw [Schedule.gaps, place_eq, placed_eq, gaps, sub_self, modifyHead_zero_add]

theorem soundingEnd_sequential :
    (p.place tempo .sequential : Schedule Rat).soundingEnd =
      (p.place tempo .sequential : Schedule Rat).finalCursor := by
  rw [place_eq, placed_eq]
  apply Schedule.soundingEnd_eq
  intro e he
  have early := finish_le_of_mem_placedFrom (not_isChord_of_mem_timed tempo h) he
  rwa [zero_add] at early

end

end Program

end ChordScript
