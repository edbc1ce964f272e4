import ChordScript.Proofs.Compile.Merge
import ChordScript.Proofs.Schedule.ClosedForm
import Mathlib.Data.List.Forall2

namespace ChordScript

open List (Forall₂)

variable {τ : Type} [Seconds τ]

namespace Command

def Resolves : Command → Prop
  | .setTempo _ => False
  | .chord root quality duration =>
    (Quality.read? quality).isSome ∧ (Pitch.read? root).isSome ∧ (NoteValue.read? duration).isSome
  | .note pitch duration => (NoteValue.read? duration).isSome ∧ (Pitch.read? pitch).isSome
  | .rest duration => (NoteValue.read? duration).isSome

instance : DecidablePred Resolves
  | .setTempo _ => inferInstanceAs (Decidable False)
  | .chord root quality duration => inferInstanceAs (Decidable ((Quality.read? quality).isSome ∧
    (Pitch.read? root).isSome ∧ (NoteValue.read? duration).isSome))
  | .note pitch duration =>
    inferInstanceAs (Decidable ((NoteValue.read? duration).isSome ∧ (Pitch.read? pitch).isSome))
  | .rest duration => inferInstanceAs (Decidable ((NoteValue.read? duration).isSome))

theorem resolves_iff {c : Command} : c.Resolves ↔ c.tempo? = none ∧ c.faults = [] := by
  cases c <;> simp [Resolves, tempo?, faults, faultOf, Option.isSome_iff_ne_none]

theorem exists_fault {c : Command} (timed : c.tempo? = none) (h : ¬ c.Resolves) :
    ∃ error, c.faults.head? = some error := by
  have faulty : c.faults ≠ [] := fun fine => h (resolves_iff.2 ⟨timed, fine⟩)
  exact ⟨c.faults.head faulty, List.head?_eq_some_head faulty⟩

section

attribute [local simp] events readQuality readPitch readNoteValue bind Except.bind pure Except.pure

theorem events_of_resolves {c : Command} (h : c.Resolves) (tempo : Tempo) (start : τ) :
    ∃ e es, c.events tempo start = .ok (e :: es) := by
  cases c with
  | setTempo t => cases h
  | chord root quality duration =>
    obtain ⟨hq, hr, hd⟩ := h
    obtain ⟨q, hq⟩ := Option.isSome_iff_exists.1 hq
    obtain ⟨r, hr⟩ := Option.isSome_iff_exists.1 hr
    obtain ⟨v, hd⟩ := Option.isSome_iff_exists.1 hd
    simp [hq, hr, hd, chordEvents]
  | note pitch duration =>
    obtain ⟨hd, hp⟩ := h
    obtain ⟨v, hd⟩ := Option.isSome_iff_exists.1 hd
    obtain ⟨p, hp⟩ := Option.isSome_iff_exists.1 hp
    simp [hd, hp]
  | rest duration =>
    obtain ⟨v, hd⟩ := Option.isSome_iff_exists.1 h
    simp [hd]

theorem events_eq_error_iff {c : Command} {error : ScriptError} (tempo : Tempo) (start : τ) :
    c.events tempo start = .error error ↔ c.faults.head? = some error := by
  cases c with
  | setTempo t => simp [faults]
  | chord root quality duration =>
    cases hq : Quality.read? quality <;> cases hr : Pitch.read? root <;>
      cases hd : NoteValue.read? duration <;> simp [faults, faultOf, hq, hr, hd]
  | note pitch duration =>
    cases hd : NoteValue.read? duration <;> cases hp : Pitch.read? pitch <;>
      simp [faults, faultOf, hd, hp]
  | rest duration =>
    cases hd : NoteValue.read? duration <;> simp [faults, faultOf, hd]

end

end Command

namespace Discipline

/-- The commands go with no discipline, or not with the one that is asked for. -/
def Clashes (asked : Option Discipline) (commands : List Command) : Prop :=
  ((∃ c ∈ commands, c.isChord) ∧ ∃ c ∈ commands, c.isNote) ∨
    (asked = some .sequential ∧ ∃ c ∈ commands, c.isChord) ∨
    (asked = some .measureAligned ∧ ∃ c ∈ commands, c.isNote)

def suited (asked : Option Discipline) (commands : List Command) : Discipline :=
  asked.getD (if commands.any (·.isChord) then .measureAligned else .sequential)

theorem choose_eq_none {asked : Option Discipline} {commands : List Command} :
    choose asked commands = none ↔ Clashes asked commands := by
  simp only [Clashes, ← List.any_eq_true, choose]
  cases commands.any (·.isChord) <;> cases commands.any (·.isNote) <;> cases asked with
  | none => simp
  | some d => cases d <;> simp

theorem eq_suited_of_choose {asked : Option Discipline} {commands : List Command} {d : Discipline}
    (h : choose asked commands = some d) : d = suited asked commands := by
  unfold choose at h
  rw [suited]
  generalize commands.any (·.isChord) = chords at h ⊢
  generalize commands.any (·.isNote) = notes at h
  cases chords <;> cases notes <;> cases asked with
  | none => simp_all
  | some d => cases d <;> simp_all

end Discipline

def Statement.Reports (s : Statement) (x : Diagnostic) : Prop :=
  x.line = s.line ∧ s.command.faults.head? = some x.error

theorem Statement.reports_rightUnique : Relator.RightUnique Statement.Reports := by
  rintro s ⟨line, error⟩ ⟨line', error'⟩ ⟨rfl, fault⟩ ⟨rfl, fault'⟩
  cases fault.symm.trans fault'
  rfl

namespace Walk

theorem outcome_of_resolves {c : Command} (h : c.Resolves) (w : Walk τ) :
    ∃ e es, w.outcome c = .placed (e :: es) := by
  obtain ⟨e, es, resolved⟩ := Command.events_of_resolves h w.tempo w.cursor.offset
  exact ⟨e, es, by rw [outcome_eq w (Command.resolves_iff.1 h).1, resolved]⟩

theorem outcome_eq_dropped_iff (w : Walk τ) (c : Command) (error : ScriptError) :
    w.outcome c = .dropped error ↔ c.faults.head? = some error := by
  cases timed : c.tempo? with
  | some t =>
    cases c <;> cases timed
    simp [outcome, Command.faults]
  | none =>
    rw [outcome_eq w timed, ← Command.events_eq_error_iff w.tempo w.cursor.offset]
    cases c.events w.tempo w.cursor.offset <;> simp

theorem events_outcome_eq_nil (w : Walk τ) (c : Command) :
    (w.outcome c).events = [] ↔ ¬ c.Resolves := by
  by_cases h : c.Resolves
  · obtain ⟨e, es, placed⟩ := outcome_of_resolves h w
    simp [placed, Outcome.events, h]
  · simp only [h, not_false_eq_true, iff_true]
    cases timed : c.tempo? with
    | some t =>
      rw [outcome_tempo w timed]
      rfl
    | none =>
      obtain ⟨error, faulty⟩ := Command.exists_fault timed h
      rw [(outcome_eq_dropped_iff w c error).2 faulty]
      rfl

theorem resolves_iff_placed (w : Walk τ) (c : Command) :
    c.Resolves ↔ ∃ e es, w.outcome c = .placed (e :: es) := by
  refine ⟨fun h => outcome_of_resolves h w, ?_⟩
  rintro ⟨e, es, placed⟩
  by_contra h
  rw [← events_outcome_eq_nil w, placed] at h
  cases h

theorem events_outcomes_eq_nil (d : Discipline) (w : Walk τ) (statements : List Statement) :
    (outcomes d w statements).flatMap (·.2.events) = [] ↔
      ∀ s ∈ statements, ¬ s.command.Resolves := by
  induction statements generalizing w with
  | nil => simp [outcomes]
  | cons s rest ih =>
    rw [outcomes, List.flatMap_cons, List.append_eq_nil_iff, ih, events_outcome_eq_nil,
      List.forall_mem_cons]

theorem reports_outcomes (d : Discipline) (w : Walk τ) (statements : List Statement) :
    Forall₂ Statement.Reports
      (statements.filter fun s => s.command.tempo? = none ∧ ¬ s.command.Resolves)
      ((outcomes d w statements).filterMap Outcome.diagnostic?) := by
  induction statements generalizing w with
  | nil => exact .nil
  | cons s rest ih =>
    rw [outcomes, List.filterMap_cons, List.filter_cons]
    by_cases h : s.command.Resolves
    · obtain ⟨e, es, placed⟩ := outcome_of_resolves h w
      simpa [placed, Outcome.diagnostic?, h] using ih (w.next d s.command)
    · cases timed : s.command.tempo? with
      | some t => simpa [outcome_tempo w timed, Outcome.diagnostic?] using ih (w.next d s.command)
      | none =>
        obtain ⟨error, faulty⟩ := Command.exists_fault timed h
        have dropped := (outcome_eq_dropped_iff w s.command error).2 faulty
        simpa [dropped, Outcome.diagnostic?, h] using
          Forall₂.cons ⟨rfl, faulty⟩ (ih (w.next d s.command))

end Walk

namespace Program

theorem place_events_eq_nil (p : Program) (tempo : Tempo) (d : Discipline) :
    (p.place tempo d : Schedule τ).events = [] ↔ ∀ c ∈ p.commands, ¬ c.Resolves := by
  rw [commands, List.forall_mem_map]
  exact Walk.events_outcomes_eq_nil d (.start tempo) p.statements

theorem reports_place {p : Program} (idle : ∀ c ∈ p.commands, ¬ c.Resolves) (tempo : Tempo)
    (d : Discipline) :
    Forall₂ Statement.Reports (p.statements.filter (·.command.tempo? = none))
      (p.place tempo d : Schedule τ).diagnostics := by
  rw [commands, List.forall_mem_map] at idle
  have all : p.statements.filter (·.command.tempo? = none) =
      p.statements.filter fun s => s.command.tempo? = none ∧ ¬ s.command.Resolves :=
    List.filter_congr fun s mem => by simp [idle s mem]
  rw [all]
  exact Walk.reports_outcomes d (.start tempo) p.statements

section

variable {p : Program} {context : Context}

theorem schedule_of_clashes (clash : Discipline.Clashes context.discipline p.commands) :
    (p.schedule context : Run τ) = .error ⟨.ambiguousScheduling, []⟩ := by
  rw [schedule_eq, Discipline.choose_eq_none.2 clash]
  rfl

example :
    (ofCommands [.chord "H2" "sus4" "1q", .note "H2" "1q"]).schedule {} =
      (.error ⟨.ambiguousScheduling, []⟩ : Run Rat) := by
  decide

variable (fits : ¬ Discipline.Clashes context.discipline p.commands)

include fits

theorem schedule_of_fits :
    (p.schedule context : Run τ) =
      Run.ofSchedule (p.place context.tempo (.suited context.discipline p.commands)) := by
  rw [← Discipline.choose_eq_none] at fits
  obtain ⟨d, chosen⟩ := Option.ne_none_iff_exists'.1 fits
  rw [schedule_eq, chosen, Discipline.eq_suited_of_choose chosen]
  rfl

theorem schedule_of_idle (idle : ∀ c ∈ p.commands, ¬ c.Resolves) :
    ∃ ds, (p.schedule context : Run τ) = .error ⟨.nothingToSchedule, ds⟩ ∧
      Forall₂ Statement.Reports (p.statements.filter (·.command.tempo? = none)) ds := by
  refine ⟨_, ?_, reports_place (τ := τ) idle context.tempo (.suited context.discipline p.commands)⟩
  rw [schedule_of_fits fits, Run.ofSchedule, (place_events_eq_nil p _ _).2 idle]
  rfl

theorem schedule_of_resolves (busy : ∃ c ∈ p.commands, c.Resolves) :
    ∃ s : Schedule τ, p.schedule context = .ok s ∧
      s.discipline = .suited context.discipline p.commands := by
  have placed := mt (place_events_eq_nil (τ := τ) p context.tempo
    (.suited context.discipline p.commands)).1 (by simpa using busy)
  refine ⟨p.place context.tempo (.suited context.discipline p.commands), ?_, rfl⟩
  rw [schedule_of_fits fits, Run.ofSchedule, if_neg (mt List.isEmpty_iff.1 placed)]

end

/-- A run comes to one of three ends, each exactly under its condition. Which commands resolve does
not depend on the walk that comes to them, at whatever tempo and wherever its cursor stands: the
ones that do are placed, and the others that take time are dropped with the first fault of their
words. A bass note does not add to what can go wrong, since its own length can be read. -/
theorem schedule_verdict (p : Program) (context : Context) :
    (∀ ds, (p.schedule context : Run τ) = .error ⟨.ambiguousScheduling, ds⟩ ↔
      Discipline.Clashes context.discipline p.commands ∧ ds = []) ∧
    (∀ ds, (p.schedule context : Run τ) = .error ⟨.nothingToSchedule, ds⟩ ↔
      ¬ Discipline.Clashes context.discipline p.commands ∧ (∀ c ∈ p.commands, ¬ c.Resolves) ∧
        Forall₂ Statement.Reports (p.statements.filter (·.command.tempo? = none)) ds) ∧
    (∀ d, (∃ s : Schedule τ, p.schedule context = .ok s ∧ s.discipline = d) ↔
      ¬ Discipline.Clashes context.discipline p.commands ∧ (∃ c ∈ p.commands, c.Resolves) ∧
        d = .suited context.discipline p.commands) ∧
    (∀ (w : Walk τ) (c : Command),
      (c.Resolves ↔ ∃ e es, w.outcome c = .placed (e :: es)) ∧
        ∀ error, w.outcome c = .dropped error ↔ c.faults.head? = some error) ∧
    NoteValue.read? "1n" = some (.division 1 false) := by
  -- Of the three conditions just one holds, and with it the end of the run is known.
  refine and_assoc.1 (and_assoc.1 ⟨?_, ?_, ?_⟩)
  · by_cases clash : Discipline.Clashes context.discipline p.commands
    · simp [schedule_of_clashes (τ := τ) clash, clash, eq_comm]
    · by_cases busy : ∃ c ∈ p.commands, c.Resolves
      · obtain ⟨s, run, discipline⟩ := schedule_of_resolves (τ := τ) clash busy
        simp [run, clash, busy, discipline, eq_comm]
      · have idle : ∀ c ∈ p.commands, ¬ c.Resolves := fun c mem h => busy ⟨c, mem, h⟩
        obtain ⟨ds, run, reports⟩ := schedule_of_idle (τ := τ) clash idle
        have only (ds' : List Diagnostic) : ds = ds' ↔ Forall₂ Statement.Reports
            (p.statements.filter (·.command.tempo? = none)) ds' :=
          ⟨fun same => same ▸ reports,
            List.right_unique_forall₂' Statement.reports_rightUnique reports⟩
        simp +contextual [run, clash, idle, only]
  · exact fun w c => ⟨w.resolves_iff_placed c, w.outcome_eq_dropped_iff c⟩
  · decide

end Program

end ChordScript
