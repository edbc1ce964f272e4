import ChordScript.Proofs.Compile.Merge
import ChordScript.Proofs.Pitch.Numbers
import ChordScript.Proofs.Schedule.ClosedForm
import Mathlib.Data.List.Forall2

namespace ChordScript

open List (Forall₂)

def Pitch.Enharmonic (token token' : String) : Prop :=
  ∃ n, (read? token).map midi = some n ∧ (read? token').map midi = some n

theorem Pitch.Enharmonic.read? {token token' : String} (h : Enharmonic token token') :
    ∃ p, read? token = some p ∧ read? token' = some p := by
  obtain ⟨n, first, second⟩ := h
  obtain ⟨p, hp, rfl⟩ := Option.map_eq_some_iff.1 first
  obtain ⟨q, hq, same⟩ := Option.map_eq_some_iff.1 second
  exact ⟨p, hp, midi_injective same ▸ hq⟩

inductive Command.Respelled : Command → Command → Prop
  | same (c : Command) : Respelled c c
  | chord {root root' : String} (quality duration : String) :
    Pitch.Enharmonic root root' →
      Respelled (.chord root quality duration) (.chord root' quality duration)
  | note {pitch pitch' : String} (duration : String) :
    Pitch.Enharmonic pitch pitch' → Respelled (.note pitch duration) (.note pitch' duration)

structure Statement.Respelled (s t : Statement) : Prop where
  line : t.line = s.line
  command : s.command.Respelled t.command

def Program.Respelled (p q : Program) : Prop :=
  Forall₂ Statement.Respelled p.statements q.statements

variable {τ : Type} [Seconds τ]

namespace Command.Respelled

variable {c c' : Command} (h : c.Respelled c')

include h

theorem kind_eq : c'.kind = c.kind := by
  cases h <;> rfl

theorem events_eq (tempo : Tempo) (start : τ) : c'.events tempo start = c.events tempo start := by
  cases h with
  | same => rfl
  | chord quality duration same | note duration same =>
    obtain ⟨p, first, second⟩ := same.read?
    simp only [events, readPitch, first, second, Option.elim_some]

theorem outcome_eq (w : Walk τ) : w.outcome c' = w.outcome c := by
  have resolved := h.events_eq w.tempo w.cursor.offset
  cases h with
  | same => rfl
  | chord | note => rw [Walk.outcome_eq w rfl, Walk.outcome_eq w rfl, resolved]

theorem next_eq (d : Discipline) (w : Walk τ) : w.next d c' = w.next d c := by
  cases h <;> rfl

end Command.Respelled

section

variable {ss ts : List Statement} (h : Forall₂ Statement.Respelled ss ts) (d : Discipline)

include h

theorem Statement.map_kind_respelled :
    ts.map (·.command.kind) = ss.map (·.command.kind) := by
  induction h with
  | nil => rfl
  | cons first _ ih => rw [List.map_cons, List.map_cons, first.command.kind_eq, ih]

theorem Walk.outcomes_respelled (w : Walk τ) :
    (outcomes d w ts).flatMap (·.2.events) = (outcomes d w ss).flatMap (·.2.events) ∧
      (outcomes d w ts).filterMap Outcome.diagnostic? =
        (outcomes d w ss).filterMap Outcome.diagnostic? ∧
      w.finish d ts = w.finish d ss := by
  induction h generalizing w with
  | nil => exact ⟨rfl, rfl, rfl⟩
  | @cons s t ss ts first _ ih =>
    obtain ⟨events, diagnostics, finish⟩ := ih (w.next d s.command)
    have report : Outcome.diagnostic? (t, w.outcome s.command) =
        Outcome.diagnostic? (s, w.outcome s.command) := by
      cases w.outcome s.command with
      | tempo | placed => rfl
      | dropped error => simp only [Outcome.diagnostic?, first.line]
    simp only [outcomes, first.command.outcome_eq, first.command.next_eq, List.flatMap_cons,
      List.filterMap_cons, events, diagnostics, report, finish_cons, finish, and_self]

end

namespace Program

theorem place_respelled {p q : Program} (h : p.Respelled q) (tempo : Tempo) (d : Discipline) :
    (q.place tempo d : Schedule τ) = p.place tempo d := by
  obtain ⟨events, diagnostics, finish⟩ := Walk.outcomes_respelled h d (.start tempo : Walk τ)
  simp only [place, events, diagnostics, finish]

/-- The number of a token is the one that its letter, its accidental and its octave spell. Programs
that differ in the spelling of pitches only have the same schedule, or are given up for the same
reason with the same diagnostics. -/
theorem schedule_respelled :
    (∀ token n, (Pitch.read? token).map (·.midi) = some n ↔ Pitch.Spells token.toList n) ∧
      ∀ {p q : Program}, p.Respelled q → ∀ context : Context,
        (q.schedule context : Run τ) = p.schedule context := by
  refine ⟨fun token n => Pitch.midi_read?_eq_some_iff, ?_⟩
  intro p q same context
  have kinds : q.commands.map (·.kind) = p.commands.map (·.kind) := by
    rw [commands, commands, List.map_map, List.map_map]
    exact Statement.map_kind_respelled same
  rw [schedule_eq, schedule_eq, Discipline.choose_congr kinds]
  simp only [place_respelled same]

def sharps : Program :=
  .ofCommands [.chord "A#3" "major" "1m", .chord "C3" "major" "1/2", .chord "E2" "minor" "4n.",
    .chord "C-1" "sus4" "1m"]

def flats : Program :=
  .ofCommands [.chord "Bb3" "major" "1m", .chord "B#2" "major" "1/2", .chord "Fb2" "minor" "4n.",
    .chord "B#-2" "sus4" "1m"]

theorem schedule_respelled_flats :
    let s : Schedule Float := sharps.place .standard .measureAligned
    sharps.Respelled flats ∧ sharps.schedule {} = .ok s ∧ flats.schedule {} = .ok s ∧
      s.events.filter (·.voice = .bass) = [.note .bass ⟨.c, 2⟩ 2 2, .note .bass ⟨.e, 2⟩ 4 2] ∧
      s.diagnostics = [⟨none, .chordQuality "sus4"⟩] := by
  intro s
  have respelled : sharps.Respelled flats :=
    .cons ⟨rfl, .chord _ _ ⟨58, by decide, by decide⟩⟩ <|
      .cons ⟨rfl, .chord _ _ ⟨48, by decide, by decide⟩⟩ <|
        .cons ⟨rfl, .chord _ _ ⟨40, by decide, by decide⟩⟩ <|
          .cons ⟨rfl, .chord _ _ ⟨0, by decide, by decide⟩⟩ .nil
  have scheduled : sharps.schedule {} = .ok s := by decide +kernel
  refine ⟨respelled, scheduled, ?_, by decide +kernel, by decide +kernel⟩
  exact (schedule_respelled.2 respelled {}).trans scheduled

end Program

end ChordScript
