import ChordScript.Proofs.Schedule.ClosedForm

namespace ChordScript

variable {τ : Type} [Seconds τ]

def Program.outcomes (p : Program) (tempo : Tempo) (d : Discipline) :
    List (Statement × Outcome τ) :=
  Walk.outcomes d (.start tempo) p.statements

structure Schedule.Gathers (s : Schedule τ) (outcomes : List (Statement × Outcome τ)) : Prop where
  events : s.events = outcomes.flatMap (·.2.events)
  diagnostics : s.diagnostics = outcomes.filterMap Outcome.diagnostic?

theorem Program.gathers_place (p : Program) (tempo : Tempo) (d : Discipline) :
    (p.place tempo d : Schedule τ).Gathers (p.outcomes tempo d) where
  events := rfl
  diagnostics := rfl

theorem Command.tempo?_eq_none {c : Command} : c.tempo? = none ↔ c.kind ≠ .tempo := by
  cases c <;> simp [tempo?, kind]

/-- The commands bring a cursor equally far at a tempo. With measures any two do. -/
def Discipline.Keeps (τ : Type) [Seconds τ] (d : Discipline) (tempo : Tempo) (c c' : Command) :
    Prop :=
  d = .sequential → (c'.writtenSeconds? tempo : Option τ) = c.writtenSeconds? tempo

theorem Discipline.Keeps.advance {d : Discipline} {tempo : Tempo} {c c' : Command}
    (h : d.Keeps τ tempo c c') (cursor : Cursor τ) :
    d.advance tempo c' cursor = d.advance tempo c cursor := by
  cases d with
  | measureAligned => rfl
  | sequential => simp only [Discipline.advance, h rfl]

namespace Walk

variable (d : Discipline)

theorem tempo_finish (w : Walk τ) (statements : List Statement) :
    (w.finish d statements).tempo = Program.tempoAfter w.tempo statements := by
  induction statements generalizing w with
  | nil => rfl
  | cons s rest ih =>
    rw [finish_cons, ih, Program.tempoAfter_cons]
    cases h : s.command.tempo? with
    | some t => rw [next_tempo d w h, Option.getD_some]
    | none => rw [next_timed d w h, Option.getD_none]

theorem length_outcomes (w : Walk τ) (statements : List Statement) :
    (outcomes d w statements).length = statements.length := by
  induction statements generalizing w with
  | nil => rfl
  | cons s rest ih => rw [outcomes, List.length_cons, List.length_cons, ih]

section

variable {d} {w : Walk τ} {before after : List Statement} {old new : Statement}
  (same : (w.finish d before).next d new.command = (w.finish d before).next d old.command)

include same

theorem finish_replace :
    w.finish d (before ++ new :: after) = w.finish d (before ++ old :: after) := by
  rw [finish_append, finish_append, finish_cons, finish_cons, same]

theorem outcomes_replace {i : Nat} (other : i ≠ before.length) :
    (outcomes d w (before ++ new :: after))[i]? = (outcomes d w (before ++ old :: after))[i]? := by
  rw [outcomes_append, outcomes_append, outcomes, outcomes, same, List.getElem?_append,
    List.getElem?_append, length_outcomes]
  -- The walks are the same up to the statement, and go on from the same place after it.
  split
  · rfl
  · obtain ⟨j, hj⟩ : ∃ j, i - before.length = j + 1 := ⟨i - before.length - 1, by omega⟩
    rw [hj, List.getElem?_cons_succ, List.getElem?_cons_succ]

end

end Walk

namespace Program

variable {p q : Program} {before after : List Statement} {old new : Statement}

theorem choose_replace (hp : p.statements = before ++ old :: after)
    (hq : q.statements = before ++ new :: after) (kind : new.command.kind = old.command.kind)
    (asked : Option Discipline) :
    Discipline.choose asked q.commands = Discipline.choose asked p.commands := by
  apply Discipline.choose_congr
  simp only [commands, hp, hq, List.map_append, List.map_cons, kind]

theorem next_replace (timed : old.command.tempo? = none)
    (kind : new.command.kind = old.command.kind) {tempo : Tempo} {d : Discipline}
    (keeps : d.Keeps τ (tempoAfter tempo before) old.command new.command) :
    (Walk.finish d (.start tempo : Walk τ) before).next d new.command =
      (Walk.finish d (.start tempo : Walk τ) before).next d old.command := by
  have timed' : new.command.tempo? = none := by
    rw [Command.tempo?_eq_none, kind]
    exact Command.tempo?_eq_none.1 timed
  rw [Walk.next_timed d _ timed, Walk.next_timed d _ timed', Walk.tempo_finish]
  exact congrArg _ (keeps.advance _)

/-- Two programs that differ in one command that takes time, and have one of the same kind there,
have the same discipline and the same final cursor if both come to a schedule, and every other
statement comes to the same events or the same diagnostic. -/
theorem schedule_replace {context : Context} {s s' : Schedule τ}
    (hp : p.statements = before ++ old :: after) (hq : q.statements = before ++ new :: after)
    (timed : old.command.tempo? = none) (kind : new.command.kind = old.command.kind)
    (scheduled : p.schedule context = .ok s) (scheduled' : q.schedule context = .ok s')
    (keeps : s.discipline.Keeps τ (tempoAfter context.tempo before) old.command new.command) :
    s'.discipline = s.discipline ∧ s'.finalCursor = s.finalCursor ∧
      s.Gathers (p.outcomes context.tempo s.discipline) ∧
      s'.Gathers (q.outcomes context.tempo s.discipline) ∧
      ∀ i ≠ before.length,
        (q.outcomes context.tempo s.discipline : List (Statement × Outcome τ))[i]? =
          (p.outcomes context.tempo s.discipline)[i]? := by
  obtain ⟨d, chosen, rfl, -⟩ := schedule_eq_ok.1 scheduled
  obtain ⟨d', chosen', rfl, -⟩ := schedule_eq_ok.1 scheduled'
  obtain rfl : d' = d := by
    rw [choose_replace hp hq kind, chosen] at chosen'
    exact (Option.some.inj chosen').symm
  have next := next_replace (d := d') timed kind keeps
  refine ⟨rfl, ?_, gathers_place .., gathers_place .., ?_⟩
  · simp only [place, hp, hq, Walk.finish_replace next]
  · intro i other
    rw [outcomes, outcomes, hp, hq]
    exact Walk.outcomes_replace next other

def melody (pitch duration : String) : Program :=
  .ofCommands [.rest "1n", .setTempo { bpm := 90 }, .note pitch duration, .note "E4" "2n"]

def progression (root quality duration : String) : Program :=
  .ofCommands [.chord root quality duration, .chord "A2" "minor" "1m"]

theorem statements_melody (pitch duration : String) :
    (melody pitch duration).statements =
      [⟨none, .rest "1n"⟩, ⟨none, .setTempo { bpm := 90 }⟩] ++
        ⟨none, .note pitch duration⟩ :: [⟨none, .note "E4" "2n"⟩] := rfl

theorem statements_progression (root quality duration : String) :
    (progression root quality duration).statements =
      [] ++ ⟨none, .chord root quality duration⟩ :: [⟨none, .chord "A2" "minor" "1m"⟩] := rfl

theorem schedule_replace_unreadable :
    let s : Schedule Float := (melody "C4" "1/4").place .standard .sequential
    let s' : Schedule Float := (melody "H9" "4n").place .standard .sequential
    let t : Schedule Float := (progression "C3" "major" "1/2").place .standard .measureAligned
    let t' : Schedule Float := (progression "H2" "sus4" "1q").place .standard .measureAligned
    ((melody "C4" "1/4").schedule {} = .ok s ∧ (melody "H9" "4n").schedule {} = .ok s' ∧
        s'.finalCursor = s.finalCursor ∧ s.events.length = 3 ∧ s'.events.length = 2) ∧
      (progression "C3" "major" "1/2").schedule {} = .ok t ∧
      (progression "H2" "sus4" "1q").schedule {} = .ok t' ∧
      t'.finalCursor = t.finalCursor ∧ t.events.length = 4 ∧ t'.events.length = 2 := by
  intro s s' t t'
  have first : (melody "C4" "1/4").schedule {} = .ok s := by decide +kernel
  have first' : (melody "H9" "4n").schedule {} = .ok s' := by decide +kernel
  have second : (progression "C3" "major" "1/2").schedule {} = .ok t := by decide +kernel
  have second' : (progression "H2" "sus4" "1q").schedule {} = .ok t' := by decide +kernel
  have sameLength : Discipline.Keeps Float .sequential { bpm := 90 } (.note "C4" "1/4")
      (.note "H9" "4n") := fun _ => by decide +kernel
  obtain ⟨-, melodies, -⟩ := schedule_replace (statements_melody "C4" "1/4")
    (statements_melody "H9" "4n") rfl rfl first first' sameLength
  obtain ⟨-, progressions, -⟩ := schedule_replace (statements_progression "C3" "major" "1/2")
    (statements_progression "H2" "sus4" "1q") rfl rfl second second' nofun
  refine ⟨⟨first, first', melodies, ?_, ?_⟩, second, second', progressions, ?_, ?_⟩
  all_goals decide +kernel

end Program

end ChordScript
