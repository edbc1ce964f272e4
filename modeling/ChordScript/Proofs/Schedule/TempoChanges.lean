import ChordScript.Proofs.Compile.Merge
import ChordScript.Proofs.Schedule.ClosedForm

namespace ChordScript

variable {τ : Type} [Seconds τ]

namespace Walk

variable (d : Discipline)

def place (w : Walk τ) (statements : List Statement) : Schedule τ where
  discipline := d
  events := (outcomes d w statements).flatMap (·.2.events)
  finalCursor := (w.finish d statements).cursor.offset
  diagnostics := (outcomes d w statements).filterMap Outcome.diagnostic?

theorem place_setTempo (w : Walk τ) (line : Option Nat) (t : Tempo) (rest : List Statement) :
    w.place d (⟨line, .setTempo t⟩ :: rest) = { w with tempo := t }.place d rest := rfl

theorem place_append (w : Walk τ) (a b : List Statement) :
    w.place d (a ++ b) =
      { (w.finish d a).place d b with
        events := (w.place d a).events ++ ((w.finish d a).place d b).events
        diagnostics := (w.place d a).diagnostics ++ ((w.finish d a).place d b).diagnostics } := by
  simp only [place, outcomes_append, finish_append, List.flatMap_append, List.filterMap_append]

theorem place_append_congr {a b : List Statement}
    (same : ∀ w : Walk τ, w.place d a = w.place d b) (w : Walk τ) (before : List Statement) :
    w.place d (before ++ a) = w.place d (before ++ b) := by
  rw [place_append, place_append, same]

theorem place_of_tempos {statements : List Statement}
    (tempos : ∀ s ∈ statements, s.command.kind = .tempo) (w : Walk τ) :
    w.place d statements = ⟨d, [], w.cursor.offset, []⟩ := by
  induction statements generalizing w with
  | nil => rfl
  | cons s rest ih =>
    obtain ⟨tempo, others⟩ := List.forall_mem_cons.1 tempos
    obtain ⟨line, command⟩ := s
    cases command with
    | setTempo t => rw [place_setTempo, ih others]
    | chord | note | rest => cases tempo

end Walk

theorem Discipline.choose_filter (asked : Option Discipline) (commands : List Command) :
    choose asked (commands.filter (·.kind ≠ .tempo)) = choose asked commands := by
  have any (f : Command → Bool) (blind : ∀ t, f (.setTempo t) = false) :
      (commands.filter (·.kind ≠ .tempo)).any f = commands.any f := by
    rw [List.any_filter]
    congr 1
    funext c
    cases c with
    | setTempo t => rw [blind, Bool.and_false]
    | chord | note | rest => rfl
  simp only [choose, any Command.isChord fun _ => rfl, any Command.isNote fun _ => rfl]

namespace Program

theorem place_eq_walk (p : Program) (tempo : Tempo) (d : Discipline) :
    (p.place tempo d : Schedule τ) = Walk.place d (.start tempo) p.statements := rfl

theorem schedule_congr {p q : Program} {context context' : Context}
    (asked : context.discipline = context'.discipline)
    (timed : p.commands.filter (·.kind ≠ .tempo) = q.commands.filter (·.kind ≠ .tempo))
    (place : ∀ d, (p.place context.tempo d : Schedule τ) = q.place context'.tempo d) :
    (p.schedule context : Run τ) = q.schedule context' := by
  have chosen : Discipline.choose context.discipline p.commands =
      Discipline.choose context'.discipline q.commands := by
    rw [← Discipline.choose_filter _ p.commands, ← Discipline.choose_filter _ q.commands, timed,
      asked]
  rw [schedule_eq, schedule_eq, chosen]
  simp only [place]

theorem schedule_append_congr {a b : List Statement}
    (timed : (a.map (·.command)).filter (·.kind ≠ .tempo) =
      (b.map (·.command)).filter (·.kind ≠ .tempo))
    (same : ∀ d, ∀ w : Walk τ, w.place d a = w.place d b) (before : List Statement)
    (context : Context) :
    (schedule ⟨before ++ a⟩ context : Run τ) = schedule ⟨before ++ b⟩ context := by
  apply schedule_congr
  · rfl
  · simp only [commands, List.map_append, List.filter_append, timed]
  · intro d
    rw [place_eq_walk, place_eq_walk, Walk.place_append_congr d (same d)]

/-- A tempo command at the start of a program does what the tempo of the run does. One that is
followed by another at once can be left out, and so can one after which no command takes time. Neither
the schedule nor the reason for which a run is given up, nor a diagnostic, is another then. -/
theorem schedule_tempoChanges (context : Context) :
    (∀ (p : Program) (line : Option Nat) (t : Tempo),
      (schedule ⟨⟨line, .setTempo t⟩ :: p.statements⟩ context : Run τ) =
        p.schedule { context with tempo := t }) ∧
    (∀ (before after : List Statement) (line₁ line₂ : Option Nat) (t₁ t₂ : Tempo),
      (schedule ⟨before ++ ⟨line₁, .setTempo t₁⟩ :: ⟨line₂, .setTempo t₂⟩ :: after⟩ context :
          Run τ) =
        schedule ⟨before ++ ⟨line₂, .setTempo t₂⟩ :: after⟩ context) ∧
    ∀ (before after : List Statement) (line : Option Nat) (t : Tempo),
      (∀ s ∈ after, s.command.kind = .tempo) →
        (schedule ⟨before ++ ⟨line, .setTempo t⟩ :: after⟩ context : Run τ) =
          schedule ⟨before ++ after⟩ context := by
  refine ⟨?_, ?_, ?_⟩
  · intro p line t
    apply schedule_congr
    · rfl
    · rfl
    · intro d
      rw [place_eq_walk, place_eq_walk, Walk.place_setTempo]
      rfl
  · intro before after line₁ line₂ t₁ t₂
    refine schedule_append_congr ?_ ?_ before context
    · rfl
    · intro d w
      rw [Walk.place_setTempo, Walk.place_setTempo, Walk.place_setTempo]
  · intro before after line t tempos
    refine schedule_append_congr ?_ ?_ before context
    · rfl
    · intro d w
      rw [Walk.place_setTempo, Walk.place_of_tempos d tempos, Walk.place_of_tempos d tempos]

end Program

namespace Restless

open Program

def note : Statement := ⟨none, .note "C4" "1/4"⟩

def notes : List Statement := [⟨none, .note "D4" "1/8"⟩, ⟨none, .note "H4" "1/8"⟩]

def tempo (bpm : Nat) (pos : 0 < bpm := by decide) (lt : bpm < Text.numberBound := by decide) :
    Statement :=
  ⟨none, .setTempo ⟨bpm, pos, lt⟩⟩

theorem schedule_tempoChanges_restless :
    let restless : Program := ⟨tempo 90 :: note :: tempo 7 :: tempo 240 :: notes ++ [tempo 30]⟩
    let s : Schedule Float := restless.place .standard .sequential
    restless.schedule {} = .ok s ∧
      schedule ⟨note :: tempo 240 :: notes⟩ { tempo := { bpm := 90 } } = .ok s ∧
      s.events.map (·.duration) = [60 / 90, 0.125] ∧ s.diagnostics = [⟨none, .rootFormat "H4"⟩] := by
  intro restless s
  have scheduled : restless.schedule {} = .ok s := by decide +kernel
  have first := (schedule_tempoChanges (τ := Float) {}).1
  obtain ⟨-, overwritten, last⟩ := schedule_tempoChanges (τ := Float) { tempo := { bpm := 90 } }
  have same :=
    calc (restless.schedule {} : Run Float)
      _ = schedule ⟨note :: tempo 7 :: tempo 240 :: notes ++ [tempo 30]⟩
          { tempo := { bpm := 90 } } := first ⟨_⟩ none _
      _ = schedule ⟨note :: tempo 240 :: notes ++ [tempo 30]⟩ { tempo := { bpm := 90 } } :=
        overwritten [note] _ none none _ _
      _ = schedule ⟨note :: tempo 240 :: notes ++ []⟩ { tempo := { bpm := 90 } } :=
        last (note :: tempo 240 :: notes) [] none _ (List.forall_mem_nil _)
  refine ⟨scheduled, same.symm.trans scheduled, ?_, ?_⟩
  · decide +kernel
  · decide +kernel

end Restless

end ChordScript
