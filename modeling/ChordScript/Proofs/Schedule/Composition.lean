import ChordScript.Proofs.Schedule.Retiming

namespace ChordScript

def Event.putOff (wait : Rat) (e : Event Rat) : Event Rat := { e with start := e.start + wait }

def Schedule.followedBy (s t : Schedule Rat) : Schedule Rat where
  discipline := s.discipline
  events := s.events ++ t.events.map (·.putOff s.finalCursor)
  finalCursor := s.finalCursor + t.finalCursor
  diagnostics := s.diagnostics ++ t.diagnostics

theorem Event.retime_eq_putOff (wait : Rat) : Event.retime 1 wait = .putOff wait := by
  funext e
  rw [retime, putOff, one_mul, one_mul]

namespace Discipline

variable {asked : Option Discipline} {a b : List Command} {d : Discipline}

theorem choose_append (first : choose asked a = some d) (second : choose asked b = some d) :
    choose asked (a ++ b) = some d := by
  cases d with
  | sequential =>
    obtain ⟨free, none⟩ := choose_eq_sequential.1 first
    obtain ⟨-, none'⟩ := choose_eq_sequential.1 second
    exact choose_eq_sequential.2 ⟨free, by simp [List.any_append, none, none']⟩
  | measureAligned =>
    obtain ⟨none, fits⟩ := choose_eq_measureAligned.1 first
    obtain ⟨none', -⟩ := choose_eq_measureAligned.1 second
    refine choose_eq_measureAligned.2 ⟨by simp [List.any_append, none, none'], ?_⟩
    exact fits.imp_right (And.imp_right fun some => by simp [List.any_append, some])

end Discipline

namespace Program

instance : Append Program := ⟨fun p q => ⟨p.statements ++ q.statements⟩⟩

@[simp] theorem statements_append (p q : Program) :
    (p ++ q).statements = p.statements ++ q.statements := rfl

@[simp] theorem commands_append (p q : Program) : (p ++ q).commands = p.commands ++ q.commands :=
  List.map_append

theorem placedFrom_putOff (d : Discipline) (wait : Rat) (commands : List Timed) :
    placedFrom d wait commands = (placedFrom d 0 commands).map (.putOff wait) := by
  have same : List.Forall₂ (Timed.Scales 1) commands commands :=
    List.forall₂_same.2 fun x _ => .refl x
  have moved := placedFrom_scales same d 0 wait
  rwa [mul_zero, zero_add, Event.retime_eq_putOff] at moved

theorem place_append (p q : Program) (tempo : Tempo) (d : Discipline) :
    (p ++ q).place tempo d =
      (p.place tempo d).followedBy (q.place (tempoAfter tempo p.statements) d) := by
  have later (before after : List Timed) :
      placedFrom d 0 (before ++ after) =
        placedFrom d 0 before ++ (placedFrom d 0 after).map (.putOff (before.map (·.step d)).sum) := by
    rw [placedFrom_append, zero_add]
    exact congrArg (_ ++ ·) (placedFrom_putOff d _ after)
  simp only [place_eq, placed_eq, statements_append, timed_append, later, List.map_append,
    List.sum_append, List.filterMap_append, Schedule.followedBy]

/-- If the same discipline suits two programs and both come to a schedule, the second one from the
tempo that the first leaves in force, then one after the other they come to the first schedule
followed by the second. Whatever comes later, a schedule keeps its events, as long as its discipline
still suits the whole. -/
theorem schedule_append {p : Program} {context : Context} {s : Schedule Rat}
    (scheduled : p.schedule context = .ok s) (q : Program) :
    (∀ t : Schedule Rat,
      q.schedule { context with tempo := tempoAfter context.tempo p.statements } = .ok t →
        t.discipline = s.discipline → (p ++ q).schedule context = .ok (s.followedBy t)) ∧
      (Discipline.choose context.discipline (p ++ q).commands = some s.discipline →
        ∃ t : Schedule Rat, (p ++ q).schedule context = .ok t ∧
          s.events <+: t.events ∧ s.diagnostics <+: t.diagnostics) := by
  obtain ⟨d, chosen, rfl, nonempty⟩ := schedule_eq_ok.1 scheduled
  have whole (choice : Discipline.choose context.discipline (p ++ q).commands = some d) :
      (p ++ q).schedule context = .ok ((p.place context.tempo d).followedBy
        (q.place (tempoAfter context.tempo p.statements) d)) :=
    schedule_eq_ok.2 ⟨d, choice, place_append p q context.tempo d,
      List.append_ne_nil_of_left_ne_nil nonempty _⟩
  constructor
  · rintro t continued same
    obtain ⟨d', chosen', rfl, -⟩ := schedule_eq_ok.1 continued
    obtain rfl : d' = d := same
    apply whole
    rw [commands_append]
    exact Discipline.choose_append chosen chosen'
  · intro choice
    exact ⟨_, whole choice, List.prefix_append _ _, List.prefix_append _ _⟩

def opening : Program := .ofCommands [.chord "A2" "minor" "2m", .setTempo { bpm := 240 }]

def ending : Program := .ofCommands [.chord "Gx" "minor" "1m", .chord "C3" "major" "1/2"]

theorem schedule_append_ending :
    let s : Schedule Rat := opening.place .standard .measureAligned
    let t : Schedule Rat := ending.place { bpm := 240 } .measureAligned
    opening.schedule {} = .ok s ∧ ending.schedule { tempo := { bpm := 240 } } = .ok t ∧
      (opening ++ ending).schedule {} = .ok (s.followedBy t) ∧
      (s.followedBy t).events.map (·.start) = [0, 0, 3, 3] ∧ (s.followedBy t).finalCursor = 4 := by
  intro s t
  have first : opening.schedule {} = .ok s := by decide +kernel
  have second : ending.schedule { tempo := { bpm := 240 } } = .ok t := by decide +kernel
  refine ⟨first, second, (schedule_append first ending).1 t second rfl, ?_, ?_⟩
  · decide +kernel
  · decide +kernel

end Program

end ChordScript
