import ChordScript.Proofs.Schedule.ClosedForm

namespace ChordScript

def Event.retime (scale wait : Rat) (e : Event Rat) : Event Rat :=
  { e with start := scale * e.start + wait, duration := scale * e.duration }

namespace Timed

structure Scales (scale : Rat) (x y : Timed) : Prop where
  line : y.line = x.line
  command : y.command = x.command
  length : y.length? = x.length?.map (scale * ·)
  measure : y.measure = scale * x.measure

theorem Scales.refl (x : Timed) : Scales 1 x x where
  line := rfl
  command := rfl
  length := by simp
  measure := (one_mul _).symm

variable {scale : Rat} {x y : Timed} (h : Scales scale x y)

include h

theorem Scales.step (d : Discipline) : y.step d = scale * x.step d := by
  cases d with
  | measureAligned => exact h.measure
  | sequential =>
    simp only [Timed.step, h.length]
    cases x.length? with
    | none => exact (mul_zero scale).symm
    | some length => rfl

theorem Scales.diagnostic? : y.diagnostic? = x.diagnostic? := by
  rw [Timed.diagnostic?, Timed.diagnostic?, h.command, h.line]

theorem Scales.events (start wait : Rat) :
    y.events (scale * start + wait) = (x.events start).map (.retime scale wait) := by
  simp only [Timed.events, h.command, h.length, h.measure]
  cases x.command with
  | setTempo t => rfl
  | chord root quality duration =>
    cases x.length? with
    | none => rfl
    | some length =>
      simp only [Option.map_some]
      cases Command.resolveChord root quality with
      | error e => rfl
      | ok pitches => cases Command.bassOf? root quality <;> rfl
  | note pitch duration =>
    cases x.length? with
    | none => rfl
    | some length =>
      simp only [Option.map_some]
      cases Pitch.read? pitch <;> rfl
  | rest duration => cases x.length? <;> rfl

end Timed

namespace Program

section

variable {scale : Rat} {xs ys : List Timed} (h : List.Forall₂ (Timed.Scales scale) xs ys)

include h

theorem placedFrom_scales (d : Discipline) (start wait : Rat) :
    placedFrom d (scale * start + wait) ys =
      (placedFrom d start xs).map (.retime scale wait) := by
  induction h generalizing start with
  | nil => rfl
  | @cons x y xs ys scales others ih =>
    have moved : scale * start + wait + y.step d = scale * (start + x.step d) + wait := by
      rw [scales.step]
      ring
    rw [placedFrom, placedFrom, List.map_append, scales.events, moved, ih]

theorem sum_scales (d : Discipline) :
    (ys.map (·.step d)).sum = scale * (xs.map (·.step d)).sum := by
  induction h with
  | nil => exact (mul_zero scale).symm
  | cons scales others ih =>
    rw [List.map_cons, List.map_cons, List.sum_cons, List.sum_cons, scales.step, ih, mul_add]

theorem diagnostics_scales :
    ys.filterMap Timed.diagnostic? = xs.filterMap Timed.diagnostic? := by
  induction h with
  | nil => rfl
  | cons scales others ih => rw [List.filterMap_cons, List.filterMap_cons, scales.diagnostic?, ih]

end

end Program

def Tempo.times (k : Nat) (t : Tempo) : Tempo := (ofNat? (k * t.bpm)).getD t

theorem Tempo.bpm_times {k : Nat} (pos : 1 ≤ k) {t : Tempo} (fits : k * t.bpm < Text.numberBound) :
    (t.times k).bpm = k * t.bpm := by
  have positive : 0 < k * t.bpm := Nat.mul_pos pos t.bpm_pos
  rw [times, ofNat?, dif_pos ⟨positive, fits⟩]
  rfl

namespace Command

def times (k : Nat) : Command → Command
  | .setTempo tempo => .setTempo (tempo.times k)
  | c => c

theorem tempo?_times (k : Nat) (c : Command) : (c.times k).tempo? = c.tempo?.map (.times k) := by
  cases c <;> rfl

theorem times_of_timed (k : Nat) {c : Command} (h : c.tempo? = none) : c.times k = c := by
  cases c with
  | setTempo t => cases h
  | chord | note | rest => rfl

theorem isChord_times (k : Nat) (c : Command) : (c.times k).isChord = c.isChord := by
  cases c <;> rfl

theorem isNote_times (k : Nat) (c : Command) : (c.times k).isNote = c.isNote := by
  cases c <;> rfl

end Command

def Statement.times (k : Nat) (s : Statement) : Statement := { s with command := s.command.times k }

def Program.times (k : Nat) (p : Program) : Program := ⟨p.statements.map (·.times k)⟩

def Context.times (k : Nat) (c : Context) : Context := { c with tempo := c.tempo.times k }

def Program.tempos (p : Program) : List Tempo := p.commands.filterMap Command.tempo?

def Event.faster (k : Nat) (e : Event Rat) : Event Rat :=
  { e with start := e.start / k, duration := e.duration / k }

def Schedule.faster (k : Nat) (s : Schedule Rat) : Schedule Rat :=
  { s with events := s.events.map (.faster k), finalCursor := s.finalCursor / k }

theorem Event.retime_eq_faster (k : Nat) : Event.retime (k : Rat)⁻¹ 0 = .faster k := by
  funext e
  rw [retime, faster, add_zero, div_eq_inv_mul, div_eq_inv_mul]

theorem Program.commands_times (k : Nat) (p : Program) :
    (p.times k).commands = p.commands.map (·.times k) := by
  simp [commands, times, Statement.times]

theorem Discipline.choose_times (asked : Option Discipline) (k : Nat) (p : Program) :
    choose asked (p.times k).commands = choose asked p.commands := by
  unfold choose
  simp only [Program.commands_times, List.any_map, Function.comp_def, Command.isChord_times,
    Command.isNote_times]

theorem Timed.scales_of_bpm {k : Nat} (pos : 1 ≤ k) {x y : Timed} (line : y.line = x.line)
    (command : y.command = x.command) (bpm : y.tempo.bpm = k * x.tempo.bpm) :
    Scales (k : Rat)⁻¹ x y where
  line := line
  command := command
  length := by
    simp only [length?, command, bpm, Option.map_map, Function.comp_def, Nat.cast_mul]
    congr 1
    funext v
    field_simp
  measure := by
    rw [measure, measure, bpm, Nat.cast_mul]
    field_simp

namespace Program

theorem timed_times {k : Nat} (pos : 1 ≤ k) {tempo : Tempo} {statements : List Statement}
    (fits : k * tempo.bpm < Text.numberBound)
    (all : ∀ t ∈ (statements.map (·.command)).filterMap Command.tempo?,
      k * t.bpm < Text.numberBound) :
    List.Forall₂ (Timed.Scales (k : Rat)⁻¹) (timed tempo statements)
      (timed (tempo.times k) (statements.map (·.times k))) := by
  induction statements generalizing tempo with
  | nil => exact .nil
  | cons s rest ih =>
    rw [List.map_cons, timed_cons, timed_cons]
    simp only [Statement.times, Command.tempo?_times]
    cases h : s.command.tempo? with
    | some t =>
      rw [List.map_cons, List.filterMap_cons_some h, List.forall_mem_cons] at all
      exact ih all.1 all.2
    | none =>
      rw [List.map_cons, List.filterMap_cons_none h] at all
      refine .cons (Timed.scales_of_bpm pos rfl ?_ (Tempo.bpm_times pos fits)) (ih fits all)
      exact Command.times_of_timed k h

theorem place_times {k : Nat} (pos : 1 ≤ k) (p : Program) (d : Discipline) {tempo : Tempo}
    (fits : ∀ t ∈ tempo :: p.tempos, k * t.bpm < Text.numberBound) :
    (p.times k).place (tempo.times k) d = (p.place tempo d).faster k := by
  obtain ⟨first, others⟩ := List.forall_mem_cons.1 fits
  have scales := timed_times pos first others
  have events := placedFrom_scales scales d 0 0
  rw [mul_zero, add_zero, Event.retime_eq_faster] at events
  simp only [place_eq, placed_eq, times, events, sum_scales scales, diagnostics_scales scales,
    Schedule.faster, inv_mul_eq_div]

/-- A run with every tempo `k` times as fast comes to the same end: it is given up for the same
reason, with the same diagnostics, or its schedule has the same events, with all times divided by
`k`. -/
theorem schedule_times (p : Program) (context : Context) {k : Nat} (pos : 1 ≤ k)
    (fits : ∀ t ∈ context.tempo :: p.tempos, k * t.bpm < Text.numberBound) :
    ((p.times k).schedule (context.times k) : Except Rejected (Schedule Rat)) =
      (p.schedule context).map (.faster k) := by
  rw [schedule, schedule, Context.times, Discipline.choose_times]
  cases Discipline.choose context.discipline p.commands with
  | none => rfl
  | some d =>
    simp only [place_times pos p d fits, Schedule.faster, List.isEmpty_map]
    split <;> rfl

theorem schedule_times_changing :
    (∀ t ∈ Tempo.standard :: changing.tempos, 3 * t.bpm < Text.numberBound) ∧
      ((changing.times 3).schedule { tempo := Tempo.standard.times 3 }).map (·.events.map (·.start)) =
        .ok [(0 : Rat), 0, 2, 2] := by
  have fits : ∀ t ∈ Tempo.standard :: changing.tempos, 3 * t.bpm < Text.numberBound := by decide
  have scaled := schedule_times changing {} (by decide) fits
  refine ⟨fits, ?_⟩
  refine (congrArg (Except.map (·.events.map (·.start))) scaled).trans ?_
  decide +kernel

end Program

end ChordScript
