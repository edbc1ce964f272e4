import ChordScript.Proofs.Schedule.Timeline
import ChordScript.Proofs.Schedule.Transport

namespace ChordScript

/-- Exact numbers, with a fault for what a division by zero leads to. -/
inductive Guarded
  | exact (value : Rat)
  | fault
  deriving DecidableEq

namespace Guarded

def lift (op : Rat → Rat → Guarded) : Guarded → Guarded → Guarded
  | .exact a, .exact b => op a b
  | _, _ => .fault

instance : Seconds Guarded where
  add := lift fun a b => .exact (a + b)
  mul := lift fun a b => .exact (a * b)
  div := lift fun a b => if b = 0 then .fault else .exact (a / b)
  ofNat n := .exact n
  lt
    | .exact a, .exact b => decide (a < b)
    | _, _ => true
  isFinite _ := true
  isNaN _ := false

theorem exact_add (a b : Rat) : exact (a + b) = exact a + exact b := rfl

theorem exact_mul (a b : Rat) : exact (a * b) = exact a * exact b := rfl

theorem exact_div (a : Rat) {b : Rat} (h : b ≠ 0) : exact (a / b) = exact a / exact b :=
  (if_neg h).symm

theorem div_zero (a : Guarded) : a / exact 0 = fault := by
  cases a <;> rfl

theorem exact_ofNat_div (a : Rat) {n : Nat} (pos : 0 < n) :
    exact (a / Seconds.ofNat n) = exact a / Seconds.ofNat n := by
  have nonzero : (n : Rat) ≠ 0 := by exact_mod_cast pos.ne'
  exact exact_div a nonzero

theorem exact_wholeNotes {v : NoteValue} (positive : v.IsPositive) :
    exact v.wholeNotes = v.wholeNotes := by
  cases v with
  | measures n => rfl
  | division d dotted =>
    have plain := exact_ofNat_div (Seconds.ofNat 1) positive
    have dot := exact_ofNat_div (Seconds.ofNat 3) two_pos
    cases dotted with
    | false => exact plain
    | true => exact (exact_mul _ _).trans (congrArg₂ (· * ·) plain dot)
  | fraction n d => exact exact_ofNat_div (Seconds.ofNat n) positive.2

theorem exact_beat (t : Tempo) : exact t.beat = t.beat :=
  exact_ofNat_div (Seconds.ofNat 60) t.bpm_pos

theorem carries_exact : Seconds.Carries exact where
  zero := rfl
  add := exact_add
  isFinite _ := rfl
  lt _ _ := rfl
  measure t := by
    rw [Tempo.measure, Tempo.measure, exact_mul, exact_beat]
    rfl
  seconds positive t := by
    rw [NoteValue.seconds, NoteValue.seconds, exact_mul, exact_mul, exact_wholeNotes positive,
      exact_beat]
    rfl

end Guarded

namespace Program

/-- Events of a schedule begin in their order, none before zero and all before the end, and none is
empty. On the way there lengths are read as positive note values only, so with divisions guarded
against zero the schedule is the same, without a fault in it. -/
theorem schedule_timeline {p : Program} {context : Context} {s : Schedule Rat}
    (scheduled : p.schedule context = .ok s) :
    s.events.Pairwise (fun e f => e.start ≤ f.start) ∧
      (∀ e ∈ s.events, 0 ≤ e.start ∧ 0 < e.duration ∧ e.start < s.finalCursor) ∧
      (∀ x ∈ timed context.tempo p.statements, 1 ≤ x.tempo.bpm ∧
        ∀ v, x.command.duration?.bind NoteValue.read? = some v → v.IsPositive) ∧
      p.schedule context = .ok (s.map Guarded.exact) := by
  obtain ⟨-, events, -, final⟩ := schedule_eq_closedForm scheduled
  rw [placed_eq] at events
  refine ⟨?_, ?_, ?_, ?_⟩
  · rw [events]
    exact pairwise_start_placedFrom s.discipline 0 _
  · intro e he
    rw [events] at he
    have early := start_lt_of_mem_placedFrom he
    rw [zero_add, ← final] at early
    exact ⟨(mem_placedFrom he).1, duration_pos_of_mem_placedFrom he, early⟩
  · intro x _
    refine ⟨x.tempo.bpm_pos, ?_⟩
    intro v read
    obtain ⟨token, -, read⟩ := Option.bind_eq_some_iff.1 read
    exact NoteValue.isPositive_of_read? read
  · rw [← map_schedule Guarded.carries_exact, scheduled]
    rfl

def zeros : Program :=
  .ofCommands [.note "C4" "0n", .note "C4" "4n", .setTempo { bpm := 1 }, .note "C4" "1/0",
    .note "C4" "0m", .rest "4n."]

theorem schedule_timeline_zeros :
    let s : Schedule Rat := zeros.place .standard .sequential
    zeros.schedule {} = .ok s ∧
      s.events.map (fun e => (e.start, e.duration)) = [(0, 1 / 2), (1 / 2, 90)] ∧
      s.finalCursor = 181 / 2 ∧
      s.events.Pairwise (fun e f => e.start ≤ f.start) ∧
      zeros.schedule {} = .ok (s.map Guarded.exact) := by
  intro s
  have scheduled : zeros.schedule {} = .ok s := by decide +kernel
  obtain ⟨ordered, -, -, guarded⟩ := schedule_timeline scheduled
  exact ⟨scheduled, by decide +kernel, by decide +kernel, ordered, guarded⟩

end Program

end ChordScript
