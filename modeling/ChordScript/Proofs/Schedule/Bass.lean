import ChordScript.Proofs.Schedule.Timeline

namespace ChordScript

namespace Timed

def bassNotes (x : Timed) (start : Rat) : List (Event Rat) :=
  (x.events start).filter (·.voice = .bass)

theorem bassNotes_cases (x : Timed) (start : Rat) :
    x.bassNotes start = [] ∨
      x.command.isChord = true ∧
        ∃ pitch, x.bassNotes start = [.note .bass pitch start x.measure] := by
  rw [bassNotes, events]
  split
  · rename_i root quality _ _ command _
    split
    · cases Command.bassOf? root quality with
      | none => exact .inl rfl
      | some pitch => exact .inr ⟨by rw [command]; rfl, pitch, rfl⟩
    · exact .inl rfl
  · rename_i pitch _ _ _ _
    cases Pitch.read? pitch <;> exact .inl rfl
  · exact .inl rfl
  · exact .inl rfl

theorem bass_of_mem {x : Timed} {start : Rat} {e : Event Rat} (h : e ∈ x.events start)
    (bass : e.voice = .bass) : x.command.isChord = true ∧ e.finish = start + x.measure := by
  have member : e ∈ x.bassNotes start := List.mem_filter.2 ⟨h, by simpa using bass⟩
  rcases x.bassNotes_cases start with none | ⟨chord, pitch, one⟩
  · rw [none] at member
    cases member
  · rw [one, List.mem_singleton] at member
    rw [member]
    exact ⟨chord, rfl⟩

end Timed

namespace Walk

theorem offset_finish_cons (d : Discipline) (w : Walk Rat) {s : Statement}
    (timed : s.command.tempo? = none) (rest : List Statement) :
    (finish d w (s :: rest)).cursor.offset =
      w.cursor.offset + (Timed.mk s.line s.command w.tempo).step d +
        ((Program.timed w.tempo rest).map (·.step d)).sum := by
  rw [offset_finish, Program.timed_cons, timed, List.map_cons, List.sum_cons, add_assoc]

end Walk

namespace Program

variable {tempo : Tempo} {before between : List Statement} {first last : Statement}
  {e f : Event Rat}

theorem chord_of_bass {d : Discipline} (he : e ∈ eventsAfter tempo d before first)
    (bass : e.voice = .bass) : first.command.isChord = true := by
  rw [eventsAfter, Walk.events_outcome _ _ first.line] at he
  exact (Timed.bass_of_mem he bass).1

theorem bass_gap (he : e ∈ eventsAfter tempo .measureAligned before first)
    (hf : f ∈ eventsAfter tempo .measureAligned (before ++ first :: between) last)
    (bass : e.voice = .bass) :
    f.start =
      e.finish + ((timed (walked tempo .measureAligned before : Walk Rat).tempo between).map
        (·.measure)).sum := by
  have chord := chord_of_bass he bass
  have is_timed : first.command.tempo? = none := by
    cases command : first.command with
    | setTempo t =>
      rw [command] at chord
      cases chord
    | chord | note | rest => rfl
  rw [eventsAfter, Walk.events_outcome _ _ first.line] at he
  rw [start_of_mem_eventsAfter hf, walked, Walk.finish_append,
    Walk.offset_finish_cons _ _ is_timed, (Timed.bass_of_mem he bass).2]
  rfl

theorem timed_eq_nil (h : ∀ s ∈ between, s.command.tempo?.isSome) : timed tempo between = [] := by
  induction between generalizing tempo with
  | nil => rfl
  | cons s rest ih =>
    obtain ⟨first, others⟩ := List.forall_mem_cons.1 h
    obtain ⟨t, sets⟩ := Option.isSome_iff_exists.1 first
    rw [timed_cons, sets]
    exact ih others

theorem pairwise_bass {p : Program} {asked : Option Discipline} {d : Discipline} (tempo : Tempo)
    (h : Discipline.choose asked p.commands = some d) :
    ((p.place tempo d : Schedule Rat).events.filter (·.voice = .bass)).Pairwise
      fun e f => e.finish ≤ f.start := by
  cases d with
  | sequential => exact (place_sequential tempo h).filter _
  | measureAligned =>
    rw [place_eq, placed_eq]
    apply pairwise_placedFrom
    intro x _ start
    exact (x.bassNotes_cases start).imp_right fun ⟨_, _, one⟩ => ⟨_, one, rfl⟩

/-- No bass note begins before the one that came before it is over, and the bass notes of chords
with nothing but tempos between them follow each other without a gap. -/
theorem bass_monophonic {p : Program} {context : Context} {s : Schedule Rat}
    (scheduled : p.schedule context = .ok s) :
    (s.events.filter (·.voice = .bass)).Pairwise (fun e f => e.finish ≤ f.start) ∧
      ∀ before first between last after,
        p.statements = before ++ first :: (between ++ last :: after) →
        (∀ x ∈ between, x.command.tempo?.isSome) →
        ∀ e f : Event Rat, e ∈ eventsAfter context.tempo s.discipline before first →
          f ∈ eventsAfter context.tempo s.discipline (before ++ first :: between) last →
          e.voice = .bass → f.voice = .bass → e.finish = f.start := by
  obtain ⟨d, chosen, rfl, -⟩ := schedule_eq_ok.1 scheduled
  refine ⟨pairwise_bass context.tempo chosen, ?_⟩
  intro before first between last after split tempos e f he hf bass _
  change e ∈ eventsAfter context.tempo d before first at he
  change f ∈ eventsAfter context.tempo d _ last at hf
  cases d with
  | sequential =>
    have member : first.command ∈ p.commands := by simp [commands, split]
    have chord := chord_of_bass he bass
    rw [Discipline.not_isChord_of_choose chosen _ member] at chord
    cases chord
  | measureAligned =>
    have gap := bass_gap he hf bass
    rw [timed_eq_nil tempos, List.map_nil, List.sum_nil, add_zero] at gap
    exact gap.symm

def accompanied : Program :=
  .ofCommands [.chord "A2" "minor" "2m", .setTempo { bpm := 30 }, .chord "C3" "major" "1/2"]

theorem bass_monophonic_accompanied :
    let s : Schedule Rat := accompanied.place .standard .measureAligned
    accompanied.schedule {} = .ok s ∧
      s.events.filter (·.voice = .bass) = [.note .bass ⟨.a, 2⟩ 0 2, .note .bass ⟨.c, 2⟩ 2 8] ∧
      (s.events.filter (·.voice = .bass)).Pairwise (fun e f => e.finish ≤ f.start) ∧
      (Event.note .bass ⟨.a, 2⟩ 0 2 : Event Rat).finish = 2 := by
  intro s
  have scheduled : accompanied.schedule {} = .ok s := by decide +kernel
  obtain ⟨pairwise, meet⟩ := bass_monophonic scheduled
  refine ⟨scheduled, by decide +kernel, pairwise, ?_⟩
  refine meet [] ⟨none, .chord "A2" "minor" "2m"⟩ [⟨none, .setTempo { bpm := 30 }⟩]
    ⟨none, .chord "C3" "major" "1/2"⟩ [] rfl (by decide) _ (.note .bass ⟨.c, 2⟩ 2 8) ?_ ?_ rfl rfl
  · decide +kernel
  · decide +kernel

end Program

end ChordScript
