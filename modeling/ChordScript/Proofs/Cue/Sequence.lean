import ChordScript.Proofs.Cue.Sounding
import ChordScript.Proofs.Schedule.Tiling

namespace ChordScript

namespace Event

structure OneByOne (events : List (Event Rat)) : Prop where
  single : ∀ e ∈ events, e.pitches.length ≤ 1
  lasting : ∀ e ∈ events, e.start < e.finish
  apart : events.Pairwise fun e f => e.finish ≤ f.start

theorem OneByOne.filter {events : List (Event Rat)} (h : OneByOne events)
    (pick : Event Rat → Bool) : OneByOne (events.filter pick) where
  single e he := h.single e (List.mem_of_mem_filter he)
  lasting e he := h.lasting e (List.mem_of_mem_filter he)
  apart := h.apart.filter pick

end Event

namespace Cue

variable (note : Event Rat → Note)

def inTurn (events : List (Event Rat)) : List (Cue Rat) :=
  events.flatMap fun e => ofNote e (note e)

theorem sorted_inTurn {events : List (Event Rat)} (h : Event.OneByOne events) :
    StableSort.Sorted before (inTurn note events) := by
  have times {e : Event Rat} (he : e ∈ events) {c : Cue Rat} (hc : c ∈ ofNote e (note e)) :
      e.start ≤ c.time ∧ c.time ≤ e.finish ∧ (c.action = .noteOn → c.time < e.finish) ∧
        (c.action = .noteOff → e.start < c.time) := by
    have lasts := h.lasting e he
    rcases List.mem_cons.1 hc with rfl | hc
    · exact ⟨le_rfl, lasts.le, fun _ => lasts, nofun⟩
    · obtain rfl := List.mem_singleton.1 hc
      exact ⟨lasts.le, le_rfl, nofun, fun _ => lasts⟩
  refine List.pairwise_flatMap.2 ⟨?_, h.apart.imp_of_mem ?_⟩
  · intro e he
    refine List.pairwise_pair.2 ?_
    rw [Bool.eq_false_iff, ne_eq, before_rat]
    have lasts := h.lasting e he
    rintro (earlier | ⟨same, -, -⟩)
    · exact absurd earlier lasts.not_gt
    · exact absurd same lasts.ne'
  · intro e f he hf apart c hc d hd
    obtain ⟨-, c_late, c_on, -⟩ := times he hc
    obtain ⟨d_early, -, -, d_off⟩ := times hf hd
    rw [Bool.eq_false_iff, ne_eq, before_rat]
    rintro (earlier | ⟨same, ends, starts⟩)
    · linarith
    · have c_before := c_on starts
      have d_after := d_off ends
      linarith

theorem card_sound_inTurn {events : List (Event Rat)} {part : List (Cue Rat)}
    (h : part <+: inTurn note events) : (part.foldl sound ∅).card ≤ 1 := by
  induction events generalizing part with
  | nil =>
    rw [List.prefix_nil.1 h]
    exact Nat.zero_le 1
  | cons e rest ih =>
    rcases List.prefix_cons_iff.1 h with rfl | ⟨started, rfl, h_started⟩
    · exact Nat.zero_le 1
    · rcases List.prefix_cons_iff.1 h_started with rfl | ⟨ended, rfl, h_ended⟩
      · simp [sound]
      · have silent : sound (sound ∅ ⟨e.start, .noteOn, e.voice, note e⟩)
            ⟨e.finish, .noteOff, e.voice, note e⟩ = ∅ := by
          simp [sound, target]
        rw [List.foldl_cons, List.foldl_cons, silent]
        exact ih h_ended

end Cue

namespace Schedule

variable {s : Schedule Rat} (h : Event.OneByOne s.events)

include h

theorem exists_onlyNote {cues : List (Cue Rat)} (expanded : s.unsortedCues = .ok cues) :
    ∃ note : Event Rat → Note, ∀ e ∈ s.events, e.isAudible →
      e.pitches.map Pitch.note? = [some (note e)] ∧ e.notes = [note e] := by
  have one : ∀ e ∈ s.events, e.isAudible →
      ∃ n, e.pitches.map Pitch.note? = [some n] ∧ e.notes = [n] := by
    intro e he audible
    have some : e.pitches ≠ [] := by simpa [Event.isAudible] using audible
    obtain ⟨p, single⟩ : ∃ p, e.pitches = [p] := List.length_eq_one_iff.1
      (le_antisymm (h.single e he) (List.length_pos_iff.2 some))
    obtain ⟨n, note⟩ := exists_note expanded he (p := p) (by simp [single])
    exact ⟨n, by simp [single, note], by simp [Event.notes, single, note]⟩
  choose! note only using one
  exact ⟨note, only⟩

omit h in
theorem unsortedCues_eq_inTurn {cues : List (Cue Rat)} (expanded : s.unsortedCues = .ok cues)
    {note : Event Rat → Note} (only : ∀ e ∈ s.events, e.isAudible → e.notes = [note e]) :
    cues = Cue.inTurn note (s.events.filter (·.isAudible)) := by
  have inTurn (events : List (Event Rat)) (within : events ⊆ s.events) :
      (events.flatMap fun e => e.notes.flatMap (Cue.ofNote e)) =
        Cue.inTurn note (events.filter (·.isAudible)) := by
    induction events with
    | nil => rfl
    | cons e rest ih =>
      obtain ⟨he, others⟩ := List.cons_subset.1 within
      rw [List.flatMap_cons, ih others]
      cases audible : e.isAudible with
      | true =>
        rw [List.filter_cons_of_pos audible, only e he audible, List.flatMap_singleton]
        rfl
      | false =>
        have silent : e.pitches = [] := by simpa [Event.isAudible] using audible
        rw [List.filter_cons_of_neg (by simp [audible]), Event.notes, silent]
        rfl
  rw [unsortedCues_eq expanded]
  exact inTurn s.events (List.Subset.refl _)

theorem cues_eq_unsortedCues : s.cues = s.unsortedCues := by
  rw [cues]
  cases expanded : s.unsortedCues with
  | error e => rfl
  | ok cues =>
    obtain ⟨note, only⟩ := exists_onlyNote h expanded
    have sorted := Cue.sorted_inTurn note (h.filter (·.isAudible))
    rw [← unsortedCues_eq_inTurn expanded fun e he audible => (only e he audible).2] at sorted
    exact congrArg Except.ok (StableSort.sort_eq_self sorted)

end Schedule

namespace Program

theorem oneByOne_sequential {p : Program} {asked : Option Discipline} (tempo : Tempo)
    (h : Discipline.choose asked p.commands = some .sequential) :
    Event.OneByOne (p.place tempo .sequential : Schedule Rat).events where
  single e he := by
    rw [place_eq, placed_eq] at he
    obtain ⟨before, x, after, commands, events⟩ := exists_of_mem_placedFrom he
    have member : x ∈ timed tempo p.statements := by simp [commands]
    exact Timed.pitches_of_not_chord (not_isChord_of_mem_timed tempo h x member) events
  lasting e he := start_lt_finish he
  apart := place_sequential tempo h

/-- In a sequential schedule all time between events is the time of dropped commands, and the last
event is over when the program is. Its cues are its notes in the order in which they are written,
each started and ended in turn, so that there is never more than one of them. -/
theorem schedule_sequential {p : Program} {context : Context} {s : Schedule Rat}
    (scheduled : p.schedule context = .ok s) (sequential : s.discipline = .sequential) :
    s.gaps = Timed.droppedLengths (timed context.tempo p.statements) ∧
      s.soundingEnd = s.finalCursor ∧ s.cues = s.unsortedCues ∧
      ∀ cues, s.cues = .ok cues →
        (∃ note : Event Rat → Note,
          (∀ e ∈ s.events, e.isAudible → e.pitches.map Pitch.note? = [some (note e)]) ∧
            cues = (s.events.filter (·.isAudible)).flatMap fun e => Cue.ofNote e (note e)) ∧
          ∀ part, part <+: cues → (part.foldl Cue.sound ∅).card ≤ 1 := by
  obtain ⟨d, chosen, rfl, -⟩ := schedule_eq_ok.1 scheduled
  obtain rfl : d = .sequential := sequential
  have turns := oneByOne_sequential context.tempo chosen
  refine ⟨gaps_sequential context.tempo chosen, soundingEnd_sequential context.tempo chosen,
    Schedule.cues_eq_unsortedCues turns, ?_⟩
  intro cues cued
  rw [Schedule.cues_eq_unsortedCues turns] at cued
  obtain ⟨note, only⟩ := Schedule.exists_onlyNote turns cued
  have order := Schedule.unsortedCues_eq_inTurn cued fun e he audible => (only e he audible).2
  refine ⟨⟨note, fun e he audible => (only e he audible).1, order⟩, ?_⟩
  intro part h
  rw [order] at h
  exact Cue.card_sound_inTurn note h

def halting : Program :=
  .ofCommands [.note "C4" "1/4", .note "H4" "1/4", .setTempo { bpm := 40 }, .note "D4" "0m",
    .rest "1/4", .note "C4" "1/4"]

theorem schedule_sequential_halting :
    let s : Schedule Rat := halting.place .standard .sequential
    halting.schedule {} = .ok s ∧ s.discipline = .sequential ∧ s.gaps = [0, 1 / 2, 0, 0] ∧
      s.soundingEnd = 4 ∧
      s.cues = .ok [⟨0, .noteOn, .lead, 60⟩, ⟨1 / 2, .noteOff, .lead, 60⟩,
        ⟨5 / 2, .noteOn, .lead, 60⟩, ⟨4, .noteOff, .lead, 60⟩] := by
  intro s
  have scheduled : halting.schedule {} = .ok s := by decide +kernel
  obtain ⟨gaps, finish, order, -⟩ := schedule_sequential scheduled rfl
  refine ⟨scheduled, rfl, ?_, ?_, ?_⟩
  · rw [gaps]
    decide +kernel
  · rw [finish]
    decide +kernel
  · rw [order]
    decide +kernel

end Program

end ChordScript
