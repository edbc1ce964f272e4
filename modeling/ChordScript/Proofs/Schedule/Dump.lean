import ChordScript.Proofs.Decimal.Seconds
import ChordScript.Proofs.Pitch.Spelling
import Mathlib.Data.List.Forall2

namespace ChordScript

open Text

theorem Discipline.name_injective : Function.Injective Discipline.name := by
  intro d d' same
  cases d <;> cases d' <;> first | rfl | exact absurd same (by decide)

theorem EventKind.name_injective : Function.Injective EventKind.name := by
  intro k k' same
  cases k <;> cases k' <;> first | rfl | exact absurd same (by decide)

theorem Voice.name_injective : Function.Injective Voice.name := by
  intro v v' same
  cases v <;> cases v' <;> first | rfl | exact absurd same (by decide)

theorem Pitch.not_mem_spelling {c : Char} (letters : ∀ k : PitchClass, c ∉ k.spelling)
    (minus : c ≠ '-') (digit : c.isDigit = false) (p : Pitch) : c ∉ p.spelling := by
  rw [spelling, List.mem_append, not_or]
  refine ⟨letters _, fun mem => ?_⟩
  rcases mem_signedNumeral mem with rfl | isDigit
  · exact minus rfl
  · rw [digit] at isDigit
    cases isDigit

theorem Pitch.quote_not_mem_spelling : ∀ p : Pitch, '"' ∉ p.spelling :=
  not_mem_spelling (by intro k; cases k <;> decide) (by decide) (by decide)

theorem Pitch.newline_not_mem_spelling : ∀ p : Pitch, '\n' ∉ p.spelling :=
  not_mem_spelling (by intro k; cases k <;> decide) (by decide) (by decide)

namespace Dump

theorem pitch_injective : Function.Injective pitch := by
  intro p q same
  have spelled : p.spelling = q.spelling := by
    rw [pitch, pitch] at same
    split at same <;> split at same
    · exact List.append_cancel_right (List.cons.inj same).2
    · exact absurd (same ▸ List.mem_cons_self) q.quote_not_mem_spelling
    · exact absurd (same ▸ List.mem_cons_self) p.quote_not_mem_spelling
    · exact same
  exact Pitch.text_injective (congrArg String.ofList spelled)

theorem newline_not_mem_pitch (p : Pitch) : '\n' ∉ pitch p := by
  rw [pitch]
  split <;> simp [p.newline_not_mem_spelling]

def pitchLine (p : Pitch) : List Char := "      - ".toList ++ pitch p

theorem pitchLines_cons (p : Pitch) (ps : List Pitch) :
    pitchLines (p :: ps) = "    pitches:".toList :: (p :: ps).map pitchLine := rfl

theorem newline_not_mem_pitchLines (pitches : List Pitch) : ∀ l ∈ pitchLines pitches, '\n' ∉ l := by
  cases pitches with
  | nil => decide
  | cons p ps =>
    rw [pitchLines_cons, List.forall_mem_cons, List.forall_mem_map]
    exact ⟨by decide, fun q _ => List.not_mem_append (by decide) (newline_not_mem_pitch q)⟩

section

variable {τ : Type} {write : τ → List Char}

theorem eventsLines_cons (e : Event τ) (events : List (Event τ)) :
    eventsLines write (e :: events) =
      "events:".toList :: (e :: events).flatMap (eventLines write) := rfl

section

variable (newline : ∀ x, '\n' ∉ write x)

include newline

theorem newline_not_mem_eventLines (e : Event τ) : ∀ l ∈ eventLines write e, '\n' ∉ l := by
  have kind : '\n' ∉ e.kind.name.toList := by cases e.kind <;> decide
  have voice : '\n' ∉ e.voice.name.toList := by cases e.voice <;> decide
  simp only [eventLines, List.forall_mem_append, List.forall_mem_cons]
  refine ⟨⟨⟨?_, ?_, List.forall_mem_nil _⟩, newline_not_mem_pitchLines _⟩, ?_, ?_,
    List.forall_mem_nil _⟩
  · exact List.not_mem_append (by decide) kind
  · exact List.not_mem_append (by decide) voice
  · exact List.not_mem_append (by decide) (newline _)
  · exact List.not_mem_append (by decide) (newline _)

theorem newline_not_mem_eventsLines (events : List (Event τ)) :
    ∀ l ∈ eventsLines write events, '\n' ∉ l := by
  cases events with
  | nil => exact List.forall_mem_singleton.2 (by decide)
  | cons e events =>
    rw [eventsLines_cons, List.forall_mem_cons, List.forall_mem_flatMap]
    exact ⟨by decide, fun e _ => newline_not_mem_eventLines newline e⟩

theorem newline_not_mem_lines (s : Schedule τ) : ∀ l ∈ lines write s, '\n' ∉ l := by
  have discipline : '\n' ∉ s.discipline.name.toList := by cases s.discipline <;> decide
  simp only [lines, List.forall_mem_append, List.forall_mem_cons]
  refine ⟨⟨⟨by decide, ?_, List.forall_mem_nil _⟩, newline_not_mem_eventsLines newline _⟩, ?_,
    List.forall_mem_nil _⟩
  · exact List.not_mem_append (by decide) discipline
  · exact List.not_mem_append (by decide) (newline _)

theorem lines_dumpWith (s : Schedule τ) :
    Text.lines (s.dumpWith write).toList = lines write s ++ [[]] := by
  rw [Schedule.dumpWith, String.toList_ofList]
  exact lines_flatMap_newline (newline_not_mem_lines newline s)

end

section

variable {start start' : List Char} {rest rest' : List (List Char)}

theorem pitch_ne_start (written start : List Char) :
    "      - ".toList ++ written ≠ "    start_offset: ".toList ++ start := by
  simp

theorem map_pitchLine_append {ps qs : List Pitch}
    (same : ps.map pitchLine ++ ("    start_offset: ".toList ++ start) :: rest =
      qs.map pitchLine ++ ("    start_offset: ".toList ++ start') :: rest') :
    ps = qs ∧ start = start' ∧ rest = rest' := by
  induction ps generalizing qs with
  | nil =>
    cases qs with
    | nil =>
      obtain ⟨first, others⟩ := List.cons.inj same
      exact ⟨rfl, List.append_cancel_left first, others⟩
    | cons q qs => exact absurd (List.cons.inj same).1.symm (pitch_ne_start _ _)
  | cons p ps ih =>
    cases qs with
    | nil => exact absurd (List.cons.inj same).1 (pitch_ne_start _ _)
    | cons q qs =>
      obtain ⟨first, others⟩ := List.cons.inj same
      obtain ⟨rfl, starts, rests⟩ := ih others
      exact ⟨congrArg (· :: ps) (pitch_injective (List.append_cancel_left first)), starts, rests⟩

theorem pitchLines_append {ps qs : List Pitch}
    (same : pitchLines ps ++ ("    start_offset: ".toList ++ start) :: rest =
      pitchLines qs ++ ("    start_offset: ".toList ++ start') :: rest') :
    ps = qs ∧ start = start' ∧ rest = rest' := by
  cases ps with
  | nil =>
    cases qs with
    | nil =>
      obtain ⟨first, others⟩ := List.cons.inj (List.cons.inj same).2
      exact ⟨rfl, List.append_cancel_left first, others⟩
    | cons q qs => exact absurd (List.cons.inj same).1 (by decide)
  | cons p ps =>
    cases qs with
    | nil => exact absurd (List.cons.inj same).1 (by decide)
    | cons q qs =>
      rw [pitchLines_cons, pitchLines_cons] at same
      exact map_pitchLine_append (List.cons.inj same).2

end

structure Alike (write : τ → List Char) (e e' : Event τ) : Prop where
  kind : e.kind = e'.kind
  voice : e.voice = e'.voice
  pitches : e.pitches = e'.pitches
  start : write e.start = write e'.start
  duration : write e.duration = write e'.duration

theorem eventLines_append {e e' : Event τ} {rest rest' : List (List Char)}
    (same : eventLines write e ++ rest = eventLines write e' ++ rest') :
    Alike write e e' ∧ rest = rest' := by
  simp only [eventLines, List.append_assoc, List.cons_append, List.nil_append] at same
  obtain ⟨kind, same⟩ := List.cons.inj same
  obtain ⟨voice, same⟩ := List.cons.inj same
  obtain ⟨pitches, start, same⟩ := pitchLines_append same
  obtain ⟨duration, rests⟩ := List.cons.inj same
  have kind := EventKind.name_injective (String.toList_injective (List.append_cancel_left kind))
  have voice := Voice.name_injective (String.toList_injective (List.append_cancel_left voice))
  exact ⟨⟨kind, voice, pitches, start, List.append_cancel_left duration⟩, rests⟩

theorem final_ne_kind (final kind : List Char) :
    "final_cursor: ".toList ++ final ≠ "  - kind: ".toList ++ kind := by
  simp

theorem flatMap_eventLines_append {events events' : List (Event τ)} {final final' : List Char}
    (same : events.flatMap (eventLines write) ++ ["final_cursor: ".toList ++ final] =
      events'.flatMap (eventLines write) ++ ["final_cursor: ".toList ++ final']) :
    List.Forall₂ (Alike write) events events' ∧ final = final' := by
  induction events generalizing events' with
  | nil =>
    cases events' with
    | nil => exact ⟨.nil, List.append_cancel_left (List.cons.inj same).1⟩
    | cons e' events' => exact absurd (List.cons.inj same).1 (final_ne_kind _ _)
  | cons e events ih =>
    cases events' with
    | nil => exact absurd (List.cons.inj same).1.symm (final_ne_kind _ _)
    | cons e' events' =>
      simp only [List.flatMap_cons, List.append_assoc] at same
      obtain ⟨alike, same⟩ := eventLines_append same
      obtain ⟨others, finals⟩ := ih same
      exact ⟨.cons alike others, finals⟩

theorem eventsLines_append {events events' : List (Event τ)} {final final' : List Char}
    (same : eventsLines write events ++ ["final_cursor: ".toList ++ final] =
      eventsLines write events' ++ ["final_cursor: ".toList ++ final']) :
    List.Forall₂ (Alike write) events events' ∧ final = final' := by
  cases events with
  | nil =>
    cases events' with
    | nil => exact ⟨.nil, List.append_cancel_left (List.cons.inj (List.cons.inj same).2).1⟩
    | cons e' events' => exact absurd (List.cons.inj same).1 (by decide)
  | cons e events =>
    cases events' with
    | nil => exact absurd (List.cons.inj same).1 (by decide)
    | cons e' events' =>
      rw [eventsLines_cons, eventsLines_cons] at same
      exact flatMap_eventLines_append (List.cons.inj same).2

theorem lines_eq {s s' : Schedule τ} (same : lines write s = lines write s') :
    s.discipline = s'.discipline ∧ List.Forall₂ (Alike write) s.events s'.events ∧
      write s.finalCursor = write s'.finalCursor := by
  simp only [lines, List.cons_append, List.nil_append] at same
  obtain ⟨discipline, same⟩ := List.cons.inj (List.cons.inj same).2
  have discipline :=
    Discipline.name_injective (String.toList_injective (List.append_cancel_left discipline))
  exact ⟨discipline, eventsLines_append same⟩

end

/-- A way to write seconds on one line, by which all numbers but NaN are told from each other. -/
structure Legible (write : Float → List Char) : Prop where
  newline (x : Float) : '\n' ∉ write x
  injective {x y : Float} (hx : x.isNaN = false) (hy : y.isNaN = false) (same : write x = write y) :
    x = y

theorem legible_seconds : Legible seconds := ⟨newline_not_mem_seconds, seconds_injective⟩

end Dump

structure Event.NaNFree (e : Event Float) : Prop where
  start : e.start.isNaN = false
  duration : e.duration.isNaN = false

structure Schedule.NaNFree (s : Schedule Float) : Prop where
  events : ∀ e ∈ s.events, e.NaNFree
  finalCursor : s.finalCursor.isNaN = false

structure Schedule.Agrees (s s' : Schedule Float) : Prop where
  discipline : s.discipline = s'.discipline
  events : s.events = s'.events
  finalCursor : s.finalCursor = s'.finalCursor

namespace Dump

variable {write : Float → List Char} (legible : Legible write)

include legible

theorem Alike.eq {e e' : Event Float} (h : Alike write e e') (he : e.NaNFree) (he' : e'.NaNFree) :
    e = e' := by
  obtain ⟨kind, voice, pitches, start, duration⟩ := h
  have start := legible.injective he.start he'.start start
  have duration := legible.injective he.duration he'.duration duration
  cases e
  cases e'
  cases kind
  cases voice
  cases pitches
  cases start
  cases duration
  rfl

theorem eq_of_alike {events events' : List (Event Float)}
    (h : List.Forall₂ (Alike write) events events') (free : ∀ e ∈ events, e.NaNFree)
    (free' : ∀ e ∈ events', e.NaNFree) : events = events' := by
  induction h with
  | nil => rfl
  | cons first _ ih =>
    obtain ⟨here, free⟩ := List.forall_mem_cons.1 free
    obtain ⟨here', free'⟩ := List.forall_mem_cons.1 free'
    rw [first.eq legible here here', ih free free']

theorem dumpWith_eq_iff {s s' : Schedule Float} (hs : s.NaNFree) (hs' : s'.NaNFree) :
    s.dumpWith write = s'.dumpWith write ↔ s.Agrees s' := by
  constructor
  · intro same
    have same := congrArg (Text.lines ·.toList) same
    simp only [lines_dumpWith legible.newline] at same
    obtain ⟨discipline, events, finalCursor⟩ := lines_eq (List.append_cancel_right same)
    exact ⟨discipline, eq_of_alike legible events hs.events hs'.events,
      legible.injective hs.finalCursor hs'.finalCursor finalCursor⟩
  · rintro ⟨discipline, events, finalCursor⟩
    rw [Schedule.dumpWith, Schedule.dumpWith, lines, lines, discipline, events, finalCursor]

end Dump

/-- Schedules without NaN have the same dump just if they agree in all but their diagnostics. This
takes no more of the way to write seconds than that it is legible, and the one of the dump is. -/
theorem Schedule.dump_eq_iff {s s' : Schedule Float} (hs : s.NaNFree) (hs' : s'.NaNFree) :
    (∀ write, Dump.Legible write → (s.dumpWith write = s'.dumpWith write ↔ s.Agrees s')) ∧
      Dump.Legible Dump.seconds ∧ (s.dump = s'.dump ↔ s.Agrees s') :=
  ⟨fun _ legible => Dump.dumpWith_eq_iff legible hs hs', Dump.legible_seconds,
    Dump.dumpWith_eq_iff Dump.legible_seconds hs hs'⟩

namespace Dump

def piece (finalCursor : Float) (diagnostics : List Diagnostic) : Schedule Float where
  discipline := .sequential
  events := [.chord [] 0 0.1, .note .bass ⟨.cSharp, -1⟩ 0.1 0.1, .rest 0.2 0.1]
  finalCursor := finalCursor
  diagnostics := diagnostics

theorem nanFree_piece (finalCursor : Float) (number : finalCursor.isNaN = false)
    (diagnostics : List Diagnostic) : (piece finalCursor diagnostics).NaNFree where
  events := by
    simp only [piece, List.forall_mem_cons]
    exact ⟨⟨rfl, rfl⟩, ⟨rfl, rfl⟩, ⟨rfl, rfl⟩, List.forall_mem_nil _⟩
  finalCursor := number

theorem dump_eq_iff_piece :
    let s := piece 0.3 []
    let later := piece (0.1 + 0.2) []
    let reported := piece 0.3 [⟨some 2, .duration "1/0"⟩]
    s.NaNFree ∧ later.NaNFree ∧ reported.NaNFree ∧ s.dump ≠ later.dump ∧ s.dump = reported.dump := by
  have later : (0.1 + 0.2 : Float).isNaN = false := by decide +kernel
  have free := nanFree_piece 0.3 rfl
  refine ⟨free _, nanFree_piece _ later _, free _, fun same => ?_, ?_⟩
  · have agrees := (Schedule.dump_eq_iff (free _) (nanFree_piece _ later _)).2.2.1 same
    exact absurd agrees.finalCursor (by decide +kernel)
  · exact (Schedule.dump_eq_iff (free _) (free _)).2.2.2 ⟨rfl, rfl, rfl⟩

end Dump

end ChordScript
