import ChordScript.Proofs.Pitch.Numbers
import ChordScript.Proofs.Schedule.Outcome
import ChordScript.Proofs.Text.Digits

namespace ChordScript

open Text

namespace Pitch

theorem read?_eq_some_iff_spells {token : String} {p : Pitch} :
    read? token = some p ↔ Spells token.toList p.midi := by
  rw [← midi_read?_eq_some_iff, Option.map_eq_some_iff]
  constructor
  · exact fun read => ⟨p, read, rfl⟩
  · rintro ⟨q, read, same⟩
    exact midi_injective same ▸ read

theorem midi_eq_iff {p : Pitch} {n : Int} :
    p.midi = n ↔ (p.pitchClass.index : Int) = n % 12 ∧ p.octave = n / 12 - 1 := by
  have bound := p.pitchClass.index_lt
  simp only [midi]
  omega

/-- A token is read if it spells a number, as the pitch with that number, and else it is refused as
it stands. An accidental may lead into the octave above or below. -/
theorem readPitch_iff_spells (token : String) :
    (∀ p, Command.readPitch token = .ok p ↔ ∃ n, Spells token.toList n ∧ p.midi = n ∧
      (p.pitchClass.index : Int) = n % 12 ∧ p.octave = n / 12 - 1) ∧
    (∀ error, Command.readPitch token = .error error ↔
      (∀ n, ¬ Spells token.toList n) ∧ error = .rootFormat token) := by
  constructor
  · intro p
    rw [Command.readPitch, Except.elim_eq_ok_iff, read?_eq_some_iff_spells]
    constructor
    · exact fun spells => ⟨p.midi, spells, rfl, midi_eq_iff.1 rfl⟩
    · rintro ⟨n, spells, rfl, -⟩
      exact spells
  · intro error
    have unread : read? token = none ↔ ∀ n, ¬ Spells token.toList n := by
      simp only [← midi_read?_eq_some_iff, ← ne_eq, ← Option.eq_none_iff_forall_ne_some,
        Option.map_eq_none_iff]
    rw [Command.readPitch, Except.elim_eq_error_iff, unread]

example : (read? "Cb-1").map midi = some (-1) := by decide

end Pitch

theorem PitchClass.exists_spelling (p : PitchClass) : ∃ (letter : Letter) (accidental : Accidental),
    p.spelling = letter.toChar :: accidental.spelling ∧
      (letter.semitone : Int) + accidental.offset = p.index := by
  cases p
  exacts [⟨.c, .natural, rfl, rfl⟩, ⟨.c, .sharp, rfl, rfl⟩, ⟨.d, .natural, rfl, rfl⟩,
    ⟨.d, .sharp, rfl, rfl⟩, ⟨.e, .natural, rfl, rfl⟩, ⟨.f, .natural, rfl, rfl⟩,
    ⟨.f, .sharp, rfl, rfl⟩, ⟨.g, .natural, rfl, rfl⟩, ⟨.g, .sharp, rfl, rfl⟩,
    ⟨.a, .natural, rfl, rfl⟩, ⟨.a, .sharp, rfl, rfl⟩, ⟨.b, .natural, rfl, rfl⟩]

theorem Letter.toChar_injective : Function.Injective toChar := fun l l' same =>
  Option.some.inj ((ofChar?_toChar l).symm.trans (same ▸ ofChar?_toChar l'))

namespace Pitch

theorem eq_of_spelling_append {letter letter' : Letter} {accidental accidental' : Accidental}
    {s s' : List Char} (octave : ∀ c ∈ s.head?, c = '-' ∨ c.isDigit = true)
    (octave' : ∀ c ∈ s'.head?, c = '-' ∨ c.isDigit = true)
    (same : letter.toChar :: (accidental.spelling ++ s) =
      letter'.toChar :: (accidental'.spelling ++ s')) :
    letter = letter' ∧ accidental = accidental' ∧ s = s' := by
  obtain ⟨first, others⟩ := List.cons.inj same
  have scanned := congrArg Accidental.scan others
  rw [accidental.scan_spelling octave, accidental'.scan_spelling octave'] at scanned
  exact ⟨Letter.toChar_injective first, Prod.mk.inj scanned⟩

section

variable {m : Nat} {n : Int} {c : Char}

theorem digitValue_of_numeral (single : numeral m = [c]) : digitValue c = m := by
  have number := valueOf_numeral m
  rw [single] at number
  simpa [valueOf, digitValue, Nat.ofDigitChars_cons] using number

theorem isDigit_of_numeral (single : numeral m = [c]) : c.isDigit = true :=
  isDigit_of_mem_numeral (n := m) (by simp [single])

theorem writesOctave_numeral_iff : WritesOctave (numeral m) n ↔ m ≤ 9 ∧ n = m := by
  rw [← exists_numeral_eq_singleton_iff]
  constructor
  · intro writes
    generalize printed : numeral m = s at writes
    cases writes with
    | @digit c => exact ⟨⟨c, rfl⟩, by rw [digitValue_of_numeral printed]⟩
    | minus => exact absurd (printed ▸ List.mem_cons_self) (minus_not_mem_numeral m)
  · rintro ⟨⟨c, single⟩, rfl⟩
    rw [single, ← digitValue_of_numeral single]
    exact .digit (isDigit_of_numeral single)

theorem writesOctave_minus_numeral_iff :
    WritesOctave ('-' :: numeral m) n ↔ m ≤ 9 ∧ n = -m := by
  rw [← exists_numeral_eq_singleton_iff]
  constructor
  · intro writes
    generalize printed : '-' :: numeral m = s at writes
    cases writes with
    | digit digit =>
      obtain ⟨rfl, -⟩ := List.cons.inj printed
      exact absurd digit (by decide)
    | @minus c =>
      have single : numeral m = [c] := (List.cons.inj printed).2
      exact ⟨⟨c, single⟩, by rw [digitValue_of_numeral single]⟩
  · rintro ⟨⟨c, single⟩, rfl⟩
    rw [single, ← digitValue_of_numeral single]
    exact .minus (isDigit_of_numeral single)

end

theorem writesOctave_signedNumeral_iff {octave n : Int} :
    WritesOctave (signedNumeral octave) n ↔ (-9 ≤ octave ∧ octave ≤ 9) ∧ n = octave := by
  cases octave with
  | ofNat m =>
    rw [signedNumeral, writesOctave_numeral_iff, Int.ofNat_eq_natCast]
    omega
  | negSucc m =>
    rw [signedNumeral, writesOctave_minus_numeral_iff, Int.negSucc_eq]
    omega

theorem spells_spelling_iff {p : Pitch} {n : Int} :
    Spells p.spelling n ↔ (-9 ≤ p.octave ∧ p.octave ≤ 9) ∧ n = p.midi := by
  obtain ⟨letter, accidental, printed, index⟩ := p.pitchClass.exists_spelling
  rw [spelling, printed, List.cons_append]
  have number : p.midi = (p.octave + 1) * 12 + letter.semitone + accidental.offset := by
    rw [midi, ← index, Int.add_assoc]
  constructor
  · intro spells
    generalize same : letter.toChar :: (accidental.spelling ++ signedNumeral p.octave) = s at spells
    cases spells with
    | mk letter' accidental' writes =>
      obtain ⟨rfl, rfl, rfl⟩ :=
        eq_of_spelling_append (fun c => mem_head?_signedNumeral) writes.head same
      obtain ⟨range, rfl⟩ := writesOctave_signedNumeral_iff.1 writes
      exact ⟨range, number.symm⟩
  · rintro ⟨range, rfl⟩
    rw [number]
    exact .mk letter accidental (writesOctave_signedNumeral_iff.2 ⟨range, rfl⟩)

theorem text_injective : Function.Injective text := by
  intro p q same
  have same : p.spelling = q.spelling := String.ofList_injective same
  obtain ⟨letter, accidental, printed, index⟩ := p.pitchClass.exists_spelling
  obtain ⟨letter', accidental', printed', index'⟩ := q.pitchClass.exists_spelling
  rw [spelling, spelling, printed, printed', List.cons_append, List.cons_append] at same
  obtain ⟨rfl, rfl, octave⟩ := eq_of_spelling_append (fun c => mem_head?_signedNumeral)
    (fun c => mem_head?_signedNumeral) same
  apply midi_injective
  rw [midi, midi, ← index, ← index', signedNumeral_injective octave]

theorem read?_text_eq_some_iff {p q : Pitch} :
    read? p.text = some q ↔ (-9 ≤ p.octave ∧ p.octave ≤ 9) ∧ q = p := by
  rw [read?_eq_some_iff_spells, text, String.toList_ofList, spells_spelling_iff,
    midi_injective.eq_iff]

/-- A pitch is read again from its own text if its octave is a single digit, and else the text is
refused; no two pitches have one text. Of the tokens that can be read, one a semitone above the last
octave gives an event whose pitch cannot. -/
theorem readPitch_text :
    (∀ p : Pitch, Command.readPitch p.text =
      if -9 ≤ p.octave ∧ p.octave ≤ 9 then .ok p else .error (.rootFormat p.text)) ∧
    Function.Injective text ∧
    (∀ {τ : Type} (e : Event τ), ∀ p ∈ e.pitches,
      (Command.readPitch p.text = .ok p ↔ -9 ≤ p.octave ∧ p.octave ≤ 9)) ∧
    ∃ s : Schedule Rat, (Program.ofCommands [.note "B#9" "1m"]).schedule {} = .ok s ∧
      ∃ e ∈ s.events, ∃ p ∈ e.pitches, Command.readPitch p.text = .error (.rootFormat "C10") := by
  refine ⟨fun p => ?_, text_injective, fun e p _ => ?_, ?_⟩
  · split
    · rename_i range
      rw [Command.readPitch, Except.elim_eq_ok_iff]
      exact read?_text_eq_some_iff.2 ⟨range, rfl⟩
    · rename_i range
      rw [Command.readPitch, Except.elim_eq_error_iff, Option.eq_none_iff_forall_ne_some]
      exact ⟨fun q read => range (read?_text_eq_some_iff.1 read).1, rfl⟩
  · rw [Command.readPitch, Except.elim_eq_ok_iff, read?_text_eq_some_iff, and_iff_left rfl]
  · let program : Program := .ofCommands [.note "B#9" "1m"]
    exact ⟨program.place .standard .sequential, by decide +kernel, .note .lead ⟨.c, 10⟩ 0 2,
      by decide +kernel, ⟨.c, 10⟩, List.mem_singleton_self _, by decide⟩

end Pitch

end ChordScript
