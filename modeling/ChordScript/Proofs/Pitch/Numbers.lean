import ChordScript.Pitch.Spelling
import Mathlib.Logic.Function.Basic

namespace ChordScript

theorem Letter.ofChar?_eq_some_iff {c : Char} {letter : Letter} :
    ofChar? c = some letter ↔ c = letter.toChar := by
  constructor
  · intro h
    unfold ofChar? at h
    split at h <;> cases h <;> rfl
  · rintro rfl
    exact ofChar?_toChar letter

theorem Letter.scan_eq_some_iff {s rest : List Char} {letter : Letter} :
    scan s = some (letter, rest) ↔ s = letter.toChar :: rest := by
  cases s with
  | nil => simp [scan]
  | cons c s =>
    simp only [scan, Option.map_eq_some_iff, Prod.mk.injEq, List.cons.injEq]
    constructor
    · rintro ⟨l, initial, rfl, rfl⟩
      exact ⟨ofChar?_eq_some_iff.1 initial, rfl⟩
    · rintro ⟨rfl, rfl⟩
      exact ⟨letter, ofChar?_toChar letter, rfl, rfl⟩

namespace Accidental

theorem spelling_scan (s : List Char) : (scan s).1.spelling ++ (scan s).2 = s := by
  unfold scan
  split <;> rfl

theorem scan_spelling (a : Accidental) {s : List Char}
    (octave : ∀ c ∈ s.head?, c = '-' ∨ c.isDigit = true) : scan (a.spelling ++ s) = (a, s) := by
  cases a with
  | flat | sharp => rfl
  | natural =>
    change scan s = (.natural, s)
    unfold scan
    split
    · exact absurd (octave '#' rfl) (by decide)
    · exact absurd (octave 'b' rfl) (by decide)
    · rfl

end Accidental

namespace Pitch

theorem midi_injective : Function.Injective midi := by
  rintro ⟨p, octave⟩ ⟨q, octave'⟩ same
  have p_lt := p.index_lt
  have q_lt := q.index_lt
  simp only [midi] at same
  obtain rfl : octave = octave' := by omega
  have index : p.index = q.index := by omega
  rw [← p.ofIndex_index, index, q.ofIndex_index]

theorem midi_ofSpelling (letter : Letter) (accidental : Accidental) (octave : Int) :
    (ofSpelling letter accidental octave).midi =
      (octave + 1) * 12 + letter.semitone + accidental.offset := by
  have natural : (letter.semitone : Int) % 12 = letter.semitone := by
    cases letter <;> rfl
  rw [ofSpelling, midi_transpose, midi, PitchClass.index_ofIndex, natural]

inductive WritesOctave : List Char → Int → Prop
  | digit {c : Char} : c.isDigit → WritesOctave [c] (digitValue c)
  | minus {c : Char} : c.isDigit → WritesOctave ['-', c] (-digitValue c)

/-- A letter, an accidental and an octave, with the number of semitones that they stand for. -/
inductive Spells : List Char → Int → Prop
  | mk (letter : Letter) (accidental : Accidental) {text : List Char} {octave : Int} :
    WritesOctave text octave →
      Spells (letter.toChar :: (accidental.spelling ++ text))
        ((octave + 1) * 12 + letter.semitone + accidental.offset)

theorem scanOctave_eq_some_iff {s : List Char} {octave : Int} :
    scanOctave s = some (octave, []) ↔ WritesOctave s octave := by
  constructor
  · intro h
    unfold scanOctave at h
    split at h
    · split at h <;> cases h
      exact .minus ‹_›
    · split at h <;> cases h
      exact .digit ‹_›
    · cases h
  · rintro (digit | digit) <;> simp [scanOctave, digit]

theorem WritesOctave.head {s : List Char} {octave : Int} (h : WritesOctave s octave) :
    ∀ c ∈ s.head?, c = '-' ∨ c.isDigit = true := by
  rintro c first
  cases h <;> cases first
  · exact .inr ‹_›
  · exact .inl rfl

theorem scan_eq_some_iff {s : List Char} {p : Pitch} :
    scan s = some (p, []) ↔ ∃ letter accidental text octave, WritesOctave text octave ∧
      s = letter.toChar :: (accidental.spelling ++ text) ∧
        p = ofSpelling letter accidental octave := by
  constructor
  · intro h
    obtain ⟨⟨letter, rest⟩, first, h⟩ := Option.bind_eq_some_iff.1 h
    obtain ⟨⟨octave, rest'⟩, last, h⟩ := Option.bind_eq_some_iff.1 h
    cases h
    refine ⟨letter, (Accidental.scan rest).1, (Accidental.scan rest).2, octave,
      scanOctave_eq_some_iff.1 last, ?_, rfl⟩
    rw [Letter.scan_eq_some_iff.1 first, Accidental.spelling_scan]
  · rintro ⟨letter, accidental, text, octave, writes, rfl, rfl⟩
    have first : Letter.scan (letter.toChar :: (accidental.spelling ++ text)) =
        some (letter, accidental.spelling ++ text) := Letter.scan_eq_some_iff.2 rfl
    have sign := accidental.scan_spelling writes.head
    simp [scan, first, sign, scanOctave_eq_some_iff.2 writes]

theorem read?_eq_some_iff {token : String} {p : Pitch} :
    read? token = some p ↔ scan token.toList = some (p, []) := by
  rw [read?]
  split
  · simp [*]
  · rename_i whole
    simpa using whole p

theorem midi_read?_eq_some_iff {token : String} {n : Int} :
    (read? token).map midi = some n ↔ Spells token.toList n := by
  rw [Option.map_eq_some_iff]
  constructor
  · rintro ⟨p, read, rfl⟩
    obtain ⟨letter, accidental, text, octave, writes, split, rfl⟩ :=
      scan_eq_some_iff.1 (read?_eq_some_iff.1 read)
    rw [split, midi_ofSpelling]
    exact .mk letter accidental writes
  · generalize spelled : token.toList = s
    rintro ⟨letter, accidental, writes⟩
    refine ⟨_, read?_eq_some_iff.2 ?_, midi_ofSpelling letter accidental _⟩
    exact scan_eq_some_iff.2 ⟨letter, accidental, _, _, writes, spelled, rfl⟩

end Pitch

end ChordScript
