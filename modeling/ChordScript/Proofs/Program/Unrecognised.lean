import ChordScript.Proofs.Program.Line

namespace ChordScript.Line

open Text

variable {line : List Char}

/-- The first word is no keyword, does not set a tempo in parentheses and is no pitch. -/
def Unrecognised (line : List Char) : Prop :=
  ∀ w ∈ (words line).head?, String.ofList w ∉ ["setTempo", "chord", "play", "rest"] ∧
    ¬ "setTempo(".toList <+: w ∧ Pitch.read? (.ofList w) = none

instance : DecidablePred Unrecognised := fun line =>
  inferInstanceAs (Decidable (∀ w ∈ (words line).head?, _))

structure TakenForNote (line : List Char) (word duration : String) : Prop where
  words : (words line).map .ofList = [word, duration]
  letter : beginsWithLetter word = true
  no_header : isBlockHeader (trim line) = false

theorem Unrecognised.isSetTempo (unrecognised : Unrecognised line) :
    (words line).head?.any isSetTempo = false := by
  cases first : (words line).head? with
  | none => rfl
  | some w =>
    obtain ⟨no_keyword, no_call, -⟩ := unrecognised w first
    have plain : w ≠ setTempoKeyword := by
      rintro rfl
      have keyword : String.ofList setTempoKeyword = "setTempo" := String.ofList_toList
      exact no_keyword (keyword ▸ List.mem_cons_self)
    have call : (setTempoKeyword ++ ['(']).isPrefixOf w = false := by
      rw [← Bool.not_eq_true, List.isPrefixOf_iff_prefix]
      exact no_call
    simp [Line.isSetTempo, plain, call]

theorem eq_note_of_commandOfWords? {ts : List String} {c : Command}
    (command : commandOfWords? ts = some c)
    (first : ∀ t ∈ ts.head?, t ∉ ["setTempo", "chord", "play", "rest"]) :
    ∃ word duration, ts = [word, duration] ∧ beginsWithLetter word = true ∧
      c = .note word duration := by
  fun_cases commandOfWords? ts <;> simp_all [commandOfWords?]

theorem Unrecognised.takenForNote (unrecognised : Unrecognised line) {c : Command}
    (read : Line.read line = .ok (some c)) :
    ∃ word duration, TakenForNote line word duration ∧ c = .note word duration := by
  simp only [Line.read] at read
  split at read
  · cases read
  · rename_i active
    have no_header : isBlockHeader (trim line) = false := by
      simp only [isInert, Bool.or_eq_true, not_or] at active
      exact eq_false_of_ne_true active.2
    have first : ∀ t ∈ ((words line).map String.ofList).head?,
        t ∉ ["setTempo", "chord", "play", "rest"] := by
      rw [List.head?_map]
      intro t mem
      obtain ⟨w, word, rfl⟩ := Option.map_eq_some_iff.1 mem
      exact (unrecognised w word).1
    rw [readCommand, words_trim, unrecognised.isSetTempo] at read
    cases command : commandOfWords? ((words line).map .ofList) with
    | none => simp [command, Except.map] at read
    | some found =>
      obtain rfl : found = c := by simpa [command, Except.map] using read
      obtain ⟨word, duration, ts, letter, rfl⟩ := eq_note_of_commandOfWords? command first
      exact ⟨word, duration, ⟨ts, letter, no_header⟩, rfl⟩

theorem isNameChar_of_ofChar? {c : Char} {l : Letter} (h : Letter.ofChar? c = some l) :
    isNameChar c = true := by
  unfold Letter.ofChar? at h
  split at h
  case h_8 => cases h
  all_goals rfl

theorem TakenForNote.isInert_eq_false {word duration : String}
    (taken : TakenForNote line word duration) : isInert (trim line) = false := by
  have nonempty : trim line ≠ [] := by
    intro empty
    have wordless := taken.words
    rw [← words_trim, empty] at wordless
    cases wordless
  obtain ⟨w, rest, whole, -, first⟩ := (tight_trim line).exists_first_word nonempty
  have word_eq : String.ofList w = word := by
    have head := congrArg List.head? taken.words
    rw [List.head?_map, ← words_trim, first] at head
    exact Option.some.inj head
  have letter := taken.letter
  rw [← word_eq, beginsWithLetter, String.toList_ofList] at letter
  cases w with
  | nil => cases letter
  | cons c w =>
    -- The letter of a pitch is part of a name, so it does not open a comment.
    obtain ⟨l, found⟩ : ∃ l, Letter.ofChar? c = some l := by
      simpa [Letter.scan, Option.isSome_iff_exists] using letter
    have no_header := taken.no_header
    rw [whole, List.cons_append] at no_header ⊢
    rw [isInert_cons (isNameChar_of_ofChar? found), no_header]

theorem TakenForNote.read_eq (unrecognised : Unrecognised line) {word duration : String}
    (taken : TakenForNote line word duration) :
    Line.read line = .ok (some (.note word duration)) := by
  have no_rest : word ≠ "rest" := by
    rintro rfl
    exact absurd taken.letter (by decide)
  have note : commandOfWords? [word, duration] = some (.note word duration) := by
    simp [commandOfWords?, no_rest, taken.letter]
  simp [Line.read, taken.isInert_eq_false, readCommand, unrecognised.isSetTempo, taken.words, note,
    Except.map]

end ChordScript.Line
