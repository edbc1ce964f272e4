import ChordScript.Proofs.Schedule.Outcome
import ChordScript.Proofs.Text.Digits

namespace ChordScript.NoteValue

open Text

variable {s text text' rest rest' ds : List Char} {v v' : NoteValue} {n n' : Nat}

inductive Ending (n : Nat) : List Char → NoteValue → Prop
  | measures : Ending n ['m'] (.measures n)
  | division : Ending n ['n'] (.division n false)
  | dotted : Ending n ['n', '.'] (.division n true)
  | fraction {es : List Char} : IsNumeral es → Ending n ('/' :: es) (.fraction n (valueOf es))

inductive Spells : List Char → NoteValue → Prop
  | mk {ds ending : List Char} {v : NoteValue} : IsNumeral ds → Ending (valueOf ds) ending v →
    Spells (ds ++ ending) v

def IsSmall : NoteValue → Prop
  | .measures n => n < Text.numberBound
  | .division d _ => d < Text.numberBound
  | .fraction n d => n < Text.numberBound ∧ d < Text.numberBound

/-- No longer text at the start of `s` is a note value. -/
structure Longest (s text rest : List Char) (v : NoteValue) : Prop where
  append : text ++ rest = s
  spells : Spells text v
  length_le : ∀ text' v', text' <+: s → Spells text' v' → text'.length ≤ text.length

def Stops : NoteValue → List Char → Prop
  | .measures _, _ | .division _ true, _ => True
  | .division _ false, rest => rest.head? ≠ some '.'
  | .fraction _ _, rest => ∀ c ∈ rest.head?, c.isDigit = false

theorem stops_nil (v : NoteValue) : Stops v [] := by
  cases v with
  | measures => trivial
  | division _ dotted => cases dotted <;> simp [Stops]
  | fraction => simp [Stops]

theorem Ending.head (ending : Ending n text v) :
    ∀ c ∈ (text ++ rest).head?, c.isDigit = false := by
  cases ending <;> simp

theorem Ending.lt_of_isSmall (ending : Ending n text v) (small : v.IsSmall) : n < numberBound := by
  cases ending with
  | measures | division | dotted => exact small
  | fraction => exact small.1

theorem scan_eq_some_iff : scan s = some (v, rest) ↔
    v.IsSmall ∧ ∃ text, text ++ rest = s ∧ Spells text v ∧ Stops v rest := by
  constructor
  · intro read
    rw [scan] at read
    split at read
    · rename_i number
      obtain ⟨small, ds, rfl, numeral, -, rfl⟩ := number?_eq_some_iff.1 number
      cases read
      exact ⟨small, _, List.append_assoc _ ['m'] _, ⟨numeral, .measures⟩, trivial⟩
    · rename_i number
      obtain ⟨small, ds, rfl, numeral, -, rfl⟩ := number?_eq_some_iff.1 number
      cases read
      exact ⟨small, _, List.append_assoc _ ['n', '.'] _, ⟨numeral, .dotted⟩, trivial⟩
    · rename_i undotted number
      obtain ⟨small, ds, rfl, numeral, -, rfl⟩ := number?_eq_some_iff.1 number
      cases read
      refine ⟨small, _, List.append_assoc _ ['n'] _, ⟨numeral, .division⟩, fun dot => ?_⟩
      obtain ⟨tail, rfl⟩ := List.head?_eq_some_iff.1 dot
      exact undotted _ rfl
    · rename_i number
      obtain ⟨small, ds, rfl, numeral, -, rfl⟩ := number?_eq_some_iff.1 number
      obtain ⟨⟨d, tail⟩, denominator, read⟩ := Option.map_eq_some_iff.1 read
      obtain ⟨small', es, rfl, numeral', stops, rfl⟩ := number?_eq_some_iff.1 denominator
      cases read
      exact ⟨⟨small, small'⟩, ds ++ '/' :: es, by simp, ⟨numeral, .fraction numeral'⟩, stops⟩
    · cases read
  · rintro ⟨small, text, rfl, spells, stops⟩
    cases spells with
    | @mk ds ending _ numeral ends =>
      have number : number? (ds ++ ending ++ rest) = some (valueOf ds, ending ++ rest) :=
        number?_eq_some_iff.2 ⟨ends.lt_of_isSmall small, ds, (List.append_assoc ..).symm, numeral,
          ends.head, rfl⟩
      rw [scan, number]
      cases ends with
      | measures | dotted => rfl
      | division =>
        cases rest with
        | nil => rfl
        | cons c rest =>
          have point : c ≠ '.' := by simpa [Stops] using stops
          simp [point]
      | @fraction es numeral' =>
        have denominator : number? (es ++ rest) = some (valueOf es, rest) :=
          number?_eq_some_iff.2 ⟨small.2, es, rfl, numeral', stops, rfl⟩
        simp [denominator]

theorem Spells.exists_ending (spells : Spells text v) (append : text ++ rest = s) :
    ∃ ending, text = digits s ++ ending ∧ ending ++ rest = afterDigits s ∧
      Ending (valueOf (digits s)) ending v := by
  cases spells with
  | @mk ds ending _ numeral ends =>
    rw [List.append_assoc] at append
    have run : digits s = ds := by
      rw [← append, digits_append numeral.isDigit ends.head]
    have after : afterDigits s = ending ++ rest := by
      rw [← append, afterDigits_append numeral.isDigit ends.head]
    rw [run, after]
    exact ⟨ending, rfl, rfl, ends⟩

theorem Ending.length_le (ends : Ending n text v) (stops : Stops v rest)
    (other : Ending n' text' v') (same : text' ++ rest' = text ++ rest) :
    text'.length ≤ text.length := by
  cases ends with
  | measures => cases other <;> simp at same ⊢
  | dotted => cases other <;> simp at same ⊢
  | division =>
    cases other with
    | measures | division | fraction => simp at same ⊢
    | dotted =>
      obtain rfl : '.' :: rest' = rest := by simpa using same
      exact absurd rfl stops
  | @fraction es numeral =>
    cases other with
    | measures | division | dotted => simp at same ⊢
    | @fraction es' numeral' =>
      have tail : es' ++ rest' = es ++ rest := by simpa using same
      have begins : es' <+: es := by
        have reach : es' <+: digits (es' ++ rest') := prefix_digits numeral'.isDigit
        rwa [tail, digits_append numeral.isDigit stops] at reach
      simpa using begins.length_le

theorem Ending.unique (ends : Ending n text v) (other : Ending n text v') : v = v' := by
  cases ends <;> cases other <;> rfl

theorem Spells.exists_longer (spells : Spells text v) (goes_on : ¬ Stops v rest) :
    ∃ text' rest' v', text' ++ rest' = text ++ rest ∧ Spells text' v' ∧ Stops v' rest' ∧
      text.length < text'.length := by
  cases spells with
  | @mk ds ending _ numeral ends =>
    cases ends with
    | measures | dotted => exact absurd trivial goes_on
    | division =>
      obtain ⟨tail, rfl⟩ := List.head?_eq_some_iff.1 (not_not.1 goes_on)
      exact ⟨ds ++ ['n', '.'], tail, _, by simp, ⟨numeral, .dotted⟩, trivial, by simp⟩
    | @fraction es numeral' =>
      obtain ⟨c, first, digit⟩ : ∃ c, rest.head? = some c ∧ c.isDigit = true := by
        simpa [Stops] using goes_on
      obtain ⟨tail, rfl⟩ := List.head?_eq_some_iff.1 first
      have run : digits (c :: tail) = c :: digits tail := List.takeWhile_cons_of_pos digit
      exact ⟨ds ++ '/' :: (es ++ digits (c :: tail)), afterDigits (c :: tail), _, by simp,
        ⟨numeral, .fraction (numeral'.append_digits _)⟩, stops_afterDigits _, by simp [run]⟩

theorem longest_iff : Longest s text rest v ↔ text ++ rest = s ∧ Spells text v ∧ Stops v rest := by
  constructor
  · rintro ⟨append, spells, longest⟩
    refine ⟨append, spells, ?_⟩
    by_contra goes_on
    obtain ⟨text', rest', v', append', spells', -, longer⟩ := spells.exists_longer goes_on
    exact absurd (longest text' v' ⟨rest', append'.trans append⟩ spells') (Nat.not_le_of_lt longer)
  · rintro ⟨append, spells, stops⟩
    refine ⟨append, spells, ?_⟩
    rintro text' v' ⟨rest', append'⟩ spells'
    obtain ⟨ending, rfl, after, ends⟩ := spells.exists_ending append
    obtain ⟨ending', rfl, after', ends'⟩ := spells'.exists_ending append'
    have shorter := ends.length_le stops ends' (after'.trans after.symm)
    simpa using shorter

theorem Spells.exists_longest (spells : Spells text v) (start : text <+: s) :
    ∃ text rest v, Longest s text rest v := by
  obtain ⟨rest, append⟩ := start
  by_cases stops : Stops v rest
  · exact ⟨text, rest, v, longest_iff.2 ⟨append, spells, stops⟩⟩
  · obtain ⟨text', rest', v', append', spells', stops', -⟩ := spells.exists_longer stops
    exact ⟨text', rest', v', longest_iff.2 ⟨append'.trans append, spells', stops'⟩⟩

theorem Longest.unique (longest : Longest s text rest v) (other : Longest s text' rest' v') :
    v = v' := by
  have here : text <+: s := ⟨rest, longest.append⟩
  have there : text' <+: s := ⟨rest', other.append⟩
  have shorter : text.length ≤ text'.length := other.length_le text v here longest.spells
  have longer : text'.length ≤ text.length := longest.length_le text' v' there other.spells
  obtain rfl : text = text' :=
    (List.prefix_of_prefix_length_le here there shorter).eq_of_length_le longer
  obtain ⟨ending, same, -, ends⟩ := longest.spells.exists_ending longest.append
  obtain ⟨ending', same', -, ends'⟩ := other.spells.exists_ending other.append
  obtain rfl : ending = ending' := List.append_cancel_left (same.symm.trans same')
  exact ends.unique ends'

theorem scan_eq_some_iff_longest :
    scan s = some (v, rest) ↔ v.IsSmall ∧ ∃ text, Longest s text rest v := by
  simp only [scan_eq_some_iff, longest_iff]

theorem scan_eq_none_iff : scan s = none ↔ (∀ text v, text <+: s → ¬ Spells text v) ∨
    ∃ text rest v, Longest s text rest v ∧ ¬ v.IsSmall := by
  constructor
  · intro unread
    rw [or_iff_not_imp_left]
    intro spelled
    obtain ⟨text, v, start, spells⟩ : ∃ text v, text <+: s ∧ Spells text v := by
      simpa using spelled
    obtain ⟨text, rest, v, longest⟩ := spells.exists_longest start
    refine ⟨text, rest, v, longest, fun small => ?_⟩
    cases unread.symm.trans (scan_eq_some_iff_longest.2 ⟨small, text, longest⟩)
  · intro refused
    rw [Option.eq_none_iff_forall_ne_some]
    rintro ⟨v, rest⟩ read
    obtain ⟨small, text, longest⟩ := scan_eq_some_iff_longest.1 read
    rcases refused with unspelled | ⟨text', rest', v', longest', large⟩
    · exact unspelled text v ⟨rest, longest.append⟩ longest.spells
    · exact large (longest.unique longest' ▸ small)

theorem read?_eq_some_iff {token : String} :
    read? token = some v ↔ Spells token.toList v ∧ v.IsPositive ∧ v.IsSmall := by
  have whole : scan token.toList = some (v, []) ↔ Spells token.toList v ∧ v.IsSmall := by
    simp [scan_eq_some_iff, stops_nil, and_comm]
  rw [read?]
  constructor
  · intro read
    split at read
    · rename_i scanned
      split at read
      · cases read
        obtain ⟨spells, small⟩ := whole.1 scanned
        exact ⟨spells, ‹_›, small⟩
      · cases read
    · cases read
  · rintro ⟨spells, positive, small⟩
    rw [whole.2 ⟨spells, small⟩]
    exact if_pos positive

theorem isSmall_of_read? {token : String} (h : read? token = some v) : v.IsSmall :=
  (read?_eq_some_iff.1 h).2.2

/-- A token is read if it is a note value as a whole whose numbers are in range, and else it is
refused as it stands. At the start of a text the longest note value is read, with zeros too; if its
numbers are too large nothing is read there. -/
theorem readNoteValue_iff_spells (token : String) (s : List Char) :
    (∀ v, Command.readNoteValue token = .ok v ↔
      Spells token.toList v ∧ v.IsPositive ∧ v.IsSmall) ∧
    (∀ error, Command.readNoteValue token = .error error ↔
      (∀ v, Spells token.toList v → ¬ (v.IsPositive ∧ v.IsSmall)) ∧ error = .duration token) ∧
    (∀ v rest, scan s = some (v, rest) ↔ v.IsSmall ∧ ∃ text, Longest s text rest v) ∧
    (scan s = none ↔ (∀ text v, text <+: s → ¬ Spells text v) ∨
      ∃ text rest v, Longest s text rest v ∧ ¬ v.IsSmall) := by
  refine ⟨fun v => ?_, fun error => ?_, fun v rest => scan_eq_some_iff_longest, scan_eq_none_iff⟩
  · rw [Command.readNoteValue, Except.elim_eq_ok_iff, read?_eq_some_iff]
  · have unread : read? token = none ↔
        ∀ v, Spells token.toList v → ¬ (v.IsPositive ∧ v.IsSmall) := by
      simp only [Option.eq_none_iff_forall_ne_some, ne_eq, read?_eq_some_iff, not_and]
    rw [Command.readNoteValue, Except.elim_eq_error_iff, unread]

example : scan "1/99999999999".toList = none := by decide

end ChordScript.NoteValue
