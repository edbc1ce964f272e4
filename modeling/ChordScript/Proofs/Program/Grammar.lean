import ChordScript.Proofs.Pitch.Numbers
import ChordScript.Proofs.Program.Line
import ChordScript.Proofs.Program.Numbering
import Mathlib.Tactic.IntervalCases

namespace ChordScript

open Text

namespace Line

theorem firstDigits_iff {s before run after : List Char} :
    FirstDigits s before run after ↔ splitAtDigits s = (before, run, after) ∧ run ≠ [] := by
  constructor
  · rintro ⟨rfl, plain, digit, nonempty, stops⟩
    obtain ⟨d, tail, rfl⟩ := List.exists_cons_of_ne_nil nonempty
    have front : ∀ c ∈ before, (!c.isDigit) = true := by simpa using plain
    have rest : (before ++ (d :: tail ++ after)).dropWhile (!·.isDigit) = d :: tail ++ after := by
      rw [List.dropWhile_append_of_pos front, List.cons_append]
      exact List.dropWhile_cons_of_neg (by simp [digit d List.mem_cons_self])
    have cut := List.takeWhile_append_dropWhile (p := (!·.isDigit))
      (l := before ++ (d :: tail ++ after))
    rw [rest] at cut
    rw [splitAtDigits, List.append_cancel_right cut, rest, digits_append digit stops,
      afterDigits_append digit stops]
    exact ⟨rfl, nonempty⟩
  · rintro ⟨split, nonempty⟩
    obtain ⟨rfl, rfl, rfl⟩ : s.takeWhile (!·.isDigit) = before ∧
        digits (s.dropWhile (!·.isDigit)) = run ∧
        afterDigits (s.dropWhile (!·.isDigit)) = after := by
      simpa [splitAtDigits] using split
    refine ⟨?_, ?_, fun c => isDigit_of_mem_digits, nonempty, stops_afterDigits _⟩
    · rw [digits_append_afterDigits, List.takeWhile_append_dropWhile]
    · intro c mem
      simpa using List.mem_takeWhile_imp mem

/-- The first number of a text is a tempo, without a minus sign right before it and without a point
right after it. -/
inductive WritesTempo : List Char → Tempo → Prop
  | mk {s before run after : List Char} {t : Tempo} : FirstDigits s before run after →
    before.getLast? ≠ some '-' → after.head? ≠ some '.' → valueOf run = t.bpm → WritesTempo s t

theorem ofNat?_eq_some_iff {n : Nat} {t : Tempo} : Tempo.ofNat? n = some t ↔ n = t.bpm := by
  constructor
  · intro h
    unfold Tempo.ofNat? at h
    split at h <;> cases h
    rfl
  · rintro rfl
    exact t.ofNat?_bpm

theorem tempoOfArgument?_eq_some_iff {argument : List Char} {t : Tempo} :
    tempoOfArgument? argument = some t ↔ WritesTempo argument t := by
  constructor
  · intro read
    rcases parts : splitAtDigits argument with ⟨before, run, after⟩
    simp only [tempoOfArgument?, parts] at read
    split at read
    · cases read
    · rename_i plain
      simp only [Bool.or_eq_true, List.isEmpty_iff, beq_iff_eq, not_or] at plain
      obtain ⟨⟨nonempty, minus⟩, point⟩ := plain
      exact ⟨firstDigits_iff.2 ⟨parts, nonempty⟩, minus, point, ofNat?_eq_some_iff.1 read⟩
  · rintro ⟨first, minus, point, value⟩
    obtain ⟨parts, nonempty⟩ := firstDigits_iff.1 first
    simp [tempoOfArgument?, parts, nonempty, minus, point, value]

inductive Silent : List Char → Prop
  | empty : Silent []
  | slashes (s : List Char) : Silent ('/' :: '/' :: s)
  | hash (s : List Char) : Silent ('#' :: s)
  | braces {s : List Char} : (∀ c ∈ s, c = '{' ∨ c = '}' ∨ isBlank c = true) → Silent s
  | header {name : List Char} : trim name ≠ [] →
    (∀ c ∈ trim name, c.isAlphanum = true ∨ c = '_') → Silent (name ++ ['{'])

theorem isInert_iff {line : List Char} : isInert line = true ↔ Silent line := by
  simp only [isInert, Bool.or_eq_true, List.isEmpty_iff, List.isPrefixOf_iff_prefix]
  constructor
  · rintro ((((rfl | ⟨s, rfl⟩) | ⟨s, rfl⟩) | braces) | header)
    · exact .empty
    · exact .slashes s
    · exact .hash s
    · exact .braces (by simpa [isBrace, or_assoc] using braces)
    · obtain ⟨name, rfl, nonempty, letters⟩ := exists_of_isBlockHeader header
      exact .header nonempty (by simpa [isNameChar] using letters)
  · intro silent
    cases silent with
    | empty => simp
    | slashes s => simp
    | hash s => simp
    | braces braces => exact .inl (.inr (by simpa [isBrace, or_assoc] using braces))
    | header nonempty letters =>
      exact .inr ((isBlockHeader_append_brace _).2 ⟨nonempty, by simpa [isNameChar] using letters⟩)

theorem exists_toChar_iff {c : Char} : (∃ l : Letter, c = l.toChar) ↔ 'A' ≤ c ∧ c ≤ 'G' := by
  constructor
  · rintro ⟨l, rfl⟩
    cases l <;> decide
  · rintro ⟨low, high⟩
    have low : 65 ≤ c.toNat := UInt32.le_iff_toNat_le.1 low
    have high : c.toNat ≤ 71 := UInt32.le_iff_toNat_le.1 high
    rw [← Char.ofNat_toNat c]
    generalize c.toNat = n at low high
    interval_cases n
    exacts [⟨.a, rfl⟩, ⟨.b, rfl⟩, ⟨.c, rfl⟩, ⟨.d, rfl⟩, ⟨.e, rfl⟩, ⟨.f, rfl⟩, ⟨.g, rfl⟩]

theorem beginsWithLetter_iff {word : String} :
    beginsWithLetter word = true ↔ ∃ c ∈ word.toList.head?, 'A' ≤ c ∧ c ≤ 'G' := by
  simp only [← exists_toChar_iff, beginsWithLetter, Option.isSome_iff_exists, Prod.exists,
    Letter.scan_eq_some_iff]
  constructor
  · rintro ⟨l, rest, word⟩
    exact ⟨l.toChar, by simp [word], l, rfl⟩
  · rintro ⟨c, first, l, rfl⟩
    exact ⟨l, word.toList.tail, (List.cons_head?_tail first).symm⟩

inductive Phrase : List String → Command → Prop
  | chord (root quality duration : String) :
    Phrase ["chord", root, quality, duration] (.chord root quality duration)
  | play (pitch duration : String) : Phrase ["play", pitch, duration] (.note pitch duration)
  | rest (duration : String) : Phrase ["rest", duration] (.rest duration)
  | bare {pitch : String} (duration : String) : (∃ c ∈ pitch.toList.head?, 'A' ≤ c ∧ c ≤ 'G') →
    Phrase [pitch, duration] (.note pitch duration)

theorem commandOfWords?_eq_some_iff {ts : List String} {c : Command} :
    commandOfWords? ts = some c ↔ Phrase ts c := by
  constructor
  · fun_cases commandOfWords? ts <;> intro command <;> cases command
    case case1.refl => exact .chord _ _ _
    case case3.refl => exact .play _ _
    case case5.refl => exact .rest _
    case case6.refl letter => exact .bare _ (beginsWithLetter_iff.1 letter)
  · intro phrase
    cases phrase with
    | chord | play | rest => simp [commandOfWords?]
    | bare duration letter =>
      rename_i pitch
      have letter := beginsWithLetter_iff.2 letter
      have no_rest : pitch ≠ "rest" := by
        rintro rfl
        exact absurd letter (by decide)
      simp [commandOfWords?, letter, no_rest]

def SetsTempo (line : List Char) : Prop :=
  ∃ w ∈ (words line).head?, w = setTempoKeyword ∨ setTempoKeyword ++ ['('] <+: w

def argument (line : List Char) : List Char := trim (line.drop setTempoKeyword.length)

/-- What a trimmed line holds. A line without a command comes before all others, and one that sets
the tempo before the commands that take time. -/
inductive Holds (line : List Char) : Reading → Prop
  | silent : Silent line → Holds line (.ok none)
  | noTempo : ¬ Silent line → SetsTempo line → argument line = [] ∨ argument line = ['(', ')'] →
    Holds line (.error (.malformedLine (.ofList line)))
  | setTempo {t : Tempo} : ¬ Silent line → SetsTempo line → WritesTempo (argument line) t →
    Holds line (.ok (some (.setTempo t)))
  | badTempo : ¬ Silent line → SetsTempo line → argument line ≠ [] → argument line ≠ ['(', ')'] →
    (∀ t, ¬ WritesTempo (argument line) t) →
    Holds line (.error (.tempo (.ofList (argument line))))
  | command {c : Command} : ¬ Silent line → ¬ SetsTempo line →
    Phrase ((words line).map .ofList) c → Holds line (.ok (some c))
  | malformed : ¬ Silent line → ¬ SetsTempo line →
    (∀ c, ¬ Phrase ((words line).map .ofList) c) →
    Holds line (.error (.malformedLine (.ofList line)))

theorem setsTempo_iff {line : List Char} :
    (words line).head?.any isSetTempo = true ↔ SetsTempo line := by
  rw [SetsTempo, Option.any_eq_true]
  simp only [isSetTempo, Bool.or_eq_true, beq_iff_eq, List.isPrefixOf_iff_prefix, Option.mem_def]

theorem WritesTempo.ne {s : List Char} {t : Tempo} (writes : WritesTempo s t) :
    s ≠ [] ∧ s ≠ ['(', ')'] := by
  have read := tempoOfArgument?_eq_some_iff.2 writes
  constructor
  · rintro rfl
    cases read
  · rintro rfl
    cases read

section

variable {line : List Char}

theorem readSetTempo_of_missing (missing : argument line = [] ∨ argument line = ['(', ')']) :
    readSetTempo line = .error (.malformedLine (.ofList line)) := by
  simp only [readSetTempo]
  rw [if_pos (by simpa [argument] using missing)]

theorem readSetTempo_of_given (nonempty : argument line ≠ []) (parens : argument line ≠ ['(', ')']) :
    readSetTempo line =
      (tempoOfArgument? (argument line)).elim (.error (.tempo (.ofList (argument line))))
        fun t => .ok (.setTempo t) := by
  rw [argument] at nonempty parens ⊢
  simp only [readSetTempo]
  rw [if_neg (by simp [nonempty, parens])]
  cases tempoOfArgument? (trim (line.drop setTempoKeyword.length)) <;> rfl

theorem holds_readSetTempo (active : ¬ Silent line) (sets : SetsTempo line) :
    Holds line ((readSetTempo line).map some) := by
  by_cases missing : argument line = [] ∨ argument line = ['(', ')']
  · rw [readSetTempo_of_missing missing]
    exact .noTempo active sets missing
  · obtain ⟨nonempty, parens⟩ := not_or.1 missing
    rw [readSetTempo_of_given nonempty parens]
    cases read : tempoOfArgument? (argument line) with
    | some t => exact .setTempo active sets (tempoOfArgument?_eq_some_iff.1 read)
    | none =>
      refine .badTempo active sets nonempty parens fun t writes => ?_
      cases read.symm.trans (tempoOfArgument?_eq_some_iff.2 writes)

end

theorem holds_read (line : List Char) : Holds (trim line) (Line.read line) := by
  simp only [Line.read]
  split
  · rename_i inert
    exact .silent (isInert_iff.1 inert)
  · rename_i active
    rw [isInert_iff] at active
    rw [readCommand]
    split
    · rename_i sets
      exact holds_readSetTempo active (setsTempo_iff.1 sets)
    · rename_i other
      rw [setsTempo_iff] at other
      cases command : commandOfWords? ((words (trim line)).map .ofList) with
      | some c => exact .command active other (commandOfWords?_eq_some_iff.1 command)
      | none =>
        refine .malformed active other fun c phrase => ?_
        cases command.symm.trans (commandOfWords?_eq_some_iff.2 phrase)

theorem read_of_holds {line : List Char} {r : Reading} (h : Holds (trim line) r) :
    Line.read line = r := by
  have inert : isInert (trim line) ↔ Silent (trim line) := isInert_iff
  have sets : (words (trim line)).head?.any isSetTempo ↔ SetsTempo (trim line) :=
    setsTempo_iff
  simp only [Line.read, readCommand]
  cases h with
  | silent silent => rw [if_pos (inert.2 silent)]
  | noTempo active tempo missing =>
    rw [if_neg (mt inert.1 active), if_pos (sets.2 tempo), readSetTempo_of_missing missing]
    rfl
  | setTempo active tempo writes =>
    rw [if_neg (mt inert.1 active), if_pos (sets.2 tempo),
      readSetTempo_of_given writes.ne.1 writes.ne.2, tempoOfArgument?_eq_some_iff.2 writes]
    rfl
  | badTempo active tempo nonempty parens unwritten =>
    have unread : tempoOfArgument? (argument (trim line)) = none :=
      Option.eq_none_iff_forall_ne_some.2 fun t => mt tempoOfArgument?_eq_some_iff.1 (unwritten t)
    rw [if_neg (mt inert.1 active), if_pos (sets.2 tempo), readSetTempo_of_given nonempty parens,
      unread]
    rfl
  | command active other phrase =>
    rw [if_neg (mt inert.1 active), if_neg (mt sets.1 other), commandOfWords?_eq_some_iff.2 phrase]
    rfl
  | malformed active other unspoken =>
    have unread : commandOfWords? ((words (trim line)).map .ofList) = none :=
      Option.eq_none_iff_forall_ne_some.2 fun c => mt commandOfWords?_eq_some_iff.1 (unspoken c)
    rw [if_neg (mt inert.1 active), if_neg (mt sets.1 other), unread]
    rfl

/-- The words of a line go into its command as they are, whatever they are. -/
theorem read_eq_iff (line : List Char) (r : Reading) :
    Line.read line = r ↔ Holds (trim line) r :=
  ⟨fun read => read ▸ holds_read line, read_of_holds⟩

end Line

end ChordScript
