import ChordScript.Program.Line
import ChordScript.Proofs.Text.Digits
import ChordScript.Proofs.Text.Words

namespace ChordScript

open Text

namespace Line

variable {line h : List Char}

theorem isBlank_of_isNameChar {c : Char} (name : isNameChar c = true) : isBlank c = false := by
  have between {a b : Char} (range : c.val ≥ a.val ∧ c.val ≤ b.val)
      (low : 33 ≤ a.toNat) (high : b.toNat ≤ 126) : isBlank c = false :=
    isBlank_of_printing (Nat.le_trans low (UInt32.le_iff_toNat_le.1 range.1))
      (Nat.le_trans (UInt32.le_iff_toNat_le.1 range.2) high)
  have range {a b : Char} (inside : (decide (c.val ≥ a.val) && decide (c.val ≤ b.val)) = true) :
      c.val ≥ a.val ∧ c.val ≤ b.val := by
    simpa using inside
  rcases Bool.or_eq_true_iff.1 name with alphanum | underscore
  · rcases Bool.or_eq_true_iff.1 alphanum with alpha | digit
    · rcases Bool.or_eq_true_iff.1 alpha with upper | lower
      · exact between (of_decide_eq_true upper) (by decide) (by decide)
      · exact between (range lower) (by decide) (by decide)
    · exact between (range digit) (by decide) (by decide)
  · rw [eq_of_beq underscore]
    rfl

theorem isBlank_of_isDigit {c : Char} (digit : c.isDigit = true) : isBlank c = false := by
  have alphanum : c.isAlphanum = true := Bool.or_eq_true_iff.2 (.inr digit)
  exact isBlank_of_isNameChar (by simp [isNameChar, alphanum])

theorem isDigit_of_isBlank {c : Char} (blank : isBlank c = true) : c.isDigit = false := by
  rw [← Bool.not_eq_true]
  intro digit
  rw [isBlank_of_isDigit digit] at blank
  cases blank

theorem isWord_of_isNameChar (nonempty : h ≠ []) (name : ∀ c ∈ h, isNameChar c = true) :
    IsWord h :=
  ⟨nonempty, fun c mem => isBlank_of_isNameChar (name c mem)⟩

theorem isBlockHeader_append_brace (s : List Char) :
    isBlockHeader (s ++ ['{']) = true ↔ trim s ≠ [] ∧ ∀ c ∈ trim s, isNameChar c = true := by
  simp [isBlockHeader]

theorem exists_of_isBlockHeader (header : isBlockHeader line = true) :
    ∃ s, line = s ++ ['{'] ∧ trim s ≠ [] ∧ ∀ c ∈ trim s, isNameChar c = true := by
  cases line using List.reverseRecOn with
  | nil => simp [isBlockHeader] at header
  | append_singleton s c =>
    obtain rfl : c = '{' := by
      simp only [isBlockHeader, Bool.and_eq_true] at header
      simpa using header.1
    exact ⟨s, rfl, (isBlockHeader_append_brace s).1 header⟩

theorem isWord_brace : IsWord ['{'] := ⟨by simp, List.forall_mem_singleton.2 (by decide)⟩

theorem words_append_brace {s : List Char} (word : IsWord (trim s)) :
    words (s ++ ['{']) = [trim s, ['{']] ∨ words (s ++ ['{']) = [trim s ++ ['{']] := by
  obtain ⟨front, back, blank_front, blank_back, whole⟩ := exists_trim s
  cases back using List.reverseRecOn with
  | nil =>
    rw [List.append_nil] at whole
    have joined : IsWord (trim s ++ ['{']) := by
      refine ⟨by simp, ?_⟩
      rw [List.forall_mem_append]
      exact ⟨word.isBlank, isWord_brace.isBlank⟩
    right
    conv_lhs => rw [← whole]
    rw [List.append_assoc, words_blanks_append blank_front, joined.words]
  | append_singleton back c =>
    have apart : ∀ d ∈ s.getLast?, isBlank d = true := by
      rw [← whole]
      simpa using blank_back c (by simp)
    left
    rw [words_append_word isWord_brace apart, ← words_trim, word.words]
    rfl

theorem isBlockHeader_iff (tight : Tight line) :
    isBlockHeader line = true ↔
      ∃ h ≠ [], (∀ c ∈ h, isNameChar c = true) ∧
        (words line = [h, ['{']] ∨ words line = [h ++ ['{']]) := by
  constructor
  · intro header
    obtain ⟨s, rfl, nonempty, name⟩ := exists_of_isBlockHeader header
    exact ⟨trim s, nonempty, name, words_append_brace (isWord_of_isNameChar nonempty name)⟩
  · rintro ⟨h, nonempty, name, apart | joined⟩
    · have some : line ≠ [] := by
        rintro rfl
        simp at apart
      obtain ⟨s, w, rfl, -, -, split⟩ := tight.exists_word some
      have parts : words s ++ [w] = [h] ++ [['{']] := split.symm.trans apart
      obtain ⟨single, brace⟩ := List.append_inj' parts rfl
      obtain rfl : w = ['{'] := by simpa using brace
      rw [isBlockHeader_append_brace, trim_eq_of_words single]
      exact ⟨nonempty, name⟩
    · obtain rfl : line = h ++ ['{'] := tight.trim.symm.trans (trim_eq_of_words joined)
      rw [isBlockHeader_append_brace, (isWord_of_isNameChar nonempty name).tight.trim]
      exact ⟨nonempty, name⟩

theorem isInert_cons {c : Char} (name : isNameChar c = true) (s : List Char) :
    isInert (c :: s) = isBlockHeader (c :: s) := by
  have other {d : Char} (sign : isNameChar d = false) : d ≠ c := by
    rintro rfl
    simp [name] at sign
  have slash : '/' ≠ c := other (by decide)
  have hash : '#' ≠ c := other (by decide)
  have brace : isBrace c = false := by
    simp [isBrace, (other (d := '\x7b') (by decide)).symm, (other (d := '\x7d') (by decide)).symm]
  simp [isInert, slash, hash, brace, isBlank_of_isNameChar name]

end Line

namespace Command

open Line

def tokens : Command → List String
  | .setTempo _ => []
  | .chord root quality duration => [root, quality, duration]
  | .note pitch duration => [pitch, duration]
  | .rest duration => [duration]

/-- Every token is a word, and the canonical text does not look like a block header. -/
structure WellSpelled (c : Command) : Prop where
  isWord : ∀ t ∈ c.tokens, IsWord t.toList
  ne_header : c ≠ .rest "\x7b"

def keyword : Command → String
  | .setTempo _ => "setTempo"
  | .chord .. => "chord"
  | .note .. => "play"
  | .rest _ => "rest"

def arguments : Command → List (List Char)
  | .setTempo tempo => [numeral tempo.bpm]
  | c => c.tokens.map String.toList

def words (c : Command) : List (List Char) := c.keyword.toList :: c.arguments

theorem text_toList (c : Command) : c.text.toList = unwords c.words := by
  cases c <;>
    simp [text, words, keyword, arguments, tokens, unwords, List.intercalate_cons_cons]

theorem isNameChar_of_mem_keyword (c : Command) : ∀ d ∈ c.keyword.toList, isNameChar d = true := by
  rw [← List.all_eq_true]
  cases c <;> simp only [keyword] <;> decide

theorem isWord_keyword (c : Command) : IsWord c.keyword.toList := by
  refine isWord_of_isNameChar ?_ c.isNameChar_of_mem_keyword
  cases c <;> simp [keyword]

theorem isWord_numeral (n : Nat) : IsWord (numeral n) where
  ne_nil := (isNumeral_numeral n).ne_nil
  isBlank _ mem := isBlank_of_isDigit (isDigit_of_mem_numeral mem)

theorem WellSpelled.isWord_of_mem_words {c : Command} (spelled : c.WellSpelled) :
    ∀ w ∈ c.words, IsWord w := by
  rw [words, List.forall_mem_cons]
  refine ⟨c.isWord_keyword, ?_⟩
  cases c with
  | setTempo tempo => exact List.forall_mem_singleton.2 (isWord_numeral tempo.bpm)
  | chord | note | rest => exact List.forall_mem_map.2 spelled.isWord

theorem WellSpelled.isBlockHeader_eq_false {c : Command} (spelled : c.WellSpelled) :
    isBlockHeader (unwords c.words) = false := by
  rw [← Bool.not_eq_true, isBlockHeader_iff (tight_unwords spelled.isWord_of_mem_words),
    words_unwords spelled.isWord_of_mem_words]
  rintro ⟨h, -, -, apart | joined⟩
  · cases c with
    | setTempo tempo =>
      have brace : numeral tempo.bpm = ['\x7b'] := by
        simpa [words, arguments] using (List.cons.inj apart).2
      have digit : ('\x7b').isDigit = true :=
        isDigit_of_mem_numeral (n := tempo.bpm) (by simp [brace])
      exact absurd digit (by decide)
    | chord root quality duration => simp [words, arguments, tokens] at apart
    | note pitch duration => simp [words, arguments, tokens] at apart
    | rest duration =>
      have brace : duration.toList = ['\x7b'] := by
        simpa [words, arguments, tokens] using (List.cons.inj apart).2
      apply spelled.ne_header
      rw [← String.toList_inj.1 (brace.trans (by rfl : ['\x7b'] = "\x7b".toList))]
  · cases c <;> simp [words, arguments, tokens] at joined

theorem isInert_unwords {c : Command} (spelled : c.WellSpelled) :
    isInert (unwords c.words) = false := by
  obtain ⟨tail, begins⟩ := prefix_unwords c.keyword.toList c.arguments
  cases keyword : c.keyword.toList with
  | nil => exact absurd keyword c.isWord_keyword.ne_nil
  | cons d k =>
    have name := c.isNameChar_of_mem_keyword d (by simp [keyword])
    have header := spelled.isBlockHeader_eq_false
    rw [words, ← begins, keyword, List.cons_append] at header ⊢
    rw [isInert_cons name, header]

theorem splitAtDigits_of_isDigit {s : List Char} (digit : ∀ c ∈ s, c.isDigit = true) :
    splitAtDigits s = ([], s, []) := by
  have run : digits s = s := List.takeWhile_eq_self_iff.2 digit
  have after : afterDigits s = [] := List.dropWhile_eq_nil_iff.2 digit
  cases s with
  | nil => rfl
  | cons d s =>
    have first : d.isDigit = true := digit d List.mem_cons_self
    simp [splitAtDigits, first, run, after]

theorem tempoOfArgument?_numeral (t : Tempo) : tempoOfArgument? (numeral t.bpm) = some t := by
  have digit : ∀ c ∈ numeral t.bpm, c.isDigit = true := fun c => isDigit_of_mem_numeral
  simp [tempoOfArgument?, splitAtDigits_of_isDigit digit, (isWord_numeral t.bpm).ne_nil]

theorem readSetTempo_unwords (t : Tempo) :
    readSetTempo (unwords (setTempo t).words) = .ok (setTempo t) := by
  have argument :
      trim ((unwords (setTempo t).words).drop setTempoKeyword.length) = numeral t.bpm := by
    apply trim_eq_of_words
    rw [words, arguments, unwords_cons, unwords_singleton]
    have drop : (setTempoKeyword ++ ' ' :: numeral t.bpm).drop setTempoKeyword.length =
        ' ' :: numeral t.bpm := List.drop_left
    exact (congrArg Text.words drop).trans
      ((words_append_blank [] _ rfl).trans (isWord_numeral t.bpm).words)
  have parens : numeral t.bpm ≠ ['(', ')'] := by
    intro parens
    have digit : ('(').isDigit = true := isDigit_of_mem_numeral (n := t.bpm) (by simp [parens])
    exact absurd digit (by decide)
  simp [readSetTempo, argument, (isWord_numeral t.bpm).ne_nil, parens, tempoOfArgument?_numeral]

theorem isSetTempo_keyword (c : Command) :
    isSetTempo c.keyword.toList = c.duration?.isNone := by
  cases c <;> simp only [keyword, duration?, Option.isNone_none, Option.isNone_some] <;> decide

theorem commandOfWords?_words {c : Command} (timed : c.duration?.isNone = false) :
    commandOfWords? (c.words.map .ofList) = some c := by
  cases c with
  | setTempo => cases timed
  | chord | note | rest => simp [words, keyword, arguments, tokens, commandOfWords?]

theorem readCommand_unwords {c : Command} (spelled : c.WellSpelled) :
    readCommand (unwords c.words) = .ok c := by
  rw [readCommand, words_unwords spelled.isWord_of_mem_words]
  have keyword : c.words.head?.any isSetTempo = c.duration?.isNone := c.isSetTempo_keyword
  cases timed : c.duration?.isNone with
  | true =>
    cases c with
    | setTempo t => rw [keyword, timed, readSetTempo_unwords, if_pos rfl]
    | chord | note | rest => cases timed
  | false => simp [keyword, timed, commandOfWords?_words timed]

theorem read_text {c : Command} (spelled : c.WellSpelled) :
    Line.read c.text.toList = .ok (some c) := by
  rw [text_toList, Line.read, (tight_unwords spelled.isWord_of_mem_words).trim]
  simp [isInert_unwords spelled, readCommand_unwords spelled, Except.map]

end Command

namespace Line

variable {c : Command} {ts : List String}

theorem exists_setTempo_of_readSetTempo (read : readSetTempo line = .ok c) :
    ∃ t, c = .setTempo t := by
  simp only [readSetTempo] at read
  split at read
  · cases read
  · split at read
    · cases read
      exact ⟨_, rfl⟩
    · cases read

theorem mem_of_commandOfWords? (command : commandOfWords? ts = some c) :
    ∀ t ∈ c.tokens, t ∈ ts := by
  intro t token
  fun_cases commandOfWords? ts <;> simp only [commandOfWords?] at command
  all_goals simp_all
  all_goals
    subst command
    simp only [Command.tokens, List.mem_cons, List.not_mem_nil, or_false] at token
    tauto

theorem words_of_rest {duration : String} (command : commandOfWords? ts = some (.rest duration)) :
    ts = ["rest", duration] := by
  fun_cases commandOfWords? ts <;> simp_all [commandOfWords?]

theorem isBlockHeader_rest (tight : Tight line)
    (rest : (words line).map .ofList = ["rest", "\x7b"]) : isBlockHeader line = true := by
  rw [isBlockHeader_iff tight]
  have name : ("rest".toList).all isNameChar = true := by decide
  refine ⟨"rest".toList, by simp, List.all_eq_true.1 name, .inl ?_⟩
  have lists := congrArg (List.map String.toList) rest
  simpa [Function.comp_def] using lists

theorem wellSpelled_of_readCommand (tight : Tight line) (timed : isBlockHeader line = false)
    (read : readCommand line = .ok c) : c.WellSpelled := by
  rw [readCommand] at read
  split at read
  · obtain ⟨t, rfl⟩ := exists_setTempo_of_readSetTempo read
    exact ⟨by simp [Command.tokens], by simp⟩
  · cases command : commandOfWords? ((words line).map .ofList) with
    | none => simp [command] at read
    | some d =>
      obtain rfl : d = c := by simpa [command] using read
      constructor
      · intro t token
        obtain ⟨w, mem, rfl⟩ := List.mem_map.1 (mem_of_commandOfWords? command t token)
        rw [String.toList_ofList]
        exact isWord_of_mem_words mem
      · rintro rfl
        exact absurd (isBlockHeader_rest tight (words_of_rest command)) (by simp [timed])

theorem wellSpelled_of_read (read : Line.read line = .ok (some c)) : c.WellSpelled := by
  simp only [Line.read] at read
  split at read
  · cases read
  · rename_i active
    have timed : isBlockHeader (trim line) = false := by
      simp only [isInert, Bool.or_eq_true, not_or] at active
      exact eq_false_of_ne_true active.2
    cases command : readCommand (trim line) with
    | error e => simp [command, Except.map] at read
    | ok d =>
      obtain rfl : d = c := by simpa [command, Except.map] using read
      exact wellSpelled_of_readCommand (tight_trim line) timed command

end Line

end ChordScript
