import ChordScript.Proofs.Program.Grammar

namespace ChordScript

open Text

variable {s line rest before run after before' run' after' front back : List Char} {t : Tempo}

namespace Text

theorem FirstDigits.unique (first : FirstDigits s before run after)
    (other : FirstDigits s before' run' after') :
    before = before' ∧ run = run' ∧ after = after' := by
  have same := (Line.firstDigits_iff.1 first).1.symm.trans (Line.firstDigits_iff.1 other).1
  simpa using same

theorem exists_firstDigits {c : Char} (mem : c ∈ s) (digit : c.isDigit = true) :
    ∃ before run after, FirstDigits s before run after := by
  refine ⟨_, _, _, Line.firstDigits_iff.2 ⟨rfl, fun empty => ?_⟩⟩
  cases found : s.dropWhile (!·.isDigit) with
  | nil => exact absurd digit (by simpa using List.dropWhile_eq_nil_iff.1 found c mem)
  | cons d tail =>
    have first : d.isDigit = true := by
      have stop := List.head?_dropWhile_not (!·.isDigit) s
      simpa [found] using stop
    simp [found, digits, first] at empty

theorem FirstDigits.between (first : FirstDigits s before run after)
    (blank_front : ∀ c ∈ front, isBlank c = true) (blank_back : ∀ c ∈ back, isBlank c = true) :
    FirstDigits (front ++ (s ++ back)) (front ++ before) run (after ++ back) where
  append := by simp [← first.append]
  not_isDigit := List.forall_mem_append.2
    ⟨fun c mem => Line.isDigit_of_isBlank (blank_front c mem), first.not_isDigit⟩
  isDigit := first.isDigit
  ne_nil := first.ne_nil
  stops := by
    intro c next
    cases after with
    | nil => exact Line.isDigit_of_isBlank (blank_back c (List.mem_of_mem_head? next))
    | cons d after => exact first.stops c next

theorem FirstDigits.exists_isDigit (first : FirstDigits s before run after) :
    ∃ c ∈ s, c.isDigit = true := by
  obtain ⟨c, mem⟩ := List.exists_mem_of_ne_nil run first.ne_nil
  refine ⟨c, ?_, first.isDigit c mem⟩
  rw [← first.append]
  exact List.mem_append_right _ (List.mem_append_left _ mem)

theorem getLast?_blanks_append {c : Char} (blank : ∀ c ∈ front, isBlank c = true)
    (solid : isBlank c = false) : (front ++ s).getLast? = some c ↔ s.getLast? = some c := by
  rw [List.getLast?_append]
  cases s.getLast? with
  | some d => rfl
  | none =>
    refine iff_of_false (fun last => ?_) nofun
    simp [blank c (List.mem_of_getLast? last)] at solid

theorem head?_append_blanks {c : Char} (blank : ∀ c ∈ back, isBlank c = true)
    (solid : isBlank c = false) : (s ++ back).head? = some c ↔ s.head? = some c := by
  rw [List.head?_append]
  cases s.head? with
  | some d => rfl
  | none =>
    refine iff_of_false (fun first => ?_) nofun
    simp [blank c (List.mem_of_mem_head? first)] at solid

end Text

namespace Line

theorem WritesTempo.between (writes : WritesTempo s t) (blank_front : ∀ c ∈ front, isBlank c = true)
    (blank_back : ∀ c ∈ back, isBlank c = true) : WritesTempo (front ++ (s ++ back)) t := by
  obtain ⟨first, minus, point, value⟩ := writes
  exact ⟨first.between blank_front blank_back,
    mt (getLast?_blanks_append blank_front (by decide)).1 minus,
    mt (head?_append_blanks blank_back (by decide)).1 point, value⟩

theorem writesTempo_trim_iff : WritesTempo (trim s) t ↔ WritesTempo s t := by
  obtain ⟨front, back, blank_front, blank_back, whole⟩ := exists_trim s
  constructor
  · intro writes
    have outer := writes.between blank_front blank_back
    rwa [whole] at outer
  · rintro ⟨first, minus, point, value⟩
    obtain ⟨c, mem, digit⟩ := first.exists_isDigit
    obtain ⟨before, run, after, inner⟩ :=
      exists_firstDigits (mem_trim_of_mem mem (isBlank_of_isDigit digit)) digit
    have outer := inner.between blank_front blank_back
    rw [whole] at outer
    obtain ⟨rfl, rfl, rfl⟩ := first.unique outer
    exact ⟨inner, mt (getLast?_blanks_append blank_front (by decide)).2 minus,
      mt (head?_append_blanks blank_back (by decide)).2 point, value⟩

theorem isWord_setTempoKeyword : IsWord setTempoKeyword :=
  (Command.setTempo .standard).isWord_keyword

structure AfterKeyword (line rest : List Char) : Prop where
  append : setTempoKeyword ++ rest = trim line
  ends : ∀ c ∈ rest.head?, isBlank c = true ∨ c = '('

theorem AfterKeyword.head?_words (keyed : AfterKeyword line rest) :
    (words (trim line)).head? = some (setTempoKeyword ++ rest.takeWhile (!isBlank ·)) := by
  have solid : ∀ c ∈ setTempoKeyword, (!isBlank c) = true := by
    simpa using isWord_setTempoKeyword.isBlank
  have nonempty : trim line ≠ [] := by
    rw [← keyed.append]
    exact List.append_ne_nil_of_left_ne_nil (by decide) rest
  rw [Text.head?_words (tight_trim line).head nonempty, ← keyed.append,
    List.takeWhile_append_of_pos solid]

theorem setsTempo_trim_iff : SetsTempo (trim line) ↔ ∃ rest, AfterKeyword line rest := by
  constructor
  · rintro ⟨w, first, keyword⟩
    have nonempty : trim line ≠ [] := by
      intro empty
      simp [empty] at first
    rw [Text.head?_words (tight_trim line).head nonempty] at first
    obtain rfl := Option.some.inj first
    have whole := List.takeWhile_append_dropWhile (p := (!isBlank ·)) (l := trim line)
    rcases keyword with keyword | ⟨tail, call⟩
    · refine ⟨(trim line).dropWhile (!isBlank ·), by rwa [keyword] at whole, fun c next => .inl ?_⟩
      have stop := List.head?_dropWhile_not (!isBlank ·) (trim line)
      simp only [Option.mem_def] at next
      simpa [next] using stop
    · refine ⟨'(' :: (tail ++ (trim line).dropWhile (!isBlank ·)), ?_, by simp⟩
      rw [← call] at whole
      simpa using whole
  · rintro ⟨rest, keyed⟩
    refine ⟨_, keyed.head?_words, ?_⟩
    cases rest with
    | nil => simp
    | cons c rest =>
      rcases keyed.ends c rfl with blank | rfl
      · simp [blank]
      · have paren : isBlank '(' = false := by decide
        exact .inr ⟨rest.takeWhile (!isBlank ·), by simp [paren]⟩

theorem AfterKeyword.argument_trim (keyed : AfterKeyword line rest) :
    argument (trim line) = trim rest := by
  rw [argument, ← keyed.append, List.drop_left]

theorem AfterKeyword.exists_header (keyed : AfterKeyword line rest) (silent : Silent (trim line)) :
    ∃ h, (∀ c ∈ h, isNameChar c = true) ∧
      (words (trim line) = [h, ['{']] ∨ words (trim line) = [h ++ ['{']]) := by
  have keyword : setTempoKeyword ++ rest = 's' :: ("etTempo".toList ++ rest) := by
    rw [← List.cons_append]
    exact congrArg (· ++ rest) (by decide)
  have inert := isInert_iff.2 silent
  rw [← keyed.append, keyword, isInert_cons (by decide), ← keyword, keyed.append,
    isBlockHeader_iff (tight_trim line)] at inert
  obtain ⟨h, -, name, header⟩ := inert
  exact ⟨h, name, header⟩

theorem AfterKeyword.words_of_silent (keyed : AfterKeyword line rest) (silent : Silent (trim line)) :
    words (trim line) = setTempoKeyword :: words rest := by
  cases rest with
  | nil => rw [← keyed.append, List.append_nil, isWord_setTempoKeyword.words, words_nil]
  | cons c rest =>
    rcases keyed.ends c rfl with blank | rfl
    · rw [← keyed.append, words_append_blank _ _ blank, isWord_setTempoKeyword.words,
        List.singleton_append, ← List.nil_append (c :: rest), words_append_blank _ _ blank, words_nil, List.nil_append]
    · obtain ⟨h, name, header⟩ := keyed.exists_header silent
      have paren : isBlank '(' = false := by decide
      have first := keyed.head?_words
      have inside : '(' ∈ h ++ ['{'] := by
        rcases header with apart | joined
        · rw [apart, List.head?_cons, Option.some.injEq] at first
          simp [first, paren]
        · rw [joined, List.head?_cons, Option.some.injEq] at first
          simp [first, paren]
      rcases List.mem_append.1 inside with named | brace
      · exact absurd (name _ named) (by decide)
      · exact absurd brace (by decide)

theorem AfterKeyword.trim_of_silent (keyed : AfterKeyword line rest) (silent : Silent (trim line)) :
    trim rest = ['{'] := by
  obtain ⟨h, -, header⟩ := keyed.exists_header silent
  rw [keyed.words_of_silent silent] at header
  rcases header with apart | joined
  · exact trim_eq_of_words (List.cons.inj apart).2
  · have brace : '{' ∈ setTempoKeyword := by
      rw [(List.cons.inj joined).1]
      exact List.mem_append_right h List.mem_cons_self
    exact absurd brace (by decide)

theorem AfterKeyword.not_silent (keyed : AfterKeyword line rest) {c : Char} (mem : c ∈ rest)
    (digit : c.isDigit = true) : ¬ Silent (trim line) := by
  intro silent
  have brace := mem_trim_of_mem mem (isBlank_of_isDigit digit)
  rw [keyed.trim_of_silent silent, List.mem_singleton] at brace
  subst brace
  exact absurd digit (by decide)

theorem read_eq_setTempo_iff : Line.read line = .ok (some (.setTempo t)) ↔
    ∃ rest, AfterKeyword line rest ∧ WritesTempo rest t := by
  constructor
  · intro read
    have holds := holds_read line
    rw [read] at holds
    cases holds with
    | setTempo active sets writes =>
      obtain ⟨rest, keyed⟩ := setsTempo_trim_iff.1 sets
      rw [keyed.argument_trim, writesTempo_trim_iff] at writes
      exact ⟨rest, keyed, writes⟩
    | command active other phrase =>
      generalize (words (trim line)).map String.ofList = ts at phrase
      cases phrase
  · rintro ⟨rest, keyed, writes⟩
    have active : ¬ Silent (trim line) := by
      obtain ⟨first, -, -, -⟩ := writes
      obtain ⟨c, mem, digit⟩ := first.exists_isDigit
      exact keyed.not_silent mem digit
    refine read_of_holds (.setTempo active (setsTempo_trim_iff.2 ⟨rest, keyed⟩) ?_)
    rwa [keyed.argument_trim, writesTempo_trim_iff]

structure IsWhole (before after : List Char) : Prop where
  no_minus : before.getLast? ≠ some '-'
  no_point : before.getLast? ≠ some '.'
  no_fraction : after.head? ≠ some '.'

def TakesWhole (line : List Char) : Prop :=
  ∀ t rest before run after, Line.read line = .ok (some (.setTempo t)) → AfterKeyword line rest →
    FirstDigits rest before run after → IsWhole before after

/-- The first digits are a tempo, and stand right after a point but not right before one: they are
the decimals of a fraction without a whole part. -/
def TakesDecimals (line : List Char) : Prop :=
  ∃ (t : Tempo) (rest before run after : List Char), AfterKeyword line rest ∧
    FirstDigits rest before run after ∧ valueOf run = t.bpm ∧
      before.getLast? = some '.' ∧ after.head? ≠ some '.'

theorem AfterKeyword.unique {rest' : List Char} (keyed : AfterKeyword line rest)
    (other : AfterKeyword line rest') : rest = rest' :=
  List.append_cancel_left (keyed.append.trans other.append.symm)

/-- A line is read as a tempo if the first number after the keyword is one, without a minus sign right
before it and without a point right after it. It is a whole number then, unless a point stands right
before it. -/
theorem takesWhole_iff (line : List Char) :
    (∀ t, Line.read line = .ok (some (.setTempo t)) ↔
      ∃ rest, AfterKeyword line rest ∧ WritesTempo rest t) ∧
    (TakesWhole line ↔ ¬ TakesDecimals line) := by
  refine ⟨fun t => read_eq_setTempo_iff, ?_, ?_⟩
  · rintro whole ⟨t, rest, before, run, after, keyed, first, value, point, no_fraction⟩
    have minus : before.getLast? ≠ some '-' := by
      rw [point]
      decide
    have read : Line.read line = .ok (some (.setTempo t)) :=
      read_eq_setTempo_iff.2 ⟨rest, keyed, first, minus, no_fraction, value⟩
    exact (whole t rest before run after read keyed first).no_point point
  · intro no_decimals t rest before run after read keyed first
    obtain ⟨rest', keyed', first', minus, no_fraction, value⟩ := read_eq_setTempo_iff.1 read
    obtain rfl := keyed.unique keyed'
    obtain ⟨rfl, rfl, rfl⟩ := first.unique first'
    exact ⟨minus, fun point =>
      no_decimals ⟨t, rest, before, run, after, keyed, first, value, point, no_fraction⟩, no_fraction⟩

theorem not_forall_takesWhole : ¬ ∀ line, TakesWhole line := by
  intro whole
  have read : Line.read "setTempo .5".toList = .ok (some (.setTempo { bpm := 5 })) := by
    decide +kernel
  have keyed : AfterKeyword "setTempo .5".toList " .5".toList := {
    append := by decide +kernel
    ends := by
      rintro c ⟨⟩
      exact .inl (by decide) }
  have first : FirstDigits " .5".toList [' ', '.'] ['5'] [] :=
    ⟨by decide, by simp, by simp, by decide, by simp⟩
  exact (whole _ _ _ _ _ _ read keyed first).no_point rfl

end Line

end ChordScript
