import ChordScript.Text.Blank
import Mathlib.Data.List.DropRight
import Mathlib.Data.List.TakeWhile
import Mathlib.Tactic.ByContra

namespace ChordScript.Text

variable {s t w : List Char} {ws : List (List Char)}

structure IsWord (w : List Char) : Prop where
  ne_nil : w ≠ []
  isBlank : ∀ c ∈ w, isBlank c = false

structure Tight (s : List Char) : Prop where
  head : ∀ c ∈ s.head?, isBlank c = false
  getLast : ∀ c ∈ s.getLast?, isBlank c = false

theorem IsWord.tight (word : IsWord w) : Tight w where
  head c first := word.isBlank c (List.mem_of_mem_head? first)
  getLast c last := word.isBlank c (List.mem_of_mem_getLast? last)

theorem isBlank_of_printing {c : Char} (low : 33 ≤ c.toNat) (high : c.toNat ≤ 126) :
    isBlank c = false := by
  simp only [isBlank, Bool.or_eq_false_iff, Bool.and_eq_false_iff, decide_eq_false_iff_not,
    beq_eq_false_iff_ne]
  omega

theorem trimStart_eq_self (head : ∀ c ∈ s.head?, isBlank c = false) : trimStart s = s := by
  cases s with
  | nil => rfl
  | cons c s => exact List.dropWhile_cons_of_neg (by simp [head c rfl])

theorem trimEnd_eq_self (last : ∀ c ∈ s.getLast?, isBlank c = false) : trimEnd s = s := by
  rw [trimEnd]
  have head : ∀ c ∈ s.reverse.head?, isBlank c = false := by
    rwa [List.head?_reverse]
  exact (congrArg List.reverse (trimStart_eq_self head)).trans s.reverse_reverse

theorem Tight.trim (tight : Tight s) : trim s = s := by
  rw [Text.trim, trimStart_eq_self tight.head, trimEnd_eq_self tight.getLast]

theorem head_trimStart (s : List Char) : ∀ c ∈ (trimStart s).head?, isBlank c = false := by
  intro c first
  have not_blank := List.head?_dropWhile_not isBlank s
  simp only [trimStart, Option.mem_def] at first
  simpa [first] using not_blank

theorem trimEnd_append_blanks (s : List Char) :
    ∃ blanks, (∀ c ∈ blanks, isBlank c = true) ∧ trimEnd s ++ blanks = s := by
  refine ⟨(s.reverse.takeWhile isBlank).reverse, ?_, ?_⟩
  · intro c blank
    exact List.mem_takeWhile_imp (List.mem_reverse.1 blank)
  · rw [trimEnd, ← List.reverse_append, List.takeWhile_append_dropWhile, List.reverse_reverse]

theorem tight_trim (s : List Char) : Tight (trim s) where
  head c first := by
    obtain ⟨blanks, -, whole⟩ := trimEnd_append_blanks (trimStart s)
    apply head_trimStart s
    rw [← whole]
    exact List.mem_head?_append_of_mem_head? first
  getLast c last := by
    rw [trim, trimEnd, List.getLast?_reverse] at last
    exact head_trimStart _ c last

theorem exists_trim (s : List Char) :
    ∃ front back, (∀ c ∈ front, isBlank c = true) ∧ (∀ c ∈ back, isBlank c = true) ∧
      front ++ (trim s ++ back) = s := by
  obtain ⟨back, blank, whole⟩ := trimEnd_append_blanks (trimStart s)
  refine ⟨s.takeWhile isBlank, back, fun c => List.mem_takeWhile_imp, blank, ?_⟩
  rw [trim, whole, trimStart, List.takeWhile_append_dropWhile]

theorem mem_of_mem_trim {c : Char} (mem : c ∈ trim s) : c ∈ s := by
  obtain ⟨front, back, -, -, whole⟩ := exists_trim s
  rw [← whole]
  exact List.mem_append_right _ (List.mem_append_left _ mem)

theorem mem_trim_of_mem {c : Char} (mem : c ∈ s) (solid : isBlank c = false) : c ∈ trim s := by
  obtain ⟨front, back, blank_front, blank_back, whole⟩ := exists_trim s
  rw [← whole, List.mem_append, List.mem_append] at mem
  rcases mem with mem | mem | mem
  · simp [blank_front c mem] at solid
  · exact mem
  · simp [blank_back c mem] at solid

@[simp] theorem words_nil : words [] = [] := rfl

theorem IsWord.words (word : IsWord w) : words w = [w] := by
  simp [Text.words, List.splitOnP_eq_singleton word.isBlank, word.ne_nil]

theorem words_append_blanks (blank : ∀ c ∈ t, isBlank c = true) : words (s ++ t) = words s := by
  induction t generalizing s with
  | nil => rw [List.append_nil]
  | cons c t ih =>
    rw [List.forall_mem_cons] at blank
    rw [words_append_blank s t blank.1]
    have rest : words t = [] := ih (s := []) blank.2
    rw [rest, List.append_nil]

theorem words_blanks_append (blank : ∀ c ∈ s, isBlank c = true) : words (s ++ t) = words t := by
  induction s with
  | nil => rfl
  | cons c s ih =>
    rw [List.forall_mem_cons] at blank
    rw [List.cons_append, ← List.nil_append (c :: _), words_append_blank [] _ blank.1, ih blank.2]
    rfl

@[simp] theorem words_trim (s : List Char) : words (trim s) = words s := by
  obtain ⟨front, back, blank_front, blank_back, whole⟩ := exists_trim s
  conv_rhs => rw [← whole]
  rw [words_blanks_append blank_front, words_append_blanks blank_back]

theorem eq_false_of_mem_splitOnP (p : Char → Bool) (s : List Char) :
    ∀ w ∈ s.splitOnP p, ∀ c ∈ w, p c = false := by
  induction s with
  | nil => simp
  | cons d s ih =>
    rw [List.splitOnP_cons_eq_if_modifyHead]
    split
    · simpa using ih
    · rename_i stays
      cases pieces : s.splitOnP p with
      | nil => simp
      | cons first rest =>
        rw [pieces, List.forall_mem_cons] at ih
        rw [List.modifyHead_cons, List.forall_mem_cons, List.forall_mem_cons]
        exact ⟨⟨eq_false_of_ne_true stays, ih.1⟩, ih.2⟩

theorem newline_not_mem_of_mem_lines (mem : w ∈ lines s) : '\n' ∉ w := fun newline =>
  absurd (eq_false_of_mem_splitOnP _ s w mem '\n' newline) (by decide)

theorem isWord_of_mem_words (mem : w ∈ words s) : IsWord w := by
  rw [words, List.mem_filter] at mem
  exact ⟨by simpa using mem.2, eq_false_of_mem_splitOnP isBlank s w mem.1⟩

theorem words_append_word (word : IsWord w) (apart : ∀ c ∈ s.getLast?, isBlank c = true) :
    words (s ++ w) = words s ++ [w] := by
  cases s using List.reverseRecOn with
  | nil => exact word.words
  | append_singleton s c =>
    have blank : isBlank c = true := apart c (by simp)
    rw [List.append_assoc, List.singleton_append, words_append_blank s w blank, word.words,
      words_append_blank s [] blank, words_nil, List.append_nil]

theorem Tight.exists_word (tight : Tight s) (nonempty : s ≠ []) :
    ∃ t w, s = t ++ w ∧ IsWord w ∧ (∀ c ∈ t.getLast?, isBlank c = true) ∧
      words s = words t ++ [w] := by
  let t := s.rdropWhile (!isBlank ·)
  let w := s.rtakeWhile (!isBlank ·)
  have whole : t ++ w = s := List.rdropWhile_append_rtakeWhile
  have last : isBlank (s.getLast nonempty) = false :=
    tight.getLast _ (List.getLast?_eq_getLast_of_ne_nil nonempty)
  have word : IsWord w :=
    ⟨by simp [w, List.rtakeWhile_eq_nil_iff, nonempty, last],
      fun c mem => by simpa using List.mem_rtakeWhile_imp mem⟩
  have apart : ∀ c ∈ t.getLast?, isBlank c = true := by
    intro c mem
    have cut : t ≠ [] := by
      rintro empty
      simp [empty] at mem
    have stops := List.rdropWhile_last_not (!isBlank ·) s cut
    rw [List.getLast?_eq_getLast_of_ne_nil cut] at mem
    obtain rfl := Option.some.inj mem
    simpa using stops
  exact ⟨t, w, whole.symm, word, apart, by rw [← whole, words_append_word word apart]⟩

theorem head?_words (head : ∀ c ∈ s.head?, isBlank c = false) (nonempty : s ≠ []) :
    (words s).head? = some (s.takeWhile (!isBlank ·)) := by
  let w := s.takeWhile (!isBlank ·)
  let rest := s.dropWhile (!isBlank ·)
  have whole : w ++ rest = s := List.takeWhile_append_dropWhile
  have word : IsWord w := by
    refine ⟨?_, fun c mem => by simpa using List.mem_takeWhile_imp mem⟩
    cases s with
    | nil => exact absurd rfl nonempty
    | cons c s => simp [w, head c rfl]
  change (words s).head? = some w
  rw [← whole]
  cases stops : rest with
  | nil => rw [List.append_nil, word.words, List.head?_cons]
  | cons c tail =>
    have blank : isBlank c = true := by
      have not_in_word := List.head?_dropWhile_not (!isBlank ·) s
      simpa [rest, stops] using not_in_word
    rw [words_append_blank w tail blank, word.words]
    rfl

theorem Tight.exists_first_word (tight : Tight s) (nonempty : s ≠ []) :
    ∃ w rest, s = w ++ rest ∧ IsWord w ∧ (words s).head? = some w := by
  have first := head?_words tight.head nonempty
  exact ⟨_, _, List.takeWhile_append_dropWhile.symm,
    isWord_of_mem_words (List.mem_of_mem_head? first), first⟩

theorem isBlank_of_words_eq_nil (empty : words s = []) : ∀ c ∈ s, isBlank c = true := by
  have cut : trim s = [] := by
    by_contra nonempty
    obtain ⟨t, w, -, -, -, last⟩ := (tight_trim s).exists_word nonempty
    simp [empty] at last
  obtain ⟨front, back, blank_front, blank_back, whole⟩ := exists_trim s
  rw [cut, List.nil_append] at whole
  rw [← whole, List.forall_mem_append]
  exact ⟨blank_front, blank_back⟩

theorem trim_eq_of_words (single : words s = [w]) : trim s = w := by
  have tight := tight_trim s
  have nonempty : trim s ≠ [] := by
    intro empty
    rw [← words_trim, empty] at single
    simp at single
  obtain ⟨t, v, whole, -, -, split⟩ := tight.exists_word nonempty
  rw [words_trim, single] at split
  obtain ⟨wordless, rfl⟩ : words t = [] ∧ v = w := by
    cases t_words : words t with
    | nil => simpa [t_words, eq_comm] using split
    | cons _ _ => simp [t_words] at split
  cases t with
  | nil => exact whole
  | cons c t =>
    have blank := isBlank_of_words_eq_nil wordless c List.mem_cons_self
    have not_blank := tight.head c (by simp [whole])
    exact absurd blank (by simp [not_blank])

def unwords (ws : List (List Char)) : List Char := [' '].intercalate ws

@[simp] theorem unwords_singleton (w : List Char) : unwords [w] = w := by simp [unwords]

theorem unwords_cons (w v : List Char) (ws : List (List Char)) :
    unwords (w :: v :: ws) = w ++ ' ' :: unwords (v :: ws) := by
  simp [unwords, List.intercalate_cons_cons]

theorem mem_unwords {c : Char} (mem : c ∈ unwords ws) : c = ' ' ∨ ∃ w ∈ ws, c ∈ w := by
  induction ws with
  | nil => simp [unwords] at mem
  | cons w ws ih =>
    cases ws with
    | nil => exact .inr ⟨w, by simp, by simpa using mem⟩
    | cons v ws =>
      rw [unwords_cons, List.mem_append, List.mem_cons] at mem
      rcases mem with first | blank | later
      · exact .inr ⟨w, by simp, first⟩
      · exact .inl blank
      · exact (ih later).imp id fun ⟨u, mem, on⟩ => ⟨u, List.mem_cons_of_mem _ mem, on⟩

theorem prefix_unwords (w : List Char) (ws : List (List Char)) : w <+: unwords (w :: ws) := by
  cases ws with
  | nil => simp [unwords]
  | cons v ws => exact ⟨_, (unwords_cons w v ws).symm⟩

theorem words_unwords (all : ∀ w ∈ ws, IsWord w) : words (unwords ws) = ws := by
  induction ws with
  | nil => rfl
  | cons w ws ih =>
    rw [List.forall_mem_cons] at all
    cases ws with
    | nil => simpa [unwords] using all.1.words
    | cons v ws =>
      rw [unwords_cons, words_append_blank w _ rfl, all.1.words, ih all.2]
      rfl

theorem Tight.append_blank (left : Tight s) (right : Tight t) (s_nonempty : s ≠ [])
    (t_nonempty : t ≠ []) : Tight (s ++ ' ' :: t) where
  head c first := left.head c (by rwa [List.head?_append_of_ne_nil _ s_nonempty] at first)
  getLast c last := right.getLast c (by
    rwa [List.getLast?_append_of_ne_nil _ (List.cons_ne_nil _ _),
      List.getLast?_cons_of_ne_nil t_nonempty] at last)

theorem unwords_ne_nil (all : ∀ w ∈ ws, IsWord w) (nonempty : ws ≠ []) : unwords ws ≠ [] := by
  intro empty
  have wordless := words_unwords all
  rw [empty, words_nil] at wordless
  exact nonempty wordless.symm

theorem tight_unwords (all : ∀ w ∈ ws, IsWord w) : Tight (unwords ws) := by
  induction ws with
  | nil => exact ⟨by simp [unwords], by simp [unwords]⟩
  | cons w ws ih =>
    rw [List.forall_mem_cons] at all
    cases ws with
    | nil => simpa [unwords] using all.1.tight
    | cons v ws =>
      rw [unwords_cons]
      exact all.1.tight.append_blank (ih all.2) all.1.ne_nil
        (unwords_ne_nil all.2 (List.cons_ne_nil _ _))

end ChordScript.Text
