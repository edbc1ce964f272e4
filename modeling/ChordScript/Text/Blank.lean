namespace ChordScript.Text

/-- The blank characters are the ones with Unicode's property `White_Space`. -/
def isBlank (c : Char) : Bool :=
  let n := c.toNat
  (9 ≤ n && n ≤ 13) || n == 0x20 || n == 0x85 || n == 0xA0 || n == 0x1680 ||
    (0x2000 ≤ n && n ≤ 0x200A) || n == 0x2028 || n == 0x2029 || n == 0x202F || n == 0x205F ||
    n == 0x3000

def trimStart (s : List Char) : List Char := s.dropWhile isBlank

def trimEnd (s : List Char) : List Char := (s.reverse.dropWhile isBlank).reverse

def trim (s : List Char) : List Char := trimEnd (trimStart s)

def words (s : List Char) : List (List Char) := (s.splitOnP isBlank).filter (!·.isEmpty)

def lines (s : List Char) : List (List Char) := s.splitOnP (· == '\n')

theorem lines_append_newline (a b : List Char) : lines (a ++ '\n' :: b) = lines a ++ lines b :=
  List.splitOnP_append_cons a b rfl

theorem lines_eq_singleton {s : List Char} (newline : '\n' ∉ s) : lines s = [s] := by
  apply List.splitOnP_eq_singleton
  intro c mem
  rw [beq_eq_false_iff_ne]
  rintro rfl
  exact newline mem

theorem lines_flatMap_newline {ls : List (List Char)} (newline : ∀ l ∈ ls, '\n' ∉ l) :
    lines (ls.flatMap (· ++ ['\n'])) = ls ++ [[]] := by
  induction ls with
  | nil => rfl
  | cons l ls ih =>
    obtain ⟨here, newline⟩ := List.forall_mem_cons.1 newline
    rw [List.flatMap_cons, List.append_assoc, List.singleton_append, lines_append_newline,
      lines_eq_singleton here, ih newline]
    rfl

theorem length_lines (s : List Char) : (lines s).length = s.count '\n' + 1 := by
  induction s with
  | nil => rfl
  | cons c s ih =>
    rw [lines, List.splitOnP_cons_eq_if_modifyHead, List.count_cons]
    rw [lines] at ih
    split
    · rw [List.length_cons, ih]
    · rw [List.length_modifyHead, ih]

theorem words_append_blank (a b : List Char) {c : Char} (h : isBlank c = true) :
    words (a ++ c :: b) = words a ++ words b := by
  simp [words, List.splitOnP_append_cons a b h]

end ChordScript.Text
