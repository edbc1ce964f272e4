import ChordScript.Text.Numeral
import Mathlib.Data.List.TakeWhile
import Mathlib.Logic.Function.Basic

namespace ChordScript.Text

variable {s ds before run after rest : List Char}

structure IsNumeral (ds : List Char) : Prop where
  ne_nil : ds ≠ []
  isDigit : ∀ c ∈ ds, c.isDigit = true

structure FirstDigits (s before run after : List Char) : Prop where
  append : before ++ (run ++ after) = s
  not_isDigit : ∀ c ∈ before, c.isDigit = false
  isDigit : ∀ c ∈ run, c.isDigit = true
  ne_nil : run ≠ []
  stops : ∀ c ∈ after.head?, c.isDigit = false

theorem digits_append (digit : ∀ c ∈ run, c.isDigit = true)
    (stops : ∀ c ∈ after.head?, c.isDigit = false) : digits (run ++ after) = run := by
  have none : after.takeWhile Char.isDigit = [] := by
    cases after with
    | nil => rfl
    | cons c after => exact List.takeWhile_cons_of_neg (by simp [stops c rfl])
  rw [digits, List.takeWhile_append_of_pos digit, none, List.append_nil]

theorem afterDigits_append (digit : ∀ c ∈ run, c.isDigit = true)
    (stops : ∀ c ∈ after.head?, c.isDigit = false) : afterDigits (run ++ after) = after := by
  have cut := digits_append_afterDigits (run ++ after)
  rw [digits_append digit stops] at cut
  exact List.append_cancel_left cut

theorem isDigit_of_mem_digits {c : Char} (mem : c ∈ digits s) : c.isDigit = true :=
  List.mem_takeWhile_imp mem

theorem stops_afterDigits (s : List Char) : ∀ c ∈ (afterDigits s).head?, c.isDigit = false := by
  intro c first
  have stop := List.head?_dropWhile_not Char.isDigit s
  simp only [afterDigits, Option.mem_def] at first
  simpa [first] using stop

theorem prefix_digits (digit : ∀ c ∈ ds, c.isDigit = true) : ds <+: digits (ds ++ rest) := by
  rw [digits, List.takeWhile_append_of_pos digit]
  exact List.prefix_append _ _

theorem IsNumeral.append_digits (numeral : IsNumeral ds) (s : List Char) :
    IsNumeral (ds ++ digits s) where
  ne_nil := List.append_ne_nil_of_left_ne_nil numeral.ne_nil _
  isDigit := List.forall_mem_append.2 ⟨numeral.isDigit, fun _ => isDigit_of_mem_digits⟩

theorem number?_eq_some_iff {n : Nat} :
    number? s = some (n, rest) ↔ n < numberBound ∧ ∃ ds, ds ++ rest = s ∧ IsNumeral ds ∧
      (∀ c ∈ rest.head?, c.isDigit = false) ∧ valueOf ds = n := by
  constructor
  · intro read
    rw [number?] at read
    split at read
    · cases read
    · rename_i readable
      obtain ⟨nonempty, small⟩ := not_or.1 readable
      cases read
      exact ⟨Nat.lt_of_not_le small, digits s, digits_append_afterDigits s,
        ⟨nonempty, fun c => isDigit_of_mem_digits⟩, stops_afterDigits s, rfl⟩
  · rintro ⟨small, ds, rfl, numeral, stops, rfl⟩
    rw [number?, digits_append numeral.isDigit stops, afterDigits_append numeral.isDigit stops,
      if_neg (not_or.2 ⟨numeral.ne_nil, Nat.not_le_of_lt small⟩)]

theorem isDigit_of_mem_numeral {n : Nat} {c : Char} (mem : c ∈ numeral n) : c.isDigit = true :=
  Nat.isDigit_of_mem_toDigits (by decide) (by decide) mem

theorem isNumeral_numeral (n : Nat) : IsNumeral (numeral n) :=
  ⟨Nat.toDigits_ne_nil, fun _ => isDigit_of_mem_numeral⟩

theorem numeral_injective : Function.Injective numeral :=
  Function.LeftInverse.injective valueOf_numeral

theorem exists_numeral_eq_singleton_iff {n : Nat} : (∃ c, numeral n = [c]) ↔ n ≤ 9 := by
  have nonempty : 0 < (numeral n).length := List.length_pos_iff.2 (isNumeral_numeral n).ne_nil
  have short : (numeral n).length ≤ 1 ↔ n < 10 ^ 1 :=
    Nat.length_toDigits_le_iff (by decide) (by decide)
  rw [← List.length_eq_one_iff]
  omega

theorem mem_signedNumeral {i : Int} {c : Char} (mem : c ∈ signedNumeral i) :
    c = '-' ∨ c.isDigit = true := by
  cases i with
  | ofNat n => exact .inr (isDigit_of_mem_numeral mem)
  | negSucc n => exact (List.mem_cons.1 mem).imp id isDigit_of_mem_numeral

theorem mem_head?_signedNumeral {i : Int} {c : Char} (first : c ∈ (signedNumeral i).head?) :
    c = '-' ∨ c.isDigit = true :=
  mem_signedNumeral (List.mem_of_mem_head? first)

theorem minus_not_mem_numeral (n : Nat) : '-' ∉ numeral n := fun minus =>
  absurd (isDigit_of_mem_numeral minus) (by decide)

theorem signedNumeral_injective : Function.Injective signedNumeral := by
  have apart (m n : Nat) : numeral m ≠ '-' :: numeral (n + 1) := fun same =>
    minus_not_mem_numeral m (same ▸ List.mem_cons_self)
  intro i j same
  cases i with
  | ofNat m =>
    cases j with
    | ofNat n => exact congrArg Int.ofNat (numeral_injective same)
    | negSucc n => exact absurd same (apart m n)
  | negSucc m =>
    cases j with
    | ofNat n => exact absurd same.symm (apart n m)
    | negSucc n =>
      have next : m + 1 = n + 1 := numeral_injective (List.cons.inj same).2
      rw [Nat.succ.inj next]

end ChordScript.Text
