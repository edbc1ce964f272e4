import ChordScript.Decimal.Layout
import ChordScript.Proofs.Decimal.Shortest
import ChordScript.Proofs.Text.Digits
import ChordScript.Yaml.Value

namespace ChordScript

open Text

namespace Yaml.Value

theorem digitIn?_of_isDigit {c : Char} (digit : c.isDigit = true) :
    digitIn? 10 c = some (c.toNat - '0'.toNat) := by
  have small : c.toNat - '0'.toNat < 10 := by
    simp only [Char.isDigit, Bool.and_eq_true, decide_eq_true_eq] at digit
    have upper : c.toNat ≤ 57 := UInt32.le_iff_toNat_le.1 digit.2
    have zero : '0'.toNat = 48 := rfl
    omega
  rw [digitIn?, hexDigit?, if_pos digit, Option.filter_some, decide_eq_true small, if_pos rfl]

theorem natural?_of_isNumeral {ds : List Char} (numeral : IsNumeral ds) :
    natural? 10 ds = some (valueOf ds) := by
  have values : ds.mapM (digitIn? 10) = some (ds.map fun c => c.toNat - '0'.toNat) := by
    have digit := numeral.isDigit
    clear numeral
    induction ds with
    | nil => rfl
    | cons c ds ih =>
      obtain ⟨here, digit⟩ := List.forall_mem_cons.1 digit
      rw [List.mapM_cons, digitIn?_of_isDigit here, ih digit]
      rfl
  rw [natural?, if_neg (by simpa using numeral.ne_nil), values, Option.map_some, List.foldl_map]
  rfl

theorem integer?_signedNumeral (k : Int) : integer? 10 (signedNumeral k) = some k := by
  cases k with
  | ofNat n =>
    have read := natural?_of_isNumeral (isNumeral_numeral n)
    have first : ∀ c ∈ (numeral n).head?, c.isDigit = true := fun c h =>
      isDigit_of_mem_numeral (List.mem_of_mem_head? h)
    rw [valueOf_numeral] at read
    rw [signedNumeral, integer?]
    · rw [read]
      rfl
    · intro s minus
      exact absurd (first '-' (by simp [minus])) (by decide)
    · intro s plus
      exact absurd (first '+' (by simp [plus])) (by decide)
  | negSucc n =>
    have read := natural?_of_isNumeral (isNumeral_numeral (n + 1))
    rw [valueOf_numeral] at read
    rw [signedNumeral, integer?, read]
    rfl

theorem exponent?_signedNumeral (k : Int) : exponent? ('e' :: signedNumeral k) = some k := by
  rw [exponent?, if_pos (.inl rfl), integer?_signedNumeral]

namespace Decimal

def magnitude (d : Decimal) : Rat :=
  valueOf (d.whole ++ d.places) * 10 ^ (d.exponent - d.places.length)

section

variable (negative : Bool) {whole places : List Char} (rest : List Char) (numeral : IsNumeral whole)

include numeral

theorem sign_signed :
    let text := Decimal.signed negative (whole ++ rest)
    (text.head? == some '-') = negative ∧
      (if negative || text.head? == some '+' then text.drop 1 else text) = whole ++ rest := by
  obtain ⟨c, whole, rfl⟩ := List.exists_cons_of_ne_nil numeral.ne_nil
  have digit : c.isDigit = true := numeral.isDigit c List.mem_cons_self
  have minus : c ≠ '-' := by
    rintro rfl
    cases digit
  have plus : c ≠ '+' := by
    rintro rfl
    cases digit
  cases negative <;> simp [Decimal.signed, minus, plus]

theorem read?_whole (stops : ∀ c ∈ rest.head?, c.isDigit = false)
    (no_point : rest.head? ≠ some '.') :
    read? (Decimal.signed negative (whole ++ rest)) =
      (exponent? rest).map fun e => ⟨negative, whole, [], e⟩ := by
  obtain ⟨sign, body⟩ := sign_signed negative rest numeral
  have other : ∀ s, rest = '.' :: s → False := fun s point => no_point (by rw [point]; rfl)
  simp only [read?, sign, body, digits_append numeral.isDigit stops,
    afterDigits_append numeral.isDigit stops]
  simp [numeral.ne_nil]

theorem read?_point (digit : ∀ c ∈ places, c.isDigit = true)
    (stops : ∀ c ∈ rest.head?, c.isDigit = false) :
    read? (Decimal.signed negative (whole ++ '.' :: (places ++ rest))) =
      (exponent? rest).map fun e => ⟨negative, whole, places, e⟩ := by
  obtain ⟨sign, body⟩ := sign_signed negative ('.' :: (places ++ rest)) numeral
  have point : ∀ c ∈ ('.' :: (places ++ rest)).head?, c.isDigit = false := by
    simp only [List.head?_cons, Option.mem_some_iff, forall_eq']
    rfl
  have nonempty : (whole.isEmpty && places.isEmpty) = false := by
    simp [numeral.ne_nil]
  simp only [read?, sign, body, digits_append numeral.isDigit point,
    afterDigits_append numeral.isDigit point, digits_append digit stops,
    afterDigits_append digit stops, nonempty]
  rfl

end

end Decimal

end Yaml.Value

namespace Decimal

/-- The text is a decimal of the sign and of the value. -/
def Reads (text : List Char) (negative : Bool) (q : Rat) : Prop :=
  ∃ d, Yaml.Value.Decimal.read? text = some d ∧ d.negative = negative ∧ d.magnitude = q

theorem Reads.unique {text : List Char} {negative negative' : Bool} {q q' : Rat}
    (h : Reads text negative q) (h' : Reads text negative' q') : negative = negative' ∧ q = q' := by
  obtain ⟨d, read, rfl, rfl⟩ := h
  obtain ⟨d', read', rfl, rfl⟩ := h'
  obtain rfl : d = d' := Option.some.inj (read.symm.trans read')
  exact ⟨rfl, rfl⟩

theorem valueOf_zeros_append (n : Nat) (ds : List Char) : valueOf (zeros n ++ ds) = valueOf ds := by
  simp [valueOf, zeros, Nat.ofDigitChars_append]

theorem valueOf_append_zeros (ds : List Char) (n : Nat) :
    valueOf (ds ++ zeros n) = 10 ^ n * valueOf ds := by
  simp [valueOf, zeros, Nat.ofDigitChars_append]

theorem isDigit_of_mem_zeros {n : Nat} {c : Char} (mem : c ∈ zeros n) : c.isDigit = true := by
  rw [List.eq_of_mem_replicate mem]
  rfl

theorem exists_withPoint {ds : List Char} (digit : ∀ c ∈ ds, c.isDigit = true) (places : Nat) :
    ∃ whole fraction, withPoint ds places = whole ++ '.' :: fraction ∧ IsNumeral whole ∧
      (∀ c ∈ fraction, c.isDigit = true) ∧ fraction.length = places ∧
      valueOf (whole ++ fraction) = valueOf ds := by
  have padded : ∀ c ∈ zeros (places + 1 - ds.length) ++ ds, c.isDigit = true :=
    List.forall_mem_append.2 ⟨fun c => isDigit_of_mem_zeros, digit⟩
  have long : places < (zeros (places + 1 - ds.length) ++ ds).length := by
    rw [List.length_append, zeros, List.length_replicate]
    omega
  refine ⟨_, _, rfl, ⟨?_, fun c mem => padded c (List.mem_of_mem_take mem)⟩,
    fun c mem => padded c (List.mem_of_mem_drop mem), ?_, ?_⟩
  · rw [ne_eq, ← List.length_eq_zero_iff, List.length_take]
    omega
  · rw [List.length_drop]
    omega
  · rw [List.take_append_drop, valueOf_zeros_append]

section

variable {s : Scientific} {c : Char}

theorem not_mem_signed {ds : List Char} (minus : c ≠ '-') (not_mem : c ∉ ds) (negative : Bool) :
    c ∉ signed negative ds := by
  cases negative <;> simp [signed, minus, not_mem]

theorem mem_withPoint {ds : List Char} (digit : ∀ c ∈ ds, c.isDigit = true) {places : Nat}
    (mem : c ∈ withPoint ds places) : c.isDigit = true ∨ c = '.' := by
  obtain ⟨whole, fraction, split, numeral, digit, -⟩ := exists_withPoint digit places
  rw [split, List.mem_append, List.mem_cons] at mem
  rcases mem with mem | point | mem
  · exact .inl (numeral.isDigit c mem)
  · exact .inr point
  · exact .inl (digit c mem)

theorem mem_plain (mem : c ∈ s.plain) : c.isDigit = true ∨ c = '.' := by
  rw [Scientific.plain] at mem
  split at mem
  · rcases List.mem_append.1 mem with mem | mem
    · exact .inl (isDigit_of_mem_numeral mem)
    · exact .inl (isDigit_of_mem_zeros mem)
  · exact mem_withPoint (isNumeral_numeral _).isDigit mem

theorem mem_withExponent (mem : c ∈ s.withExponent) :
    c.isDigit = true ∨ c = '.' ∨ c = 'e' ∨ c = '-' := by
  rw [Scientific.withExponent, List.mem_append, List.mem_cons] at mem
  rcases mem with mem | mark | mem
  · split at mem
    · exact .inl (isDigit_of_mem_numeral mem)
    · exact (mem_withPoint (isNumeral_numeral _).isDigit mem).imp_right .inl
  · exact .inr (.inr (.inl mark))
  · rcases mem_signedNumeral mem with minus | digit
    · exact .inr (.inr (.inr minus))
    · exact .inl digit

end

open Yaml.Value (exponent?_signedNumeral)
open Yaml.Value.Decimal (read?_whole read?_point)

theorem reads_of_read? {text whole places : List Char} {negative : Bool} {e : Int} {q : Rat}
    (read : Yaml.Value.Decimal.read? text = some ⟨negative, whole, places, e⟩)
    (value : valueOf (whole ++ places) * 10 ^ (e - places.length) = q) : Reads text negative q :=
  ⟨_, read, rfl, value⟩

section

variable (negative : Bool) (s : Scientific)

theorem reads_whole (h : 0 ≤ s.exponent) :
    Reads (signed negative (s.plain ++ ['.', '0'])) negative s.value := by
  have digit : IsNumeral (numeral s.digits ++ zeros s.exponent.toNat) :=
    ⟨List.append_ne_nil_of_left_ne_nil (isNumeral_numeral _).ne_nil _,
      List.forall_mem_append.2 ⟨(isNumeral_numeral _).isDigit, fun c => isDigit_of_mem_zeros⟩⟩
  have zero : ∀ c ∈ ['0'], c.isDigit = true := List.forall_mem_singleton.2 rfl
  have read := read?_point negative [] digit zero nofun
  have value := valueOf_append_zeros (numeral s.digits) (s.exponent.toNat + 1)
  rw [zeros, List.replicate_succ', ← List.append_assoc, valueOf_numeral] at value
  have power : (10 : Rat) ^ s.exponent = 10 ^ s.exponent.toNat := by
    rw [← zpow_natCast, Int.toNat_of_nonneg h]
  rw [Scientific.plain, if_pos h]
  refine reads_of_read? read ?_
  rw [zeros, value, Scientific.value, power]
  push_cast
  rw [pow_succ]
  norm_num
  ring

theorem reads_point (h : s.exponent < 0) : Reads (signed negative s.plain) negative s.value := by
  obtain ⟨whole, fraction, split, numeral, digit, length, value⟩ :=
    exists_withPoint (isNumeral_numeral s.digits).isDigit (-s.exponent).toNat
  have read := read?_point negative [] numeral digit nofun
  rw [List.append_nil] at read
  rw [Scientific.plain, if_neg h.not_ge, split]
  refine reads_of_read? read ?_
  rw [value, valueOf_numeral, length, Scientific.value, Int.toNat_of_nonneg (by omega)]
  congr 2
  omega

theorem reads_withExponent : Reads (signed negative s.withExponent) negative s.value := by
  have stops : ∀ c ∈ ('e' :: signedNumeral (s.exponent + (numeral s.digits).length - 1)).head?,
      c.isDigit = false := by
    simp only [List.head?_cons, Option.mem_some_iff, forall_eq']
    rfl
  rw [Scientific.withExponent]
  split
  · rename_i single
    have read := read?_whole negative _ (isNumeral_numeral s.digits) stops (by simp)
    rw [exponent?_signedNumeral] at read
    refine reads_of_read? read ?_
    rw [List.append_nil, valueOf_numeral, Scientific.value, single]
    simp
  · obtain ⟨whole, fraction, split, numeral, digit, length, value⟩ :=
      exists_withPoint (isNumeral_numeral s.digits).isDigit ((Text.numeral s.digits).length - 1)
    have read := read?_point negative _ numeral digit stops
    rw [exponent?_signedNumeral] at read
    rw [split, List.append_assoc, List.cons_append]
    refine reads_of_read? read ?_
    have pos : 0 < (Text.numeral s.digits).length :=
      List.length_pos_iff.2 (isNumeral_numeral s.digits).ne_nil
    rw [value, valueOf_numeral, length, Scientific.value]
    congr 2
    omega

end

end Decimal

end ChordScript
