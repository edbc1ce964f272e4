import ChordScript.Proofs.Binary.Value
import ChordScript.Proofs.Decimal.Dyadic
import ChordScript.Proofs.Decimal.Layout
import ChordScript.Schedule.Dump

namespace ChordScript.Dump

open Decimal (Dyadic Reads)

variable {x y : Float} {negative negative' : Bool}

theorem reads_finiteSeconds (negative : Bool) (s : Decimal.Scientific) :
    Reads (Decimal.signed negative (finiteSeconds s)) negative s.value := by
  rw [finiteSeconds]
  split
  · rename_i whole
    exact Decimal.reads_whole negative s whole.1
  · split
    · rename_i point
      exact Decimal.reads_point negative s point.1
    · exact Decimal.reads_withExponent negative s

theorem reads_seconds {m : Nat} {e : Int} (parts : Dyadic.ofFloat x = .finite negative m e) :
    ∃ q, Reads (seconds x) negative q ∧ Binary.nearest q = m * 2 ^ e := by
  rw [seconds, parts]
  cases m with
  | zero =>
    have read : Yaml.Value.Decimal.read? (Decimal.signed negative "0.0".toList) =
        some ⟨negative, ['0'], ['0'], 0⟩ := by cases negative <;> rfl
    exact ⟨0, Decimal.reads_of_read? read (zero_mul _), by simp⟩
  | succ m =>
    have canonical := Dyadic.canonical_of_ofBits parts
    exact ⟨_, reads_finiteSeconds negative _,
      Decimal.nearest_shortest canonical (Nat.succ_pos m) .even⟩

theorem seconds_of_infinite (parts : Dyadic.ofFloat x = .infinite negative) :
    seconds x = Decimal.signed negative ".inf".toList := by
  rw [seconds, parts]

theorem not_reads_of_infinite (parts : Dyadic.ofFloat x = .infinite negative) {q : Rat} :
    ¬ Reads (seconds x) negative' q := by
  rw [seconds_of_infinite parts]
  rintro ⟨d, read, -⟩
  cases negative <;> cases read

theorem seconds_injective (hx : x.isNaN = false) (hy : y.isNaN = false)
    (same : seconds x = seconds y) : x = y := by
  apply Dyadic.eq_of_ofFloat_eq hx
  cases px : Dyadic.ofFloat x with
  | nan => exact absurd px (Dyadic.ofFloat_ne_nan hx)
  | infinite negative =>
    cases py : Dyadic.ofFloat y with
    | nan => exact absurd py (Dyadic.ofFloat_ne_nan hy)
    | infinite negative' =>
      rw [seconds_of_infinite px, seconds_of_infinite py] at same
      cases negative <;> cases negative' <;> first | rfl | exact absurd same (by decide)
    | finite =>
      obtain ⟨q, reads, -⟩ := reads_seconds py
      exact absurd (same ▸ reads) (not_reads_of_infinite px)
  | finite negative m e =>
    obtain ⟨p, reads, nearest⟩ := reads_seconds px
    cases py : Dyadic.ofFloat y with
    | nan => exact absurd py (Dyadic.ofFloat_ne_nan hy)
    | infinite => exact absurd (same ▸ reads) (not_reads_of_infinite py)
    | finite negative' n f =>
      obtain ⟨q, reads', nearest'⟩ := reads_seconds py
      obtain ⟨rfl, rfl⟩ := reads.unique (same ▸ reads')
      obtain ⟨rfl, rfl⟩ := (Dyadic.canonical_of_ofBits px).eq_of_value_eq
        (Dyadic.canonical_of_ofBits py) (nearest.symm.trans nearest')
      rfl

theorem newline_not_mem_finiteSeconds (s : Decimal.Scientific) : '\n' ∉ finiteSeconds s := by
  have plain : '\n' ∉ s.plain := fun mem => by
    rcases Decimal.mem_plain mem with digit | point
    · cases digit
    · cases point
  have withExponent : '\n' ∉ s.withExponent := fun mem => by
    rcases Decimal.mem_withExponent mem with digit | point | mark | minus
    · cases digit
    · cases point
    · cases mark
    · cases minus
  rw [finiteSeconds]
  split_ifs
  · exact List.not_mem_append plain (by decide)
  · exact plain
  · exact withExponent

theorem newline_not_mem_seconds (x : Float) : '\n' ∉ seconds x := by
  rw [seconds]
  split
  · decide
  · exact Decimal.not_mem_signed (by decide) (by decide) _
  · exact Decimal.not_mem_signed (by decide) (by decide) _
  · exact Decimal.not_mem_signed (by decide) (newline_not_mem_finiteSeconds _) _

end ChordScript.Dump
