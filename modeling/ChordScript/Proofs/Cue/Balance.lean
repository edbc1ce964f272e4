import ChordScript.Proofs.Cue.Order
import ChordScript.Proofs.Cue.Sounding
import Mathlib.Algebra.Order.BigOperators.Group.List
import Mathlib.Data.Multiset.Count

namespace ChordScript

namespace Cue

variable {τ : Type}

def tally (action : Action) (x : Voice × Note) (cues : List (Cue τ)) : Nat :=
  cues.countP fun c => c.action = action ∧ c.target = x

theorem tally_append (action : Action) (x : Voice × Note) (a b : List (Cue τ)) :
    tally action x (a ++ b) = tally action x a + tally action x b :=
  List.countP_append

theorem tally_singleton (action : Action) (x : Voice × Note) (c : Cue τ) :
    tally action x [c] = if c.action = action ∧ c.target = x then 1 else 0 := by
  simp [tally, List.countP_singleton]

/-- What sounds, with every note as often as it was started; ending a silent note does nothing. -/
def balance (sounding : Multiset (Voice × Note)) (c : Cue τ) : Multiset (Voice × Note) :=
  match c.action with
  | .noteOn => c.target ::ₘ sounding
  | .noteOff => sounding.erase c.target

theorem count_foldl_balance {x : Voice × Note} (sounding : Multiset (Voice × Note))
    (cues : List (Cue τ))
    (h : ∀ a b, cues = a ++ b → tally .noteOff x a ≤ tally .noteOn x a) :
    (cues.foldl balance sounding).count x + tally .noteOff x cues =
      sounding.count x + tally .noteOn x cues := by
  induction cues using List.reverseRecOn with
  | nil => rfl
  | append_singleton cues c ih =>
    have before := ih fun a b split => h a (b ++ [c]) (by rw [split, List.append_assoc])
    have whole := h (cues ++ [c]) [] (List.append_nil _).symm
    rw [List.foldl_concat]
    simp only [tally_append, tally_singleton] at whole ⊢
    rw [balance]
    by_cases same : c.target = x
    · cases action : c.action with
      | noteOn =>
        simp only [same, action, reduceCtorEq, and_true, if_true, if_false,
          Multiset.count_cons_self] at whole ⊢
        omega
      | noteOff =>
        simp only [same, action, reduceCtorEq, and_true, if_true, if_false,
          Multiset.count_erase_self] at whole ⊢
        omega
    · cases c.action <;> simp [same, Ne.symm same, before]

end Cue

namespace Schedule

def Lasting (s : Schedule Float) : Prop := ∀ e ∈ s.events, e.isAudible → e.start < e.finish

variable {s : Schedule Float} {cues : List (Cue Float)}

theorem countP_cues_le (h : s.cues = .ok cues) {p q : Cue Float → Bool}
    (le : ∀ e ∈ s.events, ∀ n ∈ e.notes,
      (Cue.ofNote e n).countP p ≤ (Cue.ofNote e n).countP q) :
    cues.countP p ≤ cues.countP q := by
  rw [cues_eq h, (StableSort.sort_perm _ _).countP_eq, (StableSort.sort_perm _ _).countP_eq]
  simp only [List.countP_flatMap, Function.comp_def]
  exact List.sum_le_sum fun e he => List.sum_le_sum fun n hn => le e he n hn

theorem isAudible_of_mem_notes {e : Event Float} {n : Note} (h : n ∈ e.notes) :
    e.isAudible = true := by
  obtain ⟨p, hp, -⟩ := List.mem_filterMap.1 h
  simp [Event.isAudible, List.ne_nil_of_mem hp]

theorem tally_cues (h : s.cues = .ok cues) (x : Voice × Note) :
    Cue.tally .noteOff x cues = Cue.tally .noteOn x cues := by
  apply le_antisymm
  · refine countP_cues_le h fun e _ n _ => ?_
    simp [Cue.ofNote, Cue.target, List.countP_cons]
  · refine countP_cues_le h fun e _ n _ => ?_
    simp [Cue.ofNote, Cue.target, List.countP_cons]

section

variable {a b : List (Cue Float)} {c : Cue Float} (timed : s.IsTimed)
  (h : s.cues = .ok (a ++ [c] ++ b))

include timed h

theorem not_lt_of_mem_front {d : Cue Float} (hd : d ∈ a ++ [c]) : ¬ c.time < d.time := by
  rcases List.mem_append.1 hd with old | new
  · have front := (List.pairwise_append.1 (sorted_cues timed h)).1
    have stays := (List.pairwise_append.1 front).2.2 d old c List.mem_cons_self
    simpa using Cue.not_lt_of_before stays
  · have number : c.time.isNaN = false := timed.time h (by simp)
    rw [List.mem_singleton.1 new, Binary.lt_iff number number]
    exact lt_irrefl _

theorem not_lt_of_mem_back {d : Cue Float} (hd : d ∈ b) : ¬ d.time < c.time := by
  have across := (List.pairwise_append.1 (sorted_cues timed h)).2.2
  simpa using Cue.not_lt_of_before (across c (by simp) d hd)

theorem tally_noteOff_le_of_last (lasting : s.Lasting) (x : Voice × Note) :
    Cue.tally .noteOff x (a ++ [c]) ≤ Cue.tally .noteOn x (a ++ [c]) := by
  let ended (d : Cue Float) : Bool :=
    (d.action = .noteOff ∧ d.target = x) ∧ ¬ c.time < d.time
  let started (d : Cue Float) : Bool := (d.action = .noteOn ∧ d.target = x) ∧ d.time < c.time
  calc Cue.tally .noteOff x (a ++ [c])
      ≤ (a ++ [c]).countP ended :=
        List.countP_mono_left fun d hd off => by
          simpa [ended, not_lt_of_mem_front timed h hd] using off
    _ ≤ (a ++ [c] ++ b).countP ended := (List.sublist_append_left _ _).countP_le
    _ ≤ (a ++ [c] ++ b).countP started := countP_cues_le h fun e he n hn => by
        have lasts := lasting e he (isAudible_of_mem_notes hn)
        have number : c.time.isNaN = false := timed.time h (by simp)
        have ends : (Cue.ofNote e n).countP ended =
            if (e.voice, n) = x ∧ ¬ c.time < e.finish then 1 else 0 := by
          simp [Cue.ofNote, List.countP_cons, ended, Cue.target]
        have starts : (Cue.ofNote e n).countP started =
            if (e.voice, n) = x ∧ e.start < c.time then 1 else 0 := by
          simp [Cue.ofNote, List.countP_cons, started, Cue.target]
        rw [ends, starts]
        split
        · rename_i past
          obtain ⟨begins, finishes⟩ := timed e he
          rw [if_pos ⟨past.1, Binary.lt_of_lt_of_not_lt begins finishes number lasts past.2⟩]
        · exact Nat.zero_le _
    _ = (a ++ [c]).countP started := by
        rw [List.countP_append, Nat.add_eq_left, List.countP_eq_zero]
        intro d hd
        simp [started, not_lt_of_mem_back timed h hd]
    _ ≤ Cue.tally .noteOn x (a ++ [c]) :=
        List.countP_mono_left fun d _ on => by simp_all [started]

end

theorem tally_noteOff_le {a b : List (Cue Float)} (timed : s.IsTimed) (lasting : s.Lasting)
    (h : s.cues = .ok (a ++ b)) (x : Voice × Note) :
    Cue.tally .noteOff x a ≤ Cue.tally .noteOn x a := by
  induction a using List.reverseRecOn generalizing b with
  | nil => exact Nat.le_refl _
  | append_singleton a c ih =>
    by_cases ends : c.action = .noteOff ∧ c.target = x
    · exact tally_noteOff_le_of_last timed h lasting x
    · rw [List.append_assoc] at h
      simp only [Cue.tally_append, Cue.tally_singleton, if_neg ends]
      exact (ih h).trans (Nat.le_add_right _ _)

theorem foldl_balance_cues (timed : s.IsTimed) (lasting : s.Lasting) (h : s.cues = .ok cues)
    (sounding : Multiset (Voice × Note)) : cues.foldl Cue.balance sounding = sounding := by
  ext x
  have kept := Cue.count_foldl_balance sounding cues fun a b split =>
    tally_noteOff_le timed lasting (split ▸ h) x
  have whole := tally_cues h x
  omega

end Schedule

end ChordScript
