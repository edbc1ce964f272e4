import ChordScript.Proofs.Cue.Order
import ChordScript.Proofs.Schedule.Exact
import Mathlib.Data.Finset.Basic
import Mathlib.Data.List.Induction

namespace ChordScript

namespace Cue

variable {τ : Type}

def target (c : Cue τ) : Voice × Note := (c.voice, c.note)

def sound (sounding : Finset (Voice × Note)) (c : Cue τ) : Finset (Voice × Note) :=
  match c.action with
  | .noteOn => insert c.target sounding
  | .noteOff => sounding.erase c.target

def last? (x : Voice × Note) (cues : List (Cue τ)) : Option (Cue τ) :=
  (cues.filter (·.target = x)).getLast?

theorem last?_concat (x : Voice × Note) (cues : List (Cue τ)) (c : Cue τ) :
    last? x (cues ++ [c]) = if c.target = x then some c else last? x cues := by
  rw [last?, last?, List.filter_append]
  by_cases h : c.target = x <;> simp [h]

theorem mem_of_last? {x : Voice × Note} {cues : List (Cue τ)} {l : Cue τ}
    (h : last? x cues = some l) : l ∈ cues ∧ l.target = x := by
  have member := List.mem_of_getLast? h
  simpa using List.mem_filter.1 member

theorem mem_sound (sounding : Finset (Voice × Note)) (c : Cue τ) (x : Voice × Note) :
    x ∈ sound sounding c ↔ if c.target = x then c.action = .noteOn else x ∈ sounding := by
  rw [sound]
  by_cases h : c.target = x
  · cases c.action <;> simp [h]
  · cases c.action <;> simp [h, Ne.symm h]

theorem mem_foldl_sound (cues : List (Cue τ)) (x : Voice × Note) :
    x ∈ cues.foldl sound ∅ ↔ ∃ l, last? x cues = some l ∧ l.action = .noteOn := by
  induction cues using List.reverseRecOn with
  | nil => simp [last?]
  | append_singleton cues c ih =>
    rw [List.foldl_concat, mem_sound, last?_concat]
    by_cases h : c.target = x
    · simp [h]
    · simpa [h] using ih

theorem before_rat (a b : Cue Rat) :
    before a b = true ↔
      a.time < b.time ∨ a.time = b.time ∧ a.action = .noteOff ∧ b.action = .noteOn := by
  simp only [before, Seconds.lt_rat, decide_eq_true_eq]
  split
  · simp [*]
  · rename_i notEarlier
    split
    · rename_i later
      simp [notEarlier, later.ne']
    · rename_i notLater
      simp [le_antisymm (not_lt.1 notLater) (not_lt.1 notEarlier)]

theorem strictWeakOn_rat : StableSort.StrictWeakOn (before (τ := Rat)) fun _ => True := by
  have ordered {s t : Rat} (_ : True) (_ : True) : Seconds.lt s t = true ↔ id s < id t := by
    rw [Seconds.lt_rat, decide_eq_true_eq]
    rfl
  exact strictWeakOn ordered

theorem before_self (c : Cue Rat) : before c c = false := by
  rw [Bool.eq_false_iff, ne_eq, before_rat]
  rintro (later | ⟨-, ends, starts⟩)
  · exact lt_irrefl _ later
  · rw [ends] at starts
    cases starts

theorem le_last? {x : Voice × Note} {cues : List (Cue Rat)} {l d : Cue Rat}
    (sorted : StableSort.Sorted before cues) (last : last? x cues = some l) (hd : d ∈ cues)
    (target : d.target = x) :
    d.time ≤ l.time ∧ (d.time = l.time → d.action = .noteOn → l.action = .noteOn) := by
  obtain ⟨earlier, split⟩ := List.getLast?_eq_some_iff.1 last
  have member : d ∈ earlier ++ [l] := by
    rw [← split]
    exact List.mem_filter.2 ⟨hd, by simpa using target⟩
  have pairs : (earlier ++ [l]).Pairwise fun a b => before b a = false := by
    rw [← split]
    exact sorted.filter _
  have stays : before l d = false := by
    rcases List.mem_append.1 member with old | new
    · exact (List.pairwise_append.1 pairs).2.2 d old l List.mem_cons_self
    · rw [List.mem_singleton.1 new]
      exact before_self l
  rw [Bool.eq_false_iff, ne_eq, before_rat, not_or] at stays
  refine ⟨not_lt.1 stays.1, ?_⟩
  intro same starts
  cases action : l.action with
  | noteOff => exact absurd ⟨same.symm, action, starts⟩ stays.2
  | noteOn => rfl

theorem mem_foldl_sound_of_sorted {cues : List (Cue Rat)}
    (sorted : StableSort.Sorted before cues) (x : Voice × Note) :
    x ∈ cues.foldl sound ∅ ↔
      ∃ c ∈ cues, c.target = x ∧ c.action = .noteOn ∧
        ∀ d ∈ cues, d.target = x → d.time ≤ c.time := by
  rw [mem_foldl_sound]
  constructor
  · rintro ⟨l, last, starts⟩
    obtain ⟨member, target⟩ := mem_of_last? last
    exact ⟨l, member, target, starts, fun d hd hx => (le_last? sorted last hd hx).1⟩
  · rintro ⟨c, hc, target, starts, latest⟩
    have concerned : cues.filter (·.target = x) ≠ [] :=
      List.ne_nil_of_mem (List.mem_filter.2 ⟨hc, by simpa using target⟩)
    obtain ⟨l, last⟩ := Option.ne_none_iff_exists'.1 (mt List.getLast?_eq_none_iff.1 concerned)
    obtain ⟨member, l_target⟩ := mem_of_last? last
    obtain ⟨le, strikes⟩ := le_last? sorted last hc target
    exact ⟨l, last, strikes (le_antisymm le (latest l member l_target)) starts⟩

end Cue

end ChordScript
