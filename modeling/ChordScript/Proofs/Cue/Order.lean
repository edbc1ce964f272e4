import ChordScript.Proofs.Binary.Order
import ChordScript.Proofs.Cue.Expansion
import Mathlib.Data.List.Pairwise

namespace ChordScript

def Action.rank : Action → Nat
  | .noteOff => 0
  | .noteOn => 1

variable {τ : Type} [Seconds τ]

namespace Cue

section

variable {κ : Type} [LinearOrder κ] {key : τ → κ} {on : τ → Prop}
  (ordered : ∀ {s t}, on s → on t → (Seconds.lt s t = true ↔ key s < key t))

include ordered

theorem before_iff {a b : Cue τ} (ha : on a.time) (hb : on b.time) :
    before a b = true ↔
      toLex (key a.time, a.action.rank) < toLex (key b.time, b.action.rank) := by
  rw [before, Prod.Lex.toLex_lt_toLex]
  simp only [ordered ha hb, ordered hb ha]
  rcases lt_trichotomy (key a.time) (key b.time) with earlier | same | later
  · simp [earlier]
  · cases a.action <;> cases b.action <;> simp [same, Action.rank]
  · simp [later, later.not_gt, later.ne']

theorem strictWeakOn : StableSort.StrictWeakOn before fun c : Cue τ => on c.time where
  asymm := by
    intro a b ha hb h
    rw [Bool.eq_false_iff, ne_eq, before_iff ordered hb ha]
    exact ((before_iff ordered ha hb).1 h).not_gt
  cotrans := by
    intro a b c ha hb hc h
    rw [before_iff ordered ha hb, before_iff ordered hb hc]
    exact (lt_or_ge _ _).imp_right fun le => le.trans_lt ((before_iff ordered ha hc).1 h)

end

theorem before_iff_rank {a b : Cue Float} (ha : a.time.isNaN = false) (hb : b.time.isNaN = false) :
    before a b = true ↔
      toLex (Binary.rank a.time.toModel.unpack, a.action.rank) <
        toLex (Binary.rank b.time.toModel.unpack, b.action.rank) :=
  before_iff Seconds.lt_eq_true_iff ha hb

theorem before_eq_false_of_beq {a b : Cue Float} (time : (a.time == b.time) = true)
    (action : a.action = b.action) : before a b = false := by
  obtain ⟨ha, hb⟩ := Binary.isNaN_of_beq time
  rw [Binary.beq_iff ha hb] at time
  rw [← Bool.not_eq_true, before_iff_rank ha hb, time, action]
  exact lt_irrefl _

theorem not_later_of_before {a b : Cue Float} (ha : a.time.isNaN = false)
    (hb : b.time.isNaN = false) (h : before b a = false) :
    a.time < b.time ∨ (a.time == b.time) = true ∧ (a.action = .noteOff ∨ b.action = .noteOn) := by
  rw [← Bool.not_eq_true, before_iff_rank hb ha, not_lt, Prod.Lex.toLex_le_toLex] at h
  rw [Binary.lt_iff ha hb, Binary.beq_iff ha hb]
  refine h.imp id fun ⟨time, rank⟩ => ⟨time, ?_⟩
  cases action : a.action with
  | noteOff => exact .inl rfl
  | noteOn =>
    cases other : b.action with
    | noteOff => simp [action, other, Action.rank] at rank
    | noteOn => exact .inr rfl

theorem not_lt_of_before {a b : Cue τ} (h : before a b = false) :
    Seconds.lt a.time b.time = false := by
  rw [before] at h
  split at h
  · cases h
  · rename_i notEarlier
    simpa using notEarlier

/-- No cue like `b` is played before one like `a`. -/
def Precedes (cues : List (Cue τ)) (a b : Cue τ) : Prop :=
  cues.Pairwise fun c d => ¬ (c = b ∧ d = a)

section

variable {cues : List (Cue τ)} (sorted : StableSort.Sorted before cues) {a b : Cue τ}

include sorted

theorem precedes_of_before (h : before a b = true) : Precedes cues a b := by
  refine sorted.imp ?_
  rintro c d stays ⟨rfl, rfl⟩
  rw [h] at stays
  cases stays

theorem not_precedes_of_before (ha : a ∈ cues) (hb : b ∈ cues) (different : a ≠ b)
    (h : before b a = true) : ¬ Precedes cues a b := by
  intro precedes
  have symmetric : Std.Symm fun c d : Cue τ => ¬ (c = b ∧ d = a) ∧ ¬ (c = a ∧ d = b) :=
    ⟨fun c d apart => ⟨fun ⟨hc, hd⟩ => apart.2 ⟨hd, hc⟩, fun ⟨hc, hd⟩ => apart.1 ⟨hd, hc⟩⟩⟩
  have neither := (precedes.and (precedes_of_before sorted h)).forall ha hb different
  exact neither.2 ⟨rfl, rfl⟩

end

end Cue

namespace Schedule

def IsTimed (s : Schedule τ) : Prop :=
  ∀ e ∈ s.events, Seconds.isNaN e.start = false ∧ Seconds.isNaN e.finish = false

theorem IsTimed.time {s : Schedule τ} (timed : s.IsTimed) {cues : List (Cue τ)}
    (h : s.cues = .ok cues) {c : Cue τ} (hc : c ∈ cues) : Seconds.isNaN c.time = false := by
  obtain ⟨e, he, n, -, cue⟩ := (mem_cues h).1 hc
  obtain ⟨start, finish⟩ := timed e he
  rcases List.mem_cons.1 cue with rfl | cue
  · exact start
  · obtain rfl := List.mem_singleton.1 cue
    exact finish

theorem sorted_cues {s : Schedule Float} (timed : s.IsTimed) {cues : List (Cue Float)}
    (h : s.cues = .ok cues) : StableSort.Sorted Cue.before cues := by
  rw [cues_eq h]
  refine StableSort.sort_sorted (Cue.strictWeakOn Seconds.lt_eq_true_iff) ?_
  intro c hc
  apply timed.time h
  rwa [cues_eq h, StableSort.mem_sort]

theorem precedes_iff {s : Schedule Float} (timed : s.IsTimed) {cues : List (Cue Float)}
    (h : s.cues = .ok cues) {off on : Cue Float} (hoff : off ∈ cues) (hon : on ∈ cues)
    (ends : off.action = .noteOff) (starts : on.action = .noteOn) :
    (Cue.Precedes cues off on ↔ ¬ on.time < off.time) ∧
      (Cue.Precedes cues on off ↔ on.time < off.time) := by
  have sorted := sorted_cues timed h
  have different : off ≠ on := by
    rintro rfl
    rw [ends] at starts
    cases starts
  by_cases later : on.time < off.time
  · have before : Cue.before on off = true := by simp [Cue.before, later]
    exact ⟨iff_of_false (Cue.not_precedes_of_before sorted hoff hon different before)
      (not_not.2 later), iff_of_true (Cue.precedes_of_before sorted before) later⟩
  · have before : Cue.before off on = true := by simp [Cue.before, later, ends, starts]
    exact ⟨iff_of_true (Cue.precedes_of_before sorted before) later,
      iff_of_false (Cue.not_precedes_of_before sorted hon hoff different.symm before) later⟩

end Schedule

end ChordScript
