import ChordScript.StableSort
import Mathlib.Data.List.Basic

namespace ChordScript.StableSort

variable {α : Type} {before : α → α → Bool}

/-- A strict order on some elements whose ties are as good as equal. -/
structure StrictWeakOn (before : α → α → Bool) (on : α → Prop) : Prop where
  asymm : ∀ {a b}, on a → on b → before a b = true → before b a = false
  cotrans : ∀ {a b c}, on a → on b → on c → before a c = true →
    before a b = true ∨ before b c = true

def Sorted (before : α → α → Bool) (xs : List α) : Prop :=
  xs.Pairwise fun a b => before b a = false

theorem mem_insert {x z : α} {ys : List α} : z ∈ insert before x ys ↔ z = x ∨ z ∈ ys := by
  rw [(insert_perm before x ys).mem_iff, List.mem_cons]

theorem mem_sort {z : α} {xs : List α} : z ∈ sort before xs ↔ z ∈ xs :=
  (sort_perm before xs).mem_iff

theorem insert_sorted {on : α → Prop} (order : StrictWeakOn before on) {x : α} {ys : List α}
    (hx : on x) (hys : ∀ y ∈ ys, on y) (h : ys.Pairwise fun y z => before y z = false) :
    (insert before x ys).Pairwise fun y z => before y z = false := by
  induction ys with
  | nil => simp [insert]
  | cons y ys ih =>
    obtain ⟨hy, hys⟩ := List.forall_mem_cons.1 hys
    obtain ⟨head, tail⟩ := List.pairwise_cons.1 h
    rw [insert]
    split
    · rename_i earlier
      refine List.pairwise_cons.2 ⟨?_, ih hys tail⟩
      intro z hz
      rcases mem_insert.1 hz with rfl | hz
      · exact order.asymm hx hy earlier
      · exact head z hz
    · rename_i later
      have stops : before x y = false := by simpa using later
      refine List.pairwise_cons.2 ⟨?_, h⟩
      intro z hz
      rcases List.mem_cons.1 hz with rfl | hz
      · exact stops
      · by_contra passes
        rcases order.cotrans hx hy (hys z hz) (by simpa using passes) with first | second
        · exact absurd first (by simp [stops])
        · exact absurd second (by simp [head z hz])

theorem sort_sorted {on : α → Prop} (order : StrictWeakOn before on) {xs : List α}
    (h : ∀ x ∈ xs, on x) : Sorted before (sort before xs) := by
  have taken (acc : List α) (hacc : ∀ y ∈ acc, on y)
      (sorted : acc.Pairwise fun y z => before y z = false) :
      (xs.foldl (fun sorted x => insert before x sorted) acc).Pairwise
        fun y z => before y z = false := by
    induction xs generalizing acc with
    | nil => exact sorted
    | cons x xs ih =>
      obtain ⟨hx, hxs⟩ := List.forall_mem_cons.1 h
      refine ih hxs (insert before x acc) ?_ (insert_sorted order hx hacc sorted)
      intro y hy
      rcases mem_insert.1 hy with rfl | hy
      · exact hx
      · exact hacc y hy
  exact List.pairwise_reverse.2 (taken [] (by simp) .nil)

theorem sort_eq_self {xs : List α} (h : Sorted before xs) : sort before xs = xs := by
  have taken (acc : List α) (ordered : Sorted before (acc.reverse ++ xs)) :
      xs.foldl (fun sorted x => insert before x sorted) acc = xs.reverse ++ acc := by
    induction xs generalizing acc with
    | nil => rfl
    | cons x xs ih =>
      have stays : insert before x acc = x :: acc := by
        cases acc with
        | nil => rfl
        | cons y ys =>
          have last : before x y = false :=
            (List.pairwise_append.1 ordered).2.2 y (by simp) x List.mem_cons_self
          rw [insert, last]
          rfl
      have later : Sorted before ((x :: acc).reverse ++ xs) := by simpa using ordered
      rw [List.foldl_cons, stays, ih h.of_cons _ later]
      simp
  rw [sort, taken [] h]
  simp

section

variable {p : α → Bool} (ties : ∀ {x y}, p x = true → p y = true → before x y = false)

include ties

theorem filter_insert (x : α) (ys : List α) :
    (insert before x ys).filter p = (x :: ys).filter p := by
  induction ys with
  | nil => rfl
  | cons y ys ih =>
    rw [insert]
    split
    · rename_i passes
      rw [List.filter_cons, ih]
      simp only [List.filter_cons]
      -- Only one of the two is kept, since they are no ties.
      by_cases hx : p x = true
      · have hy : ¬ p y = true := fun hy => by simp [ties hx hy] at passes
        simp [hx, hy]
      · simp [hx]
    · rfl

theorem filter_sort (xs : List α) : (sort before xs).filter p = xs.filter p := by
  have taken (acc : List α) :
      (xs.foldl (fun sorted x => insert before x sorted) acc).filter p =
        (xs.reverse ++ acc).filter p := by
    induction xs generalizing acc with
    | nil => rfl
    | cons x xs ih =>
      rw [List.foldl_cons, ih, List.filter_append, filter_insert ties, ← List.filter_append,
        List.reverse_cons, List.append_assoc, List.singleton_append]
  rw [sort, List.filter_reverse, taken [], List.append_nil, List.filter_reverse,
    List.reverse_reverse]

end

end ChordScript.StableSort
