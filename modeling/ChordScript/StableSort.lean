namespace ChordScript.StableSort

variable {α : Type}

def insert (before : α → α → Bool) (x : α) : List α → List α
  | [] => [x]
  | y :: ys => if before x y then y :: insert before x ys else x :: y :: ys

def sort (before : α → α → Bool) (xs : List α) : List α :=
  (xs.foldl (fun sorted x => insert before x sorted) []).reverse

theorem insert_perm (before : α → α → Bool) (x : α) (ys : List α) :
    (insert before x ys).Perm (x :: ys) := by
  induction ys with
  | nil => exact .refl _
  | cons y ys ih =>
    unfold insert
    split
    · exact (ih.cons y).trans (.swap x y ys)
    · exact .refl _

theorem sort_perm (before : α → α → Bool) (xs : List α) : (sort before xs).Perm xs := by
  have taken (acc : List α) :
      (xs.foldl (fun sorted x => insert before x sorted) acc).Perm (xs ++ acc) := by
    induction xs generalizing acc with
    | nil => exact .refl _
    | cons x xs ih =>
      exact (ih _).trans (((insert_perm before x acc).append_left xs).trans List.perm_middle)
  exact (List.reverse_perm _).trans (by simpa using taken [])

end ChordScript.StableSort
