import ChordScript.Program
import Mathlib.Data.List.Basic

namespace ChordScript

abbrev Line.Reading := Except ScriptError (Option Command)

def Statement.renumber (f : Nat → Nat) (s : Statement) : Statement :=
  { s with line := s.line.map f }

def Diagnostic.renumber (f : Nat → Nat) (d : Diagnostic) : Diagnostic :=
  { d with line := d.line.map f }

theorem filterMap_map_comm {α β : Type} {f : α → Option β} {g : α → α} {h : β → β}
    (comm : ∀ x, f (g x) = (f x).map h) (xs : List α) :
    (xs.map g).filterMap f = (xs.filterMap f).map h := by
  rw [List.filterMap_map, List.map_filterMap]
  exact List.filterMap_congr fun x _ => comm x

namespace Program

def readFrom (n : Nat) (ls : List (List Char)) : List (Nat × Line.Reading) :=
  (ls.zipIdx n).map fun (line, n) => (n, Line.read line)

theorem readLines_eq (text : String) : readLines text = readFrom 1 (Text.lines text.toList) := rfl

theorem readFrom_append (n : Nat) (a b : List (List Char)) :
    readFrom n (a ++ b) = readFrom n a ++ readFrom (n + a.length) b := by
  simp [readFrom, List.zipIdx_append]

theorem readFrom_add (n k : Nat) (ls : List (List Char)) :
    readFrom (n + k) ls = (readFrom n ls).map (Prod.map (· + k) id) := by
  rw [readFrom, readFrom, Nat.add_comm, ← List.map_snd_add_zipIdx_eq_zipIdx, List.map_map,
    List.map_map]
  rfl

theorem map_fst_readFrom (n : Nat) (ls : List (List Char)) :
    (readFrom n ls).map Prod.fst = List.range' n ls.length := by
  rw [readFrom, List.map_map, ← List.zipIdx_map_snd n ls]
  rfl

theorem statement?_map (f : Nat → Nat) (x : Nat × Line.Reading) :
    statement? (x.map f id) = (statement? x).map (·.renumber f) := by
  obtain ⟨n, _ | _ | c⟩ := x <;> rfl

theorem diagnostic?_map (f : Nat → Nat) (x : Nat × Line.Reading) :
    diagnostic? (x.map f id) = (diagnostic? x).map (·.renumber f) := by
  obtain ⟨n, _ | _ | c⟩ := x <;> rfl

theorem readLines_append_newline (a b : String) :
    readLines (a ++ "\n" ++ b) =
      readLines a ++ (readLines b).map (Prod.map (· + (a.toList.count '\n' + 1)) id) := by
  have newline : (a ++ "\n" ++ b).toList = a.toList ++ '\n' :: b.toList := by simp
  rw [readLines_eq, newline, Text.lines_append_newline, readFrom_append, Text.length_lines,
    readFrom_add]
  rfl

end Program

end ChordScript
