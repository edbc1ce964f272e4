import ChordScript.Proofs.Schedule.Outcome
import ChordScript.Proofs.StableSort.Sorted
import Mathlib.Data.List.Pairwise
import Mathlib.Order.Basic

namespace ChordScript

variable {τ : Type}

abbrev Run (τ : Type) := Except Rejected (Schedule τ)

namespace Run

def diagnostics : Run τ → List Diagnostic
  | .ok s => s.diagnostics
  | .error r => r.diagnostics

def events : Run τ → List (Event τ)
  | .ok s => s.events
  | .error _ => []

def error? : Run τ → Option ScriptError
  | .ok _ => none
  | .error r => some r.error

def mapDiagnostics (f : List Diagnostic → List Diagnostic) : Run τ → Run τ
  | .ok s => .ok { s with diagnostics := f s.diagnostics }
  | .error r => .error { r with diagnostics := f r.diagnostics }

def ofSchedule (s : Schedule τ) : Run τ :=
  if s.events.isEmpty then .error ⟨.nothingToSchedule, s.diagnostics⟩ else .ok s

theorem mapDiagnostics_ofSchedule (f : List Diagnostic → List Diagnostic) (s : Schedule τ) :
    mapDiagnostics f (ofSchedule s) = ofSchedule { s with diagnostics := f s.diagnostics } := by
  simp only [ofSchedule]
  split <;> rfl

@[simp] theorem diagnostics_ofSchedule (s : Schedule τ) :
    diagnostics (ofSchedule s) = s.diagnostics := by
  rw [ofSchedule]
  split <;> rfl

@[simp] theorem events_ofSchedule (s : Schedule τ) : events (ofSchedule s) = s.events := by
  rw [ofSchedule]
  split
  · rename_i empty
    exact (List.isEmpty_iff.1 empty).symm
  · rfl

end Run

theorem Program.schedule_eq [Seconds τ] (p : Program) (context : Context) :
    (p.schedule context : Run τ) =
      (Discipline.choose context.discipline p.commands).elim (.error ⟨.ambiguousScheduling, []⟩)
        fun d => Run.ofSchedule (p.place context.tempo d) := by
  rw [schedule]
  cases Discipline.choose context.discipline p.commands <;> rfl

theorem compile_eq [Seconds τ] (text : String) (context : Context) :
    (compile text context : Run τ) =
      Run.mapDiagnostics (Diagnostic.merge (Program.readDiagnostics text))
        ((Program.read text).schedule context) := by
  rw [compile]
  cases ((Program.read text).schedule context : Run τ) <;> rfl

namespace Diagnostic

theorem strictWeakOn_before : StableSort.StrictWeakOn before fun _ => True where
  asymm := by
    rintro ⟨m, _⟩ ⟨n, _⟩ - -
    cases m <;> cases n <;> simp only [before, decide_eq_true_eq] <;> grind
  cotrans := by
    rintro ⟨m, _⟩ ⟨k, _⟩ ⟨n, _⟩ - - -
    cases m <;> cases k <;> cases n <;> simp only [before, decide_eq_true_eq] <;> grind

def Increasing (ds : List Diagnostic) : Prop :=
  ds.Pairwise fun a b => ∃ m n, a.line = some m ∧ b.line = some n ∧ m < n

section

variable {α : Type} {f : α → Option Diagnostic} {number : α → Nat} {xs : List α}
  (line : ∀ x y, f x = some y → y.line = some (number x))

include line

theorem increasing_filterMap (increasing : (xs.map number).Pairwise (· < ·)) :
    Increasing (xs.filterMap f) := by
  rw [List.pairwise_map] at increasing
  exact increasing.filterMap f fun a b lt x hx y hy => ⟨_, _, line a x hx, line b y hy, lt⟩

theorem exists_line_of_mem_filterMap {m k : Nat} (numbers : xs.map number = List.range' m k)
    {y : Diagnostic} (mem : y ∈ xs.filterMap f) : ∃ n, y.line = some n ∧ m ≤ n ∧ n < m + k := by
  obtain ⟨x, hx, found⟩ := List.mem_filterMap.1 mem
  have within : number x ∈ xs.map number := List.mem_map_of_mem hx
  rw [numbers, List.mem_range'_1] at within
  exact ⟨number x, line x y found, within⟩

end

theorem merge_eq_of_perm {a b ds : List Diagnostic} (perm : ds.Perm (a ++ b))
    (increasing : Increasing ds) : merge a b = ds := by
  have ordered : ds.Pairwise fun x y => before x y = true := by
    refine increasing.imp ?_
    rintro ⟨_, _⟩ ⟨_, _⟩ ⟨m, n, rfl, rfl, lt⟩
    simpa [before] using lt
  have sorted : StableSort.Sorted before ds :=
    ordered.imp fun earlier => strictWeakOn_before.asymm trivial trivial earlier
  have connected : ∀ x ∈ ds, ∀ y ∈ ds, x ≠ y → before x y = true ∨ before y x = true := by
    have symmetric : Std.Symm fun x y => before x y = true ∨ before y x = true :=
      ⟨fun _ _ => .symm⟩
    exact fun x hx y hy => (ordered.imp fun {x y} (earlier : before x y = true) =>
      (Or.inl earlier : before x y = true ∨ before y x = true)).forall hx hy
  refine List.Perm.eq_of_pairwise ?_ (StableSort.sort_sorted strictWeakOn_before fun _ _ => trivial)
    sorted ((StableSort.sort_perm before (a ++ b)).trans perm.symm)
  intro x y hx hy not_after not_before
  -- Different diagnostics are on different lines, so one of them comes before the other.
  by_contra different
  have hx : x ∈ ds := perm.mem_iff.2 (StableSort.mem_sort.1 hx)
  rcases connected x hx y hy different with earlier | later
  · exact absurd earlier (by simp [not_before])
  · exact absurd later (by simp [not_after])

end Diagnostic

end ChordScript
