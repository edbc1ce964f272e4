import ChordScript.Midi.Port
import Mathlib.Data.List.Basic

namespace ChordScript.Midi.Ports

variable {p : Ports} {name : String} {i : Nat}

structure IsFirst (p : Ports) (name : String) (i : Nat) : Prop where
  named : p.names[i]? = some (some name)
  least : ∀ j < i, p.names[j]? ≠ some (some name)

structure Tolerates (p : Ports) (name : String) : Prop where
  opens : ∀ i, p.IsFirst name i → p.open (some name) = .ok (.port i)
  fails : (∀ i, ¬ p.IsFirst name i) → ∃ e, p.open (some name) = .error e

/-- One port has the name, and another one does not tell its own. -/
def Obscured (p : Ports) (name : String) : Prop := some name ∈ p.names ∧ none ∈ p.names

theorem isFirst_iff : p.IsFirst name i ↔ p.names.idxOf? (some name) = some i := by
  rw [List.idxOf?_eq_some_iff]
  constructor
  · rintro ⟨named, least⟩
    obtain ⟨bound, here⟩ := List.getElem?_eq_some_iff.1 named
    refine ⟨bound, here, fun j before same => least j before ?_⟩
    exact List.getElem?_eq_some_iff.2 ⟨Nat.lt_trans before bound, same⟩
  · rintro ⟨bound, here, others⟩
    refine ⟨List.getElem?_eq_some_iff.2 ⟨bound, here⟩, fun j before same => ?_⟩
    obtain ⟨_, there⟩ := List.getElem?_eq_some_iff.1 same
    exact others j before there

theorem exists_isFirst_iff : (∃ i, p.IsFirst name i) ↔ some name ∈ p.names := by
  simp only [isFirst_iff, ← Option.isSome_iff_exists, ← Option.ne_none_iff_isSome, ne_eq,
    List.idxOf?_eq_none_iff, not_not]

theorem mapM_id_eq_some_iff {names : List (Option String)} {read : List String} :
    names.mapM id = some read ↔ names = read.map some := by
  induction names generalizing read with
  | nil => cases read <;> simp
  | cons name rest ih =>
    rw [List.mapM_cons]
    cases name with
    | none => cases read <;> simp
    | some name =>
      cases read with
      | nil => cases rest.mapM id <;> simp
      | cons first others =>
        rw [List.map_cons, List.cons.injEq, ← ih]
        cases rest.mapM id <;> simp

theorem exists_read {names : List (Option String)} (told : none ∉ names) :
    ∃ read : List String, names = read.map some := by
  induction names with
  | nil => exact ⟨[], rfl⟩
  | cons name rest ih =>
    obtain ⟨head, tail⟩ := not_or.1 (List.mem_cons.not.1 told)
    obtain ⟨first, rfl⟩ := Option.ne_none_iff_exists'.1 (Ne.symm head)
    obtain ⟨others, rfl⟩ := ih tail
    exact ⟨first :: others, rfl⟩

section

variable (starts : p.initFails = false)

include starts

theorem find_of_unread (unread : none ∈ p.names) : p.find name = .error .unreadableName := by
  have fails : p.names.mapM id = none := by
    rw [Option.eq_none_iff_forall_ne_some]
    intro read all
    rw [mapM_id_eq_some_iff.1 all] at unread
    simp at unread
  rw [find, starts, fails]
  rfl

theorem find_of_read {read : List String} (all : p.names = read.map some) :
    p.find name =
      (p.names.idxOf? (some name)).elim (.error (.noSuchPort name read)) .ok := by
  have same : p.names.idxOf? (some name) = read.idxOf? name := by
    rw [all, List.idxOf?, List.idxOf?, List.findIdx?_map]
    rfl
  rw [find, starts, mapM_id_eq_some_iff.2 all, same]
  simp only [Bool.false_eq_true, if_false]
  cases read.idxOf? name <;> rfl

theorem open_of_unread (unread : none ∈ p.names) :
    p.open (some name) = .error .unreadableName := by
  rw [«open», openNamed, find_of_unread starts unread]
  rfl

theorem tolerates_iff_of_unread (unread : none ∈ p.names) :
    p.Tolerates name ↔ some name ∉ p.names := by
  -- The names are given up before any of them is compared.
  have failed : p.open (some name) = .error .unreadableName := open_of_unread starts unread
  rw [← exists_isFirst_iff]
  constructor
  · rintro ⟨opens, -⟩ ⟨i, first⟩
    rw [opens i first] at failed
    cases failed
  · intro missing
    exact ⟨fun i first => absurd ⟨i, first⟩ missing, fun _ => ⟨_, failed⟩⟩

section

variable (connects : p.connectFails = false) {read : List String} (all : p.names = read.map some)

include connects all

theorem open_of_read :
    p.open (some name) =
      (p.names.idxOf? (some name)).elim (.error (.noSuchPort name read)) (.ok <| .port ·) := by
  rw [«open», openNamed, find_of_read starts all]
  cases p.names.idxOf? (some name) with
  | none => rfl
  | some i => simp [Except.bind, connects]

theorem open_of_missing (missing : some name ∉ p.names) :
    p.open (some name) = .error (.noSuchPort name read) := by
  rw [open_of_read starts connects all, List.idxOf?_eq_none_iff.2 missing]
  rfl

theorem open_eq_ok_iff : p.open (some name) = .ok (.port i) ↔ p.IsFirst name i := by
  rw [open_of_read starts connects all, isFirst_iff]
  cases p.names.idxOf? (some name) <;> simp

theorem tolerates_of_read : p.Tolerates name where
  opens i first := (open_eq_ok_iff starts connects all).2 first
  fails missing := ⟨_, open_of_missing starts connects all (by
    rw [← exists_isFirst_iff]
    exact not_exists.2 missing)⟩

end

end

/-- If the client starts and connecting works, the first port with a name is opened, and nothing if
there is none, unless a port with the name is there and another port does not tell its own. As soon as
one port does not, none is opened; if all do, the first one with the name is, and without one the
error names all that there are. -/
theorem tolerates_iff_not_obscured (starts : p.initFails = false)
    (connects : p.connectFails = false) (name : String) :
    (p.Tolerates name ↔ ¬ p.Obscured name) ∧
      (none ∈ p.names → p.open (some name) = .error .unreadableName) ∧
      ∀ read : List String, p.names = read.map some →
        (∀ i, p.open (some name) = .ok (.port i) ↔ p.IsFirst name i) ∧
          (some name ∉ p.names → p.open (some name) = .error (.noSuchPort name read)) := by
  refine ⟨?_, open_of_unread starts, fun read all => ?_⟩
  · by_cases unread : none ∈ p.names
    · rw [tolerates_iff_of_unread starts unread, Obscured, and_iff_left unread]
    · obtain ⟨read, all⟩ := exists_read unread
      exact iff_of_true (tolerates_of_read starts connects all) fun obscured => unread obscured.2
  · exact ⟨fun i => open_eq_ok_iff starts connects all, open_of_missing starts connects all⟩

theorem tolerates_iff_not_obscured_organ :
    let told : Ports := { names := [some "Synth", some "Organ", some "Organ"] }
    let silent : Ports := { names := [some "Synth", none] }
    (told.open (some "Organ") = .ok (.port 1) ∧ told.Tolerates "Organ") ∧
      silent.open (some "Organ") = .error .unreadableName ∧ silent.Tolerates "Organ" := by
  intro told silent
  obtain ⟨tolerates, -, read⟩ := tolerates_iff_not_obscured (p := told) rfl rfl "Organ"
  obtain ⟨tolerates', unread, -⟩ := tolerates_iff_not_obscured (p := silent) rfl rfl "Organ"
  have second : told.IsFirst "Organ" 1 := ⟨rfl, by decide⟩
  refine ⟨⟨?_, ?_⟩, ?_, ?_⟩
  · exact ((read ["Synth", "Organ", "Organ"] rfl).1 1).2 second
  · exact tolerates.2 (by simp [told, Obscured])
  · exact unread (by simp [silent])
  · exact tolerates'.2 (by simp [silent, Obscured])

theorem not_forall_tolerates :
    ¬ ∀ (p : Ports) (name : String), p.initFails = false → p.connectFails = false →
      p.Tolerates name := by
  intro tolerates
  have opened := (tolerates { names := [some "A", none] } "A" rfl rfl).opens 0 ⟨rfl, nofun⟩
  exact absurd opened (by decide)

end ChordScript.Midi.Ports
