import ChordScript.Proofs.Compile.Merge
import ChordScript.Proofs.Program.Numbering

/-!
# Compiling line by line

Reading a text and then walking through the program comes to the same as one walk through the lines
of the text, which enters for each line its events and its error into a ledger. Main statement:
`compile_eq_ledger`.
-/

namespace ChordScript

variable {τ : Type} {d : Discipline}

structure LineEntry (τ : Type) where
  line : Nat
  events : List (Event τ)
  error : Option ScriptError

namespace LineEntry

def diagnostic? (e : LineEntry τ) : Option Diagnostic := e.error.map (⟨some e.line, ·⟩)

def renumber (f : Nat → Nat) (e : LineEntry τ) : LineEntry τ := { e with line := f e.line }

theorem diagnostic?_renumber (f : Nat → Nat) (e : LineEntry τ) :
    (e.renumber f).diagnostic? = e.diagnostic?.map (·.renumber f) := by
  obtain ⟨n, events, _ | error⟩ := e <;> rfl

theorem line_of_diagnostic? (e : LineEntry τ) (x : Diagnostic) (h : e.diagnostic? = some x) :
    x.line = some e.line := by
  obtain ⟨error, -, rfl⟩ := Option.map_eq_some_iff.1 h
  rfl

variable {es : List (LineEntry τ)}

theorem filter_line (increasing : (es.map (·.line)).Pairwise (· < ·)) {e : LineEntry τ}
    (mem : e ∈ es) : es.filter (·.line = e.line) = [e] := by
  obtain ⟨before, after, rfl⟩ := List.append_of_mem mem
  rw [List.pairwise_map, List.pairwise_append, List.pairwise_cons] at increasing
  obtain ⟨-, ⟨earlier, -⟩, later⟩ := increasing
  have none_before : before.filter (·.line = e.line) = [] := by
    rw [List.filter_eq_nil_iff]
    intro x hx
    simpa using Nat.ne_of_lt (later x hx e List.mem_cons_self)
  have none_after : after.filter (·.line = e.line) = [] := by
    rw [List.filter_eq_nil_iff]
    intro x hx
    simpa using Nat.ne_of_gt (earlier x hx)
  simp [none_before, none_after]

theorem filter_diagnostics (increasing : (es.map (·.line)).Pairwise (· < ·)) {e : LineEntry τ}
    (mem : e ∈ es) :
    (es.filterMap (·.diagnostic?)).filter (·.line = some e.line) = e.diagnostic?.toList := by
  have told : (es.filterMap (·.diagnostic?)).filter (·.line = some e.line) =
      (es.filter (·.line = e.line)).filterMap (·.diagnostic?) := by
    rw [List.filter_filterMap, List.filterMap_filter]
    apply List.filterMap_congr
    rintro ⟨n, events, _ | error⟩ -
    · simp [diagnostic?]
    · by_cases same : n = e.line <;> simp [diagnostic?, same]
  rw [told, filter_line increasing mem, List.filterMap_cons, List.filterMap_nil]
  cases e.diagnostic? <;> rfl

def share (es : List (LineEntry τ)) (n : Nat) : List (Event τ) :=
  (es.filter (·.line = n)).flatMap (·.events)

theorem share_line (increasing : (es.map (·.line)).Pairwise (· < ·)) {e : LineEntry τ}
    (mem : e ∈ es) : share es e.line = e.events := by
  simp [share, filter_line increasing mem]

theorem flatMap_share (increasing : (es.map (·.line)).Pairwise (· < ·)) :
    (es.map (·.line)).flatMap (share es) = es.flatMap (·.events) := by
  rw [List.flatMap_map]
  exact List.flatMap_congr fun e mem => share_line increasing mem

end LineEntry

def Outcome.error? : Outcome τ → Option ScriptError
  | .dropped error => some error
  | _ => none

namespace Walk

variable [Seconds τ]

def pass (d : Discipline) (w : Walk τ) : Line.Reading → Walk τ
  | .ok (some c) => w.next d c
  | _ => w

def entry (w : Walk τ) : Nat × Line.Reading → LineEntry τ
  | (n, .ok none) => ⟨n, [], none⟩
  | (n, .ok (some c)) => ⟨n, (w.outcome c).events, (w.outcome c).error?⟩
  | (n, .error error) => ⟨n, [], some error⟩

def ledger (d : Discipline) : Walk τ → List (Nat × Line.Reading) → List (LineEntry τ)
  | _, [] => []
  | w, x :: rest => w.entry x :: ledger d (w.pass d x.2) rest

def passAll (d : Discipline) (w : Walk τ) (xs : List (Nat × Line.Reading)) : Walk τ :=
  xs.foldl (fun w x => w.pass d x.2) w

theorem ledger_append (w : Walk τ) (xs ys : List (Nat × Line.Reading)) :
    ledger d w (xs ++ ys) = ledger d w xs ++ ledger d (w.passAll d xs) ys := by
  induction xs generalizing w with
  | nil => rfl
  | cons x xs ih => simp [ledger, ih, passAll]

theorem passAll_append (w : Walk τ) (xs ys : List (Nat × Line.Reading)) :
    w.passAll d (xs ++ ys) = (w.passAll d xs).passAll d ys :=
  List.foldl_append

theorem entry_map (w : Walk τ) (f : Nat → Nat) (x : Nat × Line.Reading) :
    w.entry (x.map f id) = (w.entry x).renumber f := by
  obtain ⟨n, _ | _ | c⟩ := x <;> rfl

theorem line_entry (w : Walk τ) (x : Nat × Line.Reading) : (w.entry x).line = x.1 := by
  obtain ⟨n, _ | _ | c⟩ := x <;> rfl

theorem diagnostic?_entry (w : Walk τ) (n : Nat) (c : Command) :
    (w.entry (n, .ok (some c))).diagnostic? = Outcome.diagnostic? (⟨some n, c⟩, w.outcome c) := by
  rw [entry]
  cases w.outcome c <;> rfl

theorem ledger_map (w : Walk τ) (f : Nat → Nat) (xs : List (Nat × Line.Reading)) :
    ledger d w (xs.map (Prod.map f id)) = (ledger d w xs).map (·.renumber f) := by
  induction xs generalizing w with
  | nil => rfl
  | cons x xs ih => simp [ledger, ih, entry_map]

theorem passAll_map (w : Walk τ) (f : Nat → Nat) (xs : List (Nat × Line.Reading)) :
    w.passAll d (xs.map (Prod.map f id)) = w.passAll d xs := by
  rw [passAll, List.foldl_map]
  rfl

theorem map_line_ledger (w : Walk τ) (xs : List (Nat × Line.Reading)) :
    (ledger d w xs).map (·.line) = xs.map Prod.fst := by
  induction xs generalizing w with
  | nil => rfl
  | cons x xs ih => rw [ledger, List.map_cons, List.map_cons, ih, line_entry]

/-! ### The ledger and the program -/

theorem passAll_eq_finish (w : Walk τ) (xs : List (Nat × Line.Reading)) :
    w.passAll d xs = w.finish d (xs.filterMap Program.statement?) := by
  induction xs generalizing w with
  | nil => rfl
  | cons x xs ih =>
    have first : w.passAll d (x :: xs) = (w.pass d x.2).passAll d xs := rfl
    rw [first, ih, List.filterMap_cons]
    obtain ⟨n, _ | _ | c⟩ := x <;> rfl

theorem events_ledger (w : Walk τ) (xs : List (Nat × Line.Reading)) :
    (ledger d w xs).flatMap (·.events) =
      (outcomes d w (xs.filterMap Program.statement?)).flatMap (·.2.events) := by
  induction xs generalizing w with
  | nil => rfl
  | cons x xs ih =>
    rw [ledger, List.flatMap_cons, ih, List.filterMap_cons]
    obtain ⟨n, _ | _ | c⟩ := x <;> rfl

theorem diagnostics_ledger_perm (w : Walk τ) (xs : List (Nat × Line.Reading)) :
    ((ledger d w xs).filterMap (·.diagnostic?)).Perm
      (xs.filterMap Program.diagnostic? ++
        (outcomes d w (xs.filterMap Program.statement?)).filterMap Outcome.diagnostic?) := by
  induction xs generalizing w with
  | nil => exact .refl _
  | cons x xs ih =>
    obtain ⟨n, error | _ | c⟩ := x
    · exact (ih w).cons _
    · exact ih w
    · -- The reading has nothing to report on a command, so its error comes from the walk.
      have silent : ((n, .ok (some c)) :: xs).filterMap Program.diagnostic? =
          xs.filterMap Program.diagnostic? := List.filterMap_cons_none rfl
      have walk : outcomes d w (((n, .ok (some c)) :: xs).filterMap Program.statement?) =
          (⟨some n, c⟩, w.outcome c) ::
            outcomes d (w.next d c) (xs.filterMap Program.statement?) := rfl
      rw [silent, walk, ledger, List.filterMap_cons, List.filterMap_cons, diagnostic?_entry]
      cases Outcome.diagnostic? (⟨some n, c⟩, w.outcome c) with
      | none => exact ih (w.next d c)
      | some x => exact ((ih (w.next d c)).cons x).trans List.perm_middle.symm

def schedule (d : Discipline) (w : Walk τ) (xs : List (Nat × Line.Reading)) : Schedule τ where
  discipline := d
  events := (ledger d w xs).flatMap (·.events)
  finalCursor := (w.passAll d xs).cursor.offset
  diagnostics := (ledger d w xs).filterMap (·.diagnostic?)

end Walk

theorem Program.pairwise_readLines (text : String) :
    ((readLines text).map Prod.fst).Pairwise (· < ·) := by
  rw [readLines_eq, map_fst_readFrom]
  exact List.pairwise_lt_range'

theorem Program.line_of_diagnostic? (x : Nat × Line.Reading) (y : Diagnostic)
    (h : diagnostic? x = some y) : y.line = some x.1 := by
  obtain ⟨n, _ | _⟩ := x <;> cases h
  rfl

section

variable [Seconds τ]

theorem Program.merge_place (text : String) (tempo : Tempo) (d : Discipline) :
    { ((read text).place tempo d : Schedule τ) with
      diagnostics := Diagnostic.merge (readDiagnostics text)
        ((read text).place tempo d : Schedule τ).diagnostics } =
      Walk.schedule d (.start tempo) (readLines text) := by
  have merged := Diagnostic.merge_eq_of_perm
    (Walk.diagnostics_ledger_perm (d := d) (.start tempo : Walk τ) (readLines text))
    (Diagnostic.increasing_filterMap LineEntry.line_of_diagnostic?
      (by rw [Walk.map_line_ledger]; exact pairwise_readLines text))
  rw [Walk.schedule, Walk.events_ledger, Walk.passAll_eq_finish, ← merged]
  rfl

theorem compile_eq_ledger (text : String) (context : Context) :
    (compile text context : Run τ) =
      (Discipline.choose context.discipline (Program.read text).commands).elim
        (.error ⟨.ambiguousScheduling, Program.readDiagnostics text⟩)
        fun d =>
          Run.ofSchedule (Walk.schedule d (.start context.tempo) (Program.readLines text)) := by
  rw [compile_eq, Program.schedule_eq]
  cases Discipline.choose context.discipline (Program.read text).commands with
  | none =>
    have unmerged : Diagnostic.merge (Program.readDiagnostics text) [] =
        Program.readDiagnostics text :=
      Diagnostic.merge_eq_of_perm (by simp)
        (Diagnostic.increasing_filterMap Program.line_of_diagnostic?
          (Program.pairwise_readLines text))
    simp [Run.mapDiagnostics, unmerged]
  | some d =>
    rw [Option.elim_some, Option.elim_some, Run.mapDiagnostics_ofSchedule, Program.merge_place]

theorem compile_eq_ok_ledger {text : String} {context : Context} {s : Schedule τ}
    (compiled : compile text context = .ok s) :
    Discipline.choose context.discipline (Program.read text).commands = some s.discipline ∧
      s = Walk.schedule s.discipline (.start context.tempo) (Program.readLines text) := by
  rw [compile_eq_ledger] at compiled
  cases chosen : Discipline.choose context.discipline (Program.read text).commands with
  | none =>
    rw [chosen] at compiled
    cases compiled
  | some d =>
    rw [chosen, Option.elim_some, Run.ofSchedule] at compiled
    split at compiled
    · cases compiled
    · cases compiled
      exact ⟨rfl, rfl⟩

end

end ChordScript
