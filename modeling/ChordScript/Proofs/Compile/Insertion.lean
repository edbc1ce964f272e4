import ChordScript.Proofs.Compile.Ledger
import ChordScript.Proofs.Program.RoundTrip

/-!
# A line more

A line that holds no command can be put into a text anywhere: the run stays as it is, and only the
numbers of the later lines move. Main statement: `line_locality`.
-/

namespace ChordScript

variable {line text text' : String} {n : Nat}

/-- `Inserted line text n text'` says that `text'` is `text` with a new line behind its line `n`. -/
inductive Text.Inserted (line : String) : String → Nat → String → Prop
  | first (b : String) : Inserted line b 0 (line ++ "\n" ++ b)
  | between (a b : String) :
    Inserted line (a ++ "\n" ++ b) (a.toList.count '\n' + 1) (a ++ "\n" ++ line ++ "\n" ++ b)
  | last (a : String) : Inserted line a (a.toList.count '\n' + 1) (a ++ "\n" ++ line)

theorem Text.Inserted.lines (inserted : Inserted line text n text')
    (newline : '\n' ∉ line.toList) :
    ∃ front back, lines text.toList = front ++ back ∧
      lines text'.toList = front ++ line.toList :: back ∧ front.length = n := by
  have single := lines_eq_singleton newline
  cases inserted with
  | first =>
    refine ⟨[], Text.lines text.toList, rfl, ?_, rfl⟩
    simp [lines_append_newline, single]
  | between a b =>
    refine ⟨Text.lines a.toList, Text.lines b.toList, ?_, ?_, length_lines a.toList⟩
    · simp [lines_append_newline]
    · simp [lines_append_newline, single]
  | last =>
    refine ⟨Text.lines text.toList, [], by simp, ?_, length_lines text.toList⟩
    simp [lines_append_newline, single]

namespace Diagnostic

def upTo (n : Nat) (x : Diagnostic) : Bool := x.line.all (· ≤ n)

def makeRoom (n : Nat) (own ds : List Diagnostic) : List Diagnostic :=
  ds.filter (·.upTo n) ++ own ++ (ds.filter (!·.upTo n)).map (·.renumber (· + 1))

theorem makeRoom_append {early late : List Diagnostic} (own : List Diagnostic)
    (h_early : ∀ x ∈ early, x.upTo n = true) (h_late : ∀ x ∈ late, x.upTo n = false) :
    makeRoom n own (early ++ late) = early ++ own ++ late.map (·.renumber (· + 1)) := by
  have none_late : late.filter (·.upTo n) = [] :=
    List.filter_eq_nil_iff.2 fun x hx => by simp [h_late x hx]
  have none_early : early.filter (!·.upTo n) = [] :=
    List.filter_eq_nil_iff.2 fun x hx => by simp [h_early x hx]
  have all_early : early.filter (·.upTo n) = early := List.filter_eq_self.2 h_early
  have all_late : late.filter (!·.upTo n) = late :=
    List.filter_eq_self.2 fun x hx => by simp [h_late x hx]
  simp [makeRoom, none_late, none_early, all_early, all_late]

theorem makeRoom_filterMap {α : Type} {f : α → Option Diagnostic} {number : α → Nat}
    (line : ∀ x y, f x = some y → y.line = some (number x)) {xs ys : List α} {k : Nat}
    (first : xs.map number = List.range' 1 n) (second : ys.map number = List.range' (1 + n) k)
    (own : List Diagnostic) :
    makeRoom n own (xs.filterMap f ++ ys.filterMap f) =
      xs.filterMap f ++ own ++ (ys.filterMap f).map (·.renumber (· + 1)) := by
  apply makeRoom_append
  · intro x mem
    obtain ⟨m, at_m, -, upper⟩ := exists_line_of_mem_filterMap line first mem
    have le : m ≤ n := by omega
    simp [upTo, at_m, le]
  · intro x mem
    obtain ⟨m, at_m, lower, -⟩ := exists_line_of_mem_filterMap line second mem
    have lt : n < m := by omega
    simp [upTo, at_m, lt]

end Diagnostic

structure Line.Idle (τ : Type) [Seconds τ] (d : Discipline) (r : Reading)
    (error : Option ScriptError) : Prop where
  pass : ∀ w : Walk τ, w.pass d r = w
  entry : ∀ (w : Walk τ) (n : Nat), w.entry (n, r) = ⟨n, [], error⟩

section

variable (inserted : Text.Inserted line text n text') (newline : '\n' ∉ line.toList)

include inserted newline

theorem Program.readLines_inserted :
    ∃ early late k, readLines text = early ++ late ∧
      readLines text' =
        early ++ (n + 1, Line.read line.toList) :: late.map (Prod.map (· + 1) id) ∧
      early.map Prod.fst = List.range' 1 n ∧ late.map Prod.fst = List.range' (1 + n) k := by
  obtain ⟨front, back, before, after, rfl⟩ := inserted.lines newline
  refine ⟨readFrom 1 front, readFrom (1 + front.length) back, back.length, ?_, ?_,
    map_fst_readFrom 1 front, map_fst_readFrom _ back⟩
  · rw [readLines_eq, before, readFrom_append]
  · rw [readLines_eq, after, readFrom_append, ← readFrom_add]
    simp [readFrom, Nat.add_comm]

theorem Program.readDiagnostics_inserted :
    readDiagnostics text' = Diagnostic.makeRoom n
      (diagnostic? (n + 1, Line.read line.toList)).toList (readDiagnostics text) := by
  obtain ⟨early, late, k, before, after, first, second⟩ := readLines_inserted inserted newline
  rw [readDiagnostics, readDiagnostics, before, after, List.filterMap_append,
    List.filterMap_append, List.filterMap_cons, filterMap_map_comm (diagnostic?_map _),
    Diagnostic.makeRoom_filterMap line_of_diagnostic? first second]
  cases diagnostic? (n + 1, Line.read line.toList) <;> simp

theorem Program.commands_inserted :
    ∃ early late, (read text).commands = early ++ late ∧
      (read text').commands = early ++ (Line.read line.toList).toOption.join.toList ++ late := by
  obtain ⟨front, back, before, after, -⟩ := inserted.lines newline
  let command? (line : List Char) := (Line.read line).toOption.join
  refine ⟨front.filterMap command?, back.filterMap command?, ?_, ?_⟩
  · rw [commands_read, before, List.filterMap_append]
  · rw [commands_read, after, List.filterMap_append, List.append_assoc]
    apply congrArg (front.filterMap command? ++ ·)
    rw [List.filterMap_cons]
    cases (Line.read line.toList).toOption.join <;> rfl

namespace Walk

variable {τ : Type} [Seconds τ] {d : Discipline} {error : Option ScriptError}
  (idle : Line.Idle τ d (Line.read line.toList) error)

include idle

theorem ledger_inserted (w : Walk τ) :
    ∃ early late k, ledger d w (Program.readLines text) = early ++ late ∧
      ledger d w (Program.readLines text') =
        early ++ ⟨n + 1, [], error⟩ :: late.map (·.renumber (· + 1)) ∧
      early.map (·.line) = List.range' 1 n ∧ late.map (·.line) = List.range' (1 + n) k := by
  obtain ⟨early, late, k, before, after, first, second⟩ :=
    Program.readLines_inserted inserted newline
  refine ⟨ledger d w early, ledger d (w.passAll d early) late, k, ?_, ?_, ?_, ?_⟩
  · rw [before, ledger_append]
  · rw [after, ledger_append, ledger, ledger_map, idle.pass, idle.entry]
  · rw [map_line_ledger, first]
  · rw [map_line_ledger, second]

theorem passAll_inserted (w : Walk τ) :
    w.passAll d (Program.readLines text') = w.passAll d (Program.readLines text) := by
  obtain ⟨early, late, -, before, after, -, -⟩ := Program.readLines_inserted inserted newline
  have stays (v : Walk τ) (xs : List (Nat × Line.Reading)) :
      v.passAll d ((n + 1, Line.read line.toList) :: xs) = v.passAll d xs :=
    congrArg (passAll d · xs) (idle.pass v)
  rw [before, after, passAll_append, passAll_append, stays, passAll_map]

theorem schedule_inserted (w : Walk τ) :
    schedule d w (Program.readLines text') =
      { schedule d w (Program.readLines text) with
        diagnostics := Diagnostic.makeRoom n (error.map (⟨some (n + 1), ·⟩)).toList
          (schedule d w (Program.readLines text)).diagnostics } := by
  obtain ⟨early, late, k, before, after, first, second⟩ := ledger_inserted inserted newline idle w
  have events : (ledger d w (Program.readLines text')).flatMap (·.events) =
      (ledger d w (Program.readLines text)).flatMap (·.events) := by
    rw [before, after, List.flatMap_append, List.flatMap_append, List.flatMap_cons,
      List.flatMap_map]
    rfl
  have diagnostics : (ledger d w (Program.readLines text')).filterMap (·.diagnostic?) =
      Diagnostic.makeRoom n (error.map (⟨some (n + 1), ·⟩)).toList
        ((ledger d w (Program.readLines text)).filterMap (·.diagnostic?)) := by
    rw [before, after, List.filterMap_append, List.filterMap_append, List.filterMap_cons,
      filterMap_map_comm (LineEntry.diagnostic?_renumber _),
      Diagnostic.makeRoom_filterMap LineEntry.line_of_diagnostic? first second,
      LineEntry.diagnostic?]
    cases error <;> simp
  rw [schedule, schedule, passAll_inserted inserted newline idle, events, diagnostics]

theorem ofSchedule_inserted (w : Walk τ) :
    Run.ofSchedule (schedule d w (Program.readLines text')) =
      Run.mapDiagnostics (Diagnostic.makeRoom n (error.map (⟨some (n + 1), ·⟩)).toList)
        (.ofSchedule (schedule d w (Program.readLines text))) := by
  rw [schedule_inserted inserted newline idle, Run.mapDiagnostics_ofSchedule]

end Walk

theorem compile_inserted {τ : Type} [Seconds τ] (context : Context)
    (silent : ∀ c, Line.read line.toList ≠ .ok (some c)) :
    (compile text' context : Run τ) =
      Run.mapDiagnostics
        (Diagnostic.makeRoom n (Program.diagnostic? (n + 1, Line.read line.toList)).toList)
        (compile text context) := by
  have commands : (Program.read text').commands = (Program.read text).commands := by
    obtain ⟨early, late, before, after⟩ := Program.commands_inserted inserted newline
    have none : (Line.read line.toList).toOption.join = none := by
      cases h : Line.read line.toList with
      | error e => rfl
      | ok o =>
        cases o with
        | none => rfl
        | some c => exact absurd h (silent c)
    rw [before, after, none, Option.toList_none, List.append_nil]
  rw [compile_eq_ledger, compile_eq_ledger, commands]
  cases Discipline.choose context.discipline (Program.read text).commands with
  | none =>
    rw [Option.elim_none, Program.readDiagnostics_inserted inserted newline]
    rfl
  | some d =>
    cases h : Line.read line.toList with
    | error e =>
      have idle : Line.Idle τ d (Line.read line.toList) (some e) := by
        rw [h]
        exact ⟨fun _ => rfl, fun _ _ => rfl⟩
      exact Walk.ofSchedule_inserted inserted newline idle (.start context.tempo)
    | ok o =>
      cases o with
      | none =>
        have idle : Line.Idle τ d (Line.read line.toList) none := by
          rw [h]
          exact ⟨fun _ => rfl, fun _ _ => rfl⟩
        exact Walk.ofSchedule_inserted inserted newline idle (.start context.tempo)
      | some c => exact absurd h (silent c)

end

/-- The lines of a text are read one by one, and a line without a command can be put in anywhere:
its own error and the numbers of the later lines are all that a run shows of it. -/
theorem line_locality :
    (∀ a b : String,
      (Program.read (a ++ "\n" ++ b)).statements =
          (Program.read a).statements ++
            (Program.read b).statements.map (·.renumber (· + (a.toList.count '\n' + 1))) ∧
        Program.readDiagnostics (a ++ "\n" ++ b) =
          Program.readDiagnostics a ++
            (Program.readDiagnostics b).map (·.renumber (· + (a.toList.count '\n' + 1)))) ∧
    ∀ (τ : Type) [Seconds τ] (context : Context) {line text text' : String} {n : Nat},
      Text.Inserted line text n text' → '\n' ∉ line.toList →
      (∀ c, Line.read line.toList ≠ .ok (some c)) →
        (compile text' context : Run τ) =
          Run.mapDiagnostics
            (Diagnostic.makeRoom n (Program.diagnostic? (n + 1, Line.read line.toList)).toList)
            (compile text context) := by
  refine ⟨fun a b => ⟨?_, ?_⟩, fun _ _ context _ _ _ _ inserted newline silent =>
    compile_inserted inserted newline context silent⟩
  · rw [Program.read, Program.readLines_append_newline, List.filterMap_append,
      filterMap_map_comm (Program.statement?_map _)]
    rfl
  · rw [Program.readDiagnostics, Program.readLines_append_newline, List.filterMap_append,
      filterMap_map_comm (Program.diagnostic?_map _)]
    rfl

namespace Insertion

def verse : String := "play C4 1/4"

def rest : String := "play Q4 1/4\nrest 1m"

theorem line_locality_bogus :
    Text.Inserted "bogus" (verse ++ "\n" ++ rest) 1 (verse ++ "\n" ++ "bogus" ++ "\n" ++ rest) ∧
      '\n' ∉ "bogus".toList ∧ (∀ c, Line.read "bogus".toList ≠ .ok (some c)) ∧
      (compile (verse ++ "\n" ++ "bogus" ++ "\n" ++ rest) {} : Run Rat) =
        Run.mapDiagnostics (Diagnostic.makeRoom 1 [⟨some 2, .malformedLine "bogus"⟩])
          (compile (verse ++ "\n" ++ rest) {}) := by
  have inserted : Text.Inserted "bogus" (verse ++ "\n" ++ rest) 1
      (verse ++ "\n" ++ "bogus" ++ "\n" ++ rest) := .between verse rest
  have newline : '\n' ∉ "bogus".toList := by decide
  have read : Line.read "bogus".toList = .error (.malformedLine "bogus") := by decide +kernel
  have silent : ∀ c, Line.read "bogus".toList ≠ .ok (some c) := by
    rw [read]
    exact nofun
  have local_run := line_locality.2 Rat {} inserted newline silent
  rw [read] at local_run
  exact ⟨inserted, newline, silent, local_run⟩

end Insertion

end ChordScript
