import ChordScript.Proofs.Compile.Ledger
import ChordScript.Proofs.Program.RoundTrip
import Mathlib.Data.List.Forall2

namespace ChordScript

open List (Forall₂)

variable {τ : Type} [Seconds τ] {d : Discipline}

/-- The line `x` of a text holds the statement of `p` that has the position `x.1`. -/
def Program.HeldBy (p : Program) (x : Nat × Line.Reading) (s : Statement) : Prop :=
  x.2 = .ok (some s.command) ∧ ∃ i, p.statements[i]? = some s ∧ x.1 = i + 1

structure Diagnostic.Positioned (p : Program) (x y : Diagnostic) : Prop where
  error : x.error = y.error
  position : ∃ i s, p.statements[i]? = some s ∧ y.line = s.line ∧ x.line = some (i + 1)

namespace Walk

variable {p : Program} {xs : List (Nat × Line.Reading)} {ss : List Statement}

theorem passAll_eq_finish_of_heldBy (w : Walk τ) (held : Forall₂ p.HeldBy xs ss) :
    w.passAll d xs = w.finish d ss := by
  induction held generalizing w with
  | nil => rfl
  | @cons x s xs ss first _ ih =>
    have step : w.pass d x.2 = w.next d s.command := by rw [first.1, pass]
    have walk : w.passAll d (x :: xs) = (w.pass d x.2).passAll d xs := rfl
    rw [walk, step, ih]
    rfl

theorem ledger_heldBy (w : Walk τ) (held : Forall₂ p.HeldBy xs ss) :
    Forall₂ (fun e y => (∃ i, p.statements[i]? = some y.1 ∧ e.line = i + 1) ∧
      e.events = y.2.events ∧ e.error = y.2.error?) (ledger d w xs) (outcomes d w ss) := by
  induction held generalizing w with
  | nil => exact .nil
  | @cons x s xs ss first _ ih =>
    obtain ⟨n, r⟩ := x
    obtain ⟨rfl, position⟩ := first
    exact .cons ⟨position, rfl, rfl⟩ (ih (w.next d s.command))

theorem events_heldBy (w : Walk τ) (held : Forall₂ p.HeldBy xs ss) :
    (ledger d w xs).flatMap (·.events) = (outcomes d w ss).flatMap (·.2.events) := by
  have entries := ledger_heldBy (d := d) w held
  generalize ledger d w xs = es, outcomes d w ss = os at entries
  induction entries with
  | nil => rfl
  | cons first _ ih => rw [List.flatMap_cons, List.flatMap_cons, first.2.1, ih]

theorem diagnostics_heldBy (w : Walk τ) (held : Forall₂ p.HeldBy xs ss) :
    Forall₂ (Diagnostic.Positioned p) ((ledger d w xs).filterMap (·.diagnostic?))
      ((outcomes d w ss).filterMap Outcome.diagnostic?) := by
  refine List.rel_filterMap ?_ (ledger_heldBy (d := d) w held)
  rintro ⟨n, _, error⟩ ⟨s, o⟩ ⟨⟨i, at_i, rfl⟩, -, rfl⟩
  cases o with
  | tempo | placed => exact .none
  | dropped error => exact .some ⟨rfl, i, s, at_i, rfl, rfl⟩

end Walk

namespace Program

theorem readLines_text {p : Program} (spelled : ∀ c ∈ p.commands, c.WellSpelled) :
    ∃ xs, readLines p.text = xs ++ [(p.size + 1, .ok none)] ∧ Forall₂ p.HeldBy xs p.statements := by
  have split : Text.lines p.text.toList = p.commands.map (·.text.toList) ++ [[]] :=
    lines_join spelled
  have last : readFrom (1 + p.size) [[]] = [(p.size + 1, .ok none)] := by
    rw [Nat.add_comm]
    rfl
  refine ⟨readFrom 1 (p.commands.map (·.text.toList)), ?_, ?_⟩
  · rw [readLines_eq, split, readFrom_append, List.length_map, commands, List.length_map, ← size,
      last]
  · rw [List.forall₂_iff_get]
    refine ⟨by simp [readFrom, commands], ?_⟩
    intro i _ h
    have mem : p.statements[i].command ∈ p.commands := List.mem_map_of_mem (List.getElem_mem h)
    refine ⟨?_, i, List.getElem?_eq_getElem h, ?_⟩
    · simpa [readFrom, commands] using Command.read_text (spelled _ mem)
    · simp [readFrom, Nat.add_comm]

variable {p : Program} (spelled : ∀ c ∈ p.commands, c.WellSpelled)

include spelled

theorem schedule_text (tempo : Tempo) (d : Discipline) :
    ∃ ds, Walk.schedule d (.start tempo) (readLines p.text) =
        { (p.place tempo d : Schedule τ) with diagnostics := ds } ∧
      Forall₂ (Diagnostic.Positioned p) ds (p.place tempo d : Schedule τ).diagnostics := by
  obtain ⟨xs, whole, held⟩ := readLines_text spelled
  refine ⟨_, ?_, Walk.diagnostics_heldBy (.start tempo) held⟩
  rw [Walk.schedule, whole, Walk.ledger_append, Walk.passAll_append, List.flatMap_append,
    List.filterMap_append, Walk.events_heldBy _ held, Walk.passAll_eq_finish_of_heldBy _ held]
  simp [Walk.ledger, Walk.entry, Walk.passAll, Walk.pass, LineEntry.diagnostic?, place]

end Program

theorem Program.nodup_lines_read (text : String) :
    ((Program.read text).statements.map (·.line)).Nodup := by
  have increasing := pairwise_readLines text
  rw [List.pairwise_map] at increasing
  rw [List.Nodup, List.pairwise_map]
  refine increasing.filterMap _ ?_
  rintro ⟨m, _ | _ | _⟩ ⟨n, _ | _ | _⟩ lt _ ⟨⟩ _ ⟨⟩
  simpa using Nat.ne_of_lt lt

theorem compile_text_read (text : String) (context : Context) :
    Run.mapDiagnostics (fun _ => []) (compile (Program.read text).text context : Run τ) =
        Run.mapDiagnostics (fun _ => []) (compile text context) ∧
      Forall₂ (Diagnostic.Positioned (Program.read text))
        (Run.diagnostics (compile (Program.read text).text context : Run τ))
        (Run.diagnostics ((Program.read text).schedule context : Run τ)) ∧
      ((Program.read text).statements.map (·.line)).Nodup := by
  have spelled : ∀ c ∈ (Program.read text).commands, c.WellSpelled :=
    Program.wellSpelled_of_mem_read
  obtain ⟨readable, same⟩ := Program.roundTrips_of_wellSpelled spelled
  rw [compile_eq_ledger, same, readable, compile_eq, Program.schedule_eq]
  cases Discipline.choose context.discipline (Program.read text).commands with
  | none => exact ⟨rfl, .nil, Program.nodup_lines_read text⟩
  | some d =>
    obtain ⟨ds, schedule, positioned⟩ := @Program.schedule_text τ _ _ spelled context.tempo d
    simp only [Option.elim_some, schedule, Run.diagnostics_ofSchedule,
      Run.mapDiagnostics_ofSchedule]
    exact ⟨trivial, positioned, Program.nodup_lines_read text⟩

end ChordScript
