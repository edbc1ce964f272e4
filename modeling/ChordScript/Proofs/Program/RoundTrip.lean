import ChordScript.Program
import ChordScript.Proofs.Program.Line

namespace ChordScript.Program

open Text

theorem newline_not_mem_text {c : Command} (spelled : c.WellSpelled) : '\n' ∉ c.text.toList := by
  intro mem
  rw [Command.text_toList] at mem
  rcases mem_unwords mem with blank | ⟨w, word, on⟩
  · exact absurd blank (by decide)
  · exact absurd ((spelled.isWord_of_mem_words w word).isBlank _ on) (by decide)

theorem lines_join {cs : List Command} (spelled : ∀ c ∈ cs, c.WellSpelled) :
    lines (String.join (cs.map fun c => c.text ++ "\n")).toList =
      cs.map (·.text.toList) ++ [[]] := by
  have ended : (String.join (cs.map fun c => c.text ++ "\n")).toList =
      (cs.map (·.text.toList)).flatMap (· ++ ['\n']) := by
    simp [String.toList_join, List.flatMap_map]
  rw [ended, lines_flatMap_newline]
  exact List.forall_mem_map.2 fun c mem => newline_not_mem_text (spelled c mem)

theorem commands_read (text : String) :
    (read text).commands =
      (lines text.toList).filterMap fun line => (Line.read line).toOption.join := by
  rw [read, commands, readLines, List.filterMap_map, List.map_filterMap]
  conv_rhs => rw [← List.zipIdx_map_fst 1 (lines text.toList), List.filterMap_map]
  congr
  funext ⟨line, n⟩
  simp only [Function.comp_apply]
  cases Line.read line with
  | error e => rfl
  | ok c => cases c <;> rfl

theorem readDiagnostics_eq_nil {text : String} :
    readDiagnostics text = [] ↔ ∀ line ∈ lines text.toList, ∃ c, Line.read line = .ok c := by
  have fine (x : List Char × Nat) :
      diagnostic? (x.2, Line.read x.1) = none ↔ ∃ c, Line.read x.1 = .ok c := by
    cases Line.read x.1 <;> simp [diagnostic?]
  conv_rhs => rw [← List.zipIdx_map_fst 1 (lines text.toList), List.forall_mem_map]
  rw [readDiagnostics, readLines, List.filterMap_eq_nil_iff, List.forall_mem_map]
  exact forall₂_congr fun x _ => fine x

def RoundTrips (p : Program) : Prop :=
  readDiagnostics p.text = [] ∧ (read p.text).commands = p.commands

theorem roundTrips_of_wellSpelled {p : Program} (spelled : ∀ c ∈ p.commands, c.WellSpelled) :
    p.RoundTrips := by
  have split : lines p.text.toList = p.commands.map (·.text.toList) ++ [[]] := lines_join spelled
  have last : Line.read [] = .ok none := rfl
  constructor
  · rw [readDiagnostics_eq_nil, split, List.forall_mem_append, List.forall_mem_map]
    exact ⟨fun c mem => ⟨_, Command.read_text (spelled c mem)⟩,
      List.forall_mem_singleton.2 ⟨_, last⟩⟩
  · rw [commands_read, split, List.filterMap_append, List.filterMap_map]
    have same : p.commands.filterMap (fun c => (Line.read c.text.toList).toOption.join) =
        p.commands := by
      have each : ∀ c ∈ p.commands, (Line.read c.text.toList).toOption.join = some c := by
        intro c mem
        rw [Command.read_text (spelled c mem)]
        rfl
      exact (List.filterMap_congr each).trans List.filterMap_some
    exact (congrArg (· ++ []) same).trans (List.append_nil _)

theorem wellSpelled_of_mem_read {text : String} :
    ∀ c ∈ (read text).commands, c.WellSpelled := by
  intro c mem
  rw [commands_read, List.mem_filterMap] at mem
  obtain ⟨line, -, command⟩ := mem
  cases read : Line.read line with
  | error e => simp [read, Except.toOption] at command
  | ok o =>
    obtain rfl : o = some c := by simpa [read, Except.toOption] using command
    exact Line.wellSpelled_of_read read

theorem roundTrips_iff_wellSpelled :
    (∀ cs, (ofCommands cs).RoundTrips ↔ ∀ c ∈ cs, c.WellSpelled) ∧
      ∀ text, (read text).RoundTrips := by
  refine ⟨fun cs => ?_, fun text => roundTrips_of_wellSpelled wellSpelled_of_mem_read⟩
  have commands : (ofCommands cs).commands = cs := by
    simp [ofCommands, Program.commands, Function.comp_def]
  constructor
  · intro ⟨_, same⟩
    rw [← commands, ← same]
    exact wellSpelled_of_mem_read
  · intro spelled
    exact roundTrips_of_wellSpelled (by rwa [commands])

end ChordScript.Program
