import ChordScript.Proofs.Compile.Ledger
import ChordScript.Proofs.Program.Grammar
import ChordScript.Proofs.Schedule.Verdict

namespace ChordScript

open Text

namespace ScriptError

def quoted : ScriptError → List Char
  | .rootFormat token | .chordQuality token | .duration token => token.toList
  | .tempo argument => argument.toList
  | .malformedLine line => line.toList
  | .ambiguousScheduling | .nothingToSchedule => []

theorem mem_between {c : Char} {front back : String} (hf : c ∉ front.toList)
    (hb : c ∉ back.toList) (s : String) : c ∈ (front ++ s ++ back).toList ↔ c ∈ s.toList := by
  simp [hf, hb]

theorem newline_mem_message {e : ScriptError} :
    '\n' ∈ e.message.toList ↔ '\n' ∈ e.quoted := by
  cases e with
  | rootFormat | chordQuality | duration | tempo | malformedLine =>
    exact mem_between (by decide) (by decide) _
  | ambiguousScheduling | nothingToSchedule => exact iff_of_false (by decide) List.not_mem_nil

end ScriptError

theorem Diagnostic.newline_not_mem_message {d : Diagnostic} (h : '\n' ∉ d.error.quoted) :
    '\n' ∉ d.message.toList := by
  rw [← ScriptError.newline_mem_message] at h
  rw [message]
  cases d.line with
  | none => exact h
  | some n =>
    have digits : '\n' ∉ numeral n := fun newline =>
      absurd (isDigit_of_mem_numeral newline) (by decide)
    simp only [String.toList_append, String.toList_ofList, List.mem_append, not_or]
    exact ⟨⟨⟨by decide, digits⟩, by decide⟩, h⟩

theorem Command.quoted_of_mem_faults {c : Command} {error : ScriptError} (h : error ∈ c.faults) :
    ∃ t ∈ c.tokens, error.quoted = t.toList := by
  have faulty {α : Type} {found : Option α} {fault : ScriptError}
      (h : error ∈ faultOf found fault) : error = fault := by
    rw [faultOf] at h
    split at h
    · exact List.mem_singleton.1 h
    · cases h
  cases c with
  | setTempo t => cases h
  | chord root quality duration =>
    simp only [faults, List.mem_append] at h
    obtain (h | h) | h := h <;> cases faulty h
    · exact ⟨quality, by simp [tokens], rfl⟩
    · exact ⟨root, by simp [tokens], rfl⟩
    · exact ⟨duration, by simp [tokens], rfl⟩
  | note pitch duration =>
    simp only [faults, List.mem_append] at h
    obtain h | h := h <;> cases faulty h
    · exact ⟨duration, by simp [tokens], rfl⟩
    · exact ⟨pitch, by simp [tokens], rfl⟩
  | rest duration =>
    cases faulty h
    exact ⟨duration, by simp [tokens], rfl⟩

section

variable {τ : Type} {line : List Char} (newline : '\n' ∉ line)

include newline

theorem Line.newline_not_mem_quoted {error : ScriptError} (h : Line.read line = .error error) :
    '\n' ∉ error.quoted := by
  have tight : '\n' ∉ trim line := fun mem => newline (mem_of_mem_trim mem)
  have holds := Line.holds_read line
  rw [h] at holds
  cases holds with
  | noTempo | malformed => simpa [ScriptError.quoted] using tight
  | badTempo =>
    have inner : '\n' ∉ argument (trim line) := fun mem =>
      tight (List.mem_of_mem_drop (mem_of_mem_trim mem))
    simpa [ScriptError.quoted] using inner

theorem Walk.newline_not_mem_quoted [Seconds τ] (w : Walk τ) {n : Nat} {error : ScriptError}
    (h : (w.entry (n, Line.read line)).error = some error) : '\n' ∉ error.quoted := by
  cases read : Line.read line with
  | error e =>
    rw [read] at h
    cases h
    exact Line.newline_not_mem_quoted newline read
  | ok c =>
    cases c with
    | none =>
      rw [read] at h
      cases h
    | some c =>
      rw [read] at h
      have dropped : w.outcome c = .dropped error := by
        change (w.outcome c).error? = some error at h
        cases outcome : w.outcome c <;> rw [outcome] at h <;> cases h
        rfl
      have faulty := List.mem_of_head? ((outcome_eq_dropped_iff w c error).1 dropped)
      obtain ⟨t, token, quoted⟩ := Command.quoted_of_mem_faults faulty
      have word := (Line.wellSpelled_of_read read).isWord t token
      rw [quoted]
      exact fun mem => absurd (word.isBlank _ mem) (by decide)

end

variable {τ : Type} [Seconds τ]

theorem Walk.exists_of_mem_ledger {d : Discipline} {w : Walk τ} {xs : List (Nat × Line.Reading)}
    {e : LineEntry τ} (h : e ∈ ledger d w xs) : ∃ v : Walk τ, ∃ x ∈ xs, e = v.entry x := by
  induction xs generalizing w with
  | nil => cases h
  | cons x xs ih =>
    rcases List.mem_cons.1 h with rfl | later
    · exact ⟨w, x, List.mem_cons_self, rfl⟩
    · obtain ⟨v, y, mem, same⟩ := ih later
      exact ⟨v, y, List.mem_cons_of_mem _ mem, same⟩

theorem Program.exists_of_mem_readLines {text : String} {x : Nat × Line.Reading}
    (h : x ∈ readLines text) : ∃ line n, '\n' ∉ line ∧ x = (n, Line.read line) := by
  obtain ⟨⟨line, n⟩, mem, rfl⟩ := List.mem_map.1 h
  exact ⟨line, n, newline_not_mem_of_mem_lines (List.fst_mem_of_mem_zipIdx mem), rfl⟩

theorem increasing_compile (text : String) (context : Context) :
    Diagnostic.Increasing (Run.diagnostics (compile text context : Run τ)) := by
  rw [compile_eq_ledger]
  cases Discipline.choose context.discipline (Program.read text).commands with
  | none =>
    exact Diagnostic.increasing_filterMap Program.line_of_diagnostic?
      (Program.pairwise_readLines text)
  | some d =>
    rw [Option.elim_some, Run.diagnostics_ofSchedule]
    exact Diagnostic.increasing_filterMap LineEntry.line_of_diagnostic?
      (by rw [Walk.map_line_ledger]; exact Program.pairwise_readLines text)

theorem newline_not_mem_compile (text : String) (context : Context) :
    ∀ d ∈ Run.diagnostics (compile text context : Run τ), '\n' ∉ d.message.toList := by
  intro x mem
  apply Diagnostic.newline_not_mem_message
  rw [compile_eq_ledger] at mem
  cases chosen : Discipline.choose context.discipline (Program.read text).commands with
  | none =>
    rw [chosen] at mem
    obtain ⟨y, hy, found⟩ := List.mem_filterMap.1 mem
    obtain ⟨line, n, newline, rfl⟩ := Program.exists_of_mem_readLines hy
    cases read : Line.read line with
    | ok c =>
      rw [read] at found
      cases found
    | error e =>
      rw [read] at found
      cases found
      exact Line.newline_not_mem_quoted newline read
  | some d =>
    rw [chosen, Option.elim_some, Run.diagnostics_ofSchedule] at mem
    obtain ⟨e, he, found⟩ := List.mem_filterMap.1 mem
    obtain ⟨v, y, hy, rfl⟩ := Walk.exists_of_mem_ledger he
    obtain ⟨line, n, newline, rfl⟩ := Program.exists_of_mem_readLines hy
    obtain ⟨error, failed, rfl⟩ := Option.map_eq_some_iff.1 found
    exact v.newline_not_mem_quoted newline failed

end ChordScript
