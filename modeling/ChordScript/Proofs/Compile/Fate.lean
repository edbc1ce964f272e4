import ChordScript.Proofs.Compile.Ledger
import ChordScript.Proofs.Schedule.ClosedForm

namespace ChordScript

variable {τ : Type} [Seconds τ] {d : Discipline}

def Command.eventCount : Command → Nat
  | .setTempo _ => 0
  | .chord root quality _ => if (bassOf? root quality).isSome then 2 else 1
  | .note _ _ => 1
  | .rest _ => 1

/-- What line `n` adds to the events and to the diagnostics of a run, by what it holds. -/
inductive Line.Fate (n : Nat) : Line.Reading → List (Event τ) → List Diagnostic → Prop
  | inert : Fate n (.ok none) [] []
  | unreadable (error : ScriptError) : Fate n (.error error) [] [⟨some n, error⟩]
  | setTempo (tempo : Tempo) : Fate n (.ok (some (.setTempo tempo))) [] []
  | dropped {c : Command} {error : ScriptError} (tempo : Tempo) (start : τ) :
    c.events tempo start = .error error → Fate n (.ok (some c)) [] [⟨some n, error⟩]
  | played {c : Command} {events : List (Event τ)} (tempo : Tempo) (start : τ) :
    c.events tempo start = .ok events → c.duration?.isSome → events.length = c.eventCount →
      Fate n (.ok (some c)) events []

structure Run.AccountsFor (text : String) (r : Run τ) : Prop where
  increasing : Diagnostic.Increasing (diagnostics r)
  numbered : ∀ x ∈ diagnostics r, ∃ n, x.line = some n ∧ 1 ≤ n ∧
    n ≤ (Text.lines text.toList).length
  fates : ∃ share : Nat → List (Event τ),
    events r = (List.range' 1 (Text.lines text.toList).length).flatMap share ∧
      ∀ line n, (line, n) ∈ (Text.lines text.toList).zipIdx 1 →
        Line.Fate n (Line.read line) (share n) ((diagnostics r).filter (·.line = some n))

namespace Command

theorem length_events {c : Command} {tempo : Tempo} {start : τ} {es : List (Event τ)}
    (h : c.events tempo start = .ok es) : es.length = c.eventCount := by
  cases c with
  | setTempo t =>
    cases h
    rfl
  | chord root quality duration =>
    obtain ⟨q, hq, h⟩ := Except.exists_of_bind h
    obtain ⟨r, hr, h⟩ := Except.exists_of_bind h
    obtain ⟨v, -, h⟩ := Except.exists_of_bind h
    cases h
    have bass : (Chord.mk r q).bass? = bassOf? root quality := by
      rw [Chord.bass?_eq, bassOf?, Except.elim_eq_ok_iff.1 hr, Except.elim_eq_ok_iff.1 hq]
      rfl
    rw [chordEvents, bass, eventCount]
    cases bassOf? root quality <;> rfl
  | note pitch duration =>
    obtain ⟨v, -, h⟩ := Except.exists_of_bind h
    obtain ⟨p, -, h⟩ := Except.exists_of_bind h
    cases h
    rfl
  | rest duration =>
    obtain ⟨v, -, h⟩ := Except.exists_of_bind h
    cases h
    rfl

end Command

theorem Walk.fate_entry (w : Walk τ) (n : Nat) (r : Line.Reading) :
    Line.Fate n r (w.entry (n, r)).events (w.entry (n, r)).diagnostic?.toList := by
  obtain error | _ | c := r
  · exact .unreadable error
  · exact .inert
  · cases c with
    | setTempo t => exact .setTempo t
    -- The other commands are played or dropped by what they resolve to here and now.
    | chord | note | rest =>
      simp only [entry, outcome]
      split
      · exact .played w.tempo w.cursor.offset ‹_› rfl (Command.length_events ‹_›)
      · exact .dropped w.tempo w.cursor.offset ‹_›

theorem Walk.exists_entry_mem {w : Walk τ} {xs : List (Nat × Line.Reading)}
    {x : Nat × Line.Reading} (h : x ∈ xs) : ∃ v : Walk τ, v.entry x ∈ ledger d w xs := by
  induction xs generalizing w with
  | nil => cases h
  | cons y ys ih =>
    rcases List.mem_cons.1 h with rfl | later
    · exact ⟨w, List.mem_cons_self⟩
    · obtain ⟨v, mem⟩ := ih (w := w.pass d y.2) later
      exact ⟨v, List.mem_cons_of_mem _ mem⟩

theorem Walk.accountsFor (text : String) (w : Walk τ) :
    Run.AccountsFor text (.ofSchedule (w.schedule d (Program.readLines text))) := by
  let entries := ledger d w (Program.readLines text)
  have numbers : entries.map (·.line) = List.range' 1 (Text.lines text.toList).length :=
    (map_line_ledger w _).trans (Program.map_fst_readFrom 1 _)
  have increasing : (entries.map (·.line)).Pairwise (· < ·) := by
    rw [numbers]
    exact List.pairwise_lt_range'
  refine ⟨?_, ?_, LineEntry.share entries, ?_, ?_⟩
  · rw [Run.diagnostics_ofSchedule]
    exact Diagnostic.increasing_filterMap LineEntry.line_of_diagnostic? increasing
  · intro x mem
    rw [Run.diagnostics_ofSchedule] at mem
    obtain ⟨n, line, lower, upper⟩ :=
      Diagnostic.exists_line_of_mem_filterMap LineEntry.line_of_diagnostic? numbers mem
    exact ⟨n, line, lower, by omega⟩
  · rw [Run.events_ofSchedule, ← numbers, LineEntry.flatMap_share increasing]
    rfl
  · intro line n mem
    have reading : (n, Line.read line) ∈ Program.readLines text :=
      List.mem_map.2 ⟨(line, n), mem, rfl⟩
    obtain ⟨v, entered⟩ := exists_entry_mem (d := d) (w := w) reading
    have number : (v.entry (n, Line.read line)).line = n := line_entry v _
    have events := LineEntry.share_line increasing entered
    have diagnostics := LineEntry.filter_diagnostics increasing entered
    rw [number] at events diagnostics
    rw [Run.diagnostics_ofSchedule, Walk.schedule, events]
    exact diagnostics ▸ v.fate_entry n (Line.read line)

/-- A run that gets past the choice of a discipline accounts for every line of the text. -/
theorem compile_accountsFor (text : String) (context : Context) :
    (Run.error? (compile text context : Run τ) = some .ambiguousScheduling →
      Run.diagnostics (compile text context : Run τ) = Program.readDiagnostics text) ∧
    (Run.error? (compile text context : Run τ) ≠ some .ambiguousScheduling →
      Run.AccountsFor text (compile text context : Run τ)) := by
  rw [compile_eq_ledger]
  cases Discipline.choose context.discipline (Program.read text).commands with
  | none => exact ⟨fun _ => rfl, fun chosen => absurd rfl chosen⟩
  | some d =>
    refine ⟨fun ambiguous => ?_, fun _ => Walk.accountsFor text (.start context.tempo)⟩
    rw [Option.elim_some, Run.ofSchedule] at ambiguous
    split at ambiguous <;> cases ambiguous

namespace Fate

def badLines : String :=
  "setTempo(120)\n// verse\nchord A2 minor 1m\nchord E2 minor\nchord F2 sus2 1m\nchord G2 major 1m"

def mixed : String := "bogus\nplay C4 1/4\nchord A2 minor 1m"

theorem compile_accountsFor_badLines :
    (Run.error? (compile badLines {} : Run Rat) ≠ some .ambiguousScheduling ∧
      Run.AccountsFor badLines (compile badLines {} : Run Rat)) ∧
    Run.error? (compile mixed {} : Run Rat) = some .ambiguousScheduling ∧
      Run.diagnostics (compile mixed {} : Run Rat) = [⟨some 1, .malformedLine "bogus"⟩] := by
  have chosen : Run.error? (compile badLines {} : Run Rat) ≠ some .ambiguousScheduling := by
    decide +kernel
  have ambiguous : Run.error? (compile mixed {} : Run Rat) = some .ambiguousScheduling := by
    decide +kernel
  refine ⟨⟨chosen, (compile_accountsFor badLines {}).2 chosen⟩, ambiguous, ?_⟩
  rw [(compile_accountsFor mixed {}).1 ambiguous]
  decide +kernel

end Fate

end ChordScript
