import ChordScript.Proofs.Compile.Insertion
import ChordScript.Proofs.Program.Unrecognised
import ChordScript.Proofs.Schedule.ClosedForm

namespace ChordScript

variable {τ : Type} {line text text' : String} {n : Nat}

def Run.Recovers (r : Run τ) (s : Schedule τ) : Prop :=
  ∃ s' : Schedule τ, r = .ok s' ∧ s'.discipline = s.discipline ∧ s'.events = s.events ∧
    s'.finalCursor = s.finalCursor

/-- The line is taken for a note that does not fit the discipline or has a length. -/
def Line.Misleads (d : Discipline) (line : List Char) : Prop :=
  ∃ word duration, TakenForNote line word duration ∧
    (d = .measureAligned ∨ (NoteValue.read? duration).isSome)

theorem Run.recovers_mapDiagnostics (f : List Diagnostic → List Diagnostic) (s : Schedule τ) :
    Recovers (mapDiagnostics f (.ok s)) s :=
  ⟨_, rfl, rfl, rfl, rfl⟩

theorem Discipline.choose_insert_note (asked : Option Discipline) (before after : List Command)
    (pitch duration : String) :
    choose asked (before ++ .note pitch duration :: after) =
      if choose asked (before ++ after) = some .sequential then some .sequential else none := by
  have chord : (Command.note pitch duration).isChord = false := rfl
  have note : (Command.note pitch duration).isNote = true := rfl
  simp only [choose, List.any_append, List.any_cons, chord, note, Bool.false_or, Bool.true_or,
    Bool.or_true]
  generalize (before.any (·.isChord) || after.any (·.isChord)) = chords
  generalize (before.any (·.isNote) || after.any (·.isNote)) = notes
  cases chords <;> cases notes <;> cases asked with
  | none => simp
  | some d => cases d <;> simp

theorem Line.idle_note [Seconds τ] (word : String) {duration : String}
    (unreadable : NoteValue.read? duration = none) :
    Idle τ .sequential (.ok (some (.note word duration))) (some (.duration duration)) where
  pass w := by
    simp [Walk.pass, Walk.next, Discipline.advance, Command.writtenSeconds?, Command.duration?,
      unreadable]
  entry w n := by
    simp [Walk.entry, Walk.outcome, Command.events, Command.readNoteValue, unreadable, bind,
      Except.bind, Outcome.events, Outcome.error?]

theorem Walk.offset_passAll {d : Discipline} (w : Walk Rat) (xs : List (Nat × Line.Reading)) :
    (w.passAll d xs).cursor.offset = w.cursor.offset +
      ((Program.timed w.tempo (xs.filterMap Program.statement?)).map (·.step d)).sum := by
  rw [passAll_eq_finish, offset_finish]

section

variable (inserted : Text.Inserted line text n text') (newline : '\n' ∉ line.toList)
  {word duration : String} (read : Line.read line.toList = .ok (some (.note word duration)))

include inserted newline read

theorem choose_inserted_note (asked : Option Discipline) :
    Discipline.choose asked (Program.read text').commands =
      if Discipline.choose asked (Program.read text).commands = some .sequential then
        some .sequential else none := by
  obtain ⟨early, late, before, after⟩ := Program.commands_inserted inserted newline
  have note : (Line.read line.toList).toOption.join.toList = [.note word duration] := by
    rw [read]
    rfl
  rw [before, after, note, List.append_assoc, List.singleton_append]
  exact Discipline.choose_insert_note asked early late word duration

theorem Walk.offset_lt_of_inserted {v : NoteValue} (length : NoteValue.read? duration = some v)
    (w : Walk Rat) : (w.passAll .sequential (Program.readLines text)).cursor.offset <
      (w.passAll .sequential (Program.readLines text')).cursor.offset := by
  obtain ⟨early, late, -, before, after, -, -⟩ := Program.readLines_inserted inserted newline
  let here := w.passAll .sequential early
  let there : Walk Rat := ⟨here.tempo, here.cursor.advance (v.seconds here.tempo)⟩
  have step : here.pass .sequential (.ok (some (.note word duration))) = there := by
    simp [pass, next, Discipline.advance, Command.writtenSeconds?, Command.duration?, length, there]
  have without : w.passAll .sequential (Program.readLines text) =
      here.passAll .sequential late := by
    rw [before, passAll_append]
  have within : w.passAll .sequential (Program.readLines text') =
      there.passAll .sequential late := by
    rw [after, passAll_append, read, ← step]
    exact passAll_map _ (· + 1) late
  have positive : (0 : Rat) < v.seconds here.tempo :=
    NoteValue.seconds_pos (NoteValue.isPositive_of_read? length) here.tempo
  have moved : there.cursor.offset = here.cursor.offset + v.seconds here.tempo :=
    Cursor.offset_advance positive
  -- How far the later lines move the cursor depends on the tempo, but not on where it is.
  rw [without, within, offset_passAll here, offset_passAll there, moved]
  exact add_lt_add_left (lt_add_of_pos_right _ positive) _

end

section

variable (inserted : Text.Inserted line text n text') (newline : '\n' ∉ line.toList)
  (unrecognised : Line.Unrecognised line.toList) {context : Context}

include inserted newline unrecognised

theorem recovers_of_not_misleads [Seconds τ] {s : Schedule τ}
    (compiled : compile text context = .ok s)
    (fits : ¬ Line.Misleads s.discipline line.toList) :
    Run.Recovers (compile text' context) s := by
  by_cases silent : ∀ c, Line.read line.toList ≠ .ok (some c)
  · rw [compile_inserted inserted newline context silent, compiled]
    exact Run.recovers_mapDiagnostics _ s
  · -- The line is taken for a note, which leaves no trace because it is dropped in a sequence.
    obtain ⟨c, read⟩ := not_forall_not.1 silent
    obtain ⟨word, duration, taken, rfl⟩ := unrecognised.takenForNote read
    have sequential : s.discipline = .sequential := by
      cases discipline : s.discipline with
      | sequential => rfl
      | measureAligned => exact absurd ⟨word, duration, taken, .inl discipline⟩ fits
    have unreadable : NoteValue.read? duration = none := by
      rw [← Option.not_isSome_iff_eq_none]
      exact fun readable => fits ⟨word, duration, taken, .inr readable⟩
    have idle : Line.Idle τ .sequential (Line.read line.toList) (some (.duration duration)) :=
      read ▸ Line.idle_note word unreadable
    obtain ⟨chosen, -⟩ := compile_eq_ok_ledger compiled
    rw [sequential] at chosen
    have without : compile text context = Run.ofSchedule
        (Walk.schedule .sequential (.start context.tempo : Walk τ) (Program.readLines text)) := by
      rw [compile_eq_ledger, chosen, Option.elim_some]
    rw [compile_eq_ledger, choose_inserted_note inserted newline read, chosen, if_pos rfl,
      Option.elim_some, Walk.ofSchedule_inserted inserted newline idle, ← without, compiled]
    exact Run.recovers_mapDiagnostics _ s

theorem ambiguous_of_misleads [Seconds τ] {s : Schedule τ}
    (compiled : compile text context = .ok s) (aligned : s.discipline = .measureAligned)
    (misleads : Line.Misleads s.discipline line.toList) :
    Run.error? (compile text' context : Run τ) = some .ambiguousScheduling := by
  obtain ⟨word, duration, taken, -⟩ := misleads
  have read := taken.read_eq unrecognised
  obtain ⟨chosen, -⟩ := compile_eq_ok_ledger compiled
  rw [aligned] at chosen
  rw [compile_eq_ledger, choose_inserted_note inserted newline read, chosen]
  rfl

theorem not_recovers_of_misleads {s : Schedule Rat} (compiled : compile text context = .ok s)
    (misleads : Line.Misleads s.discipline line.toList) :
    ¬ Run.Recovers (compile text' context) s := by
  rintro ⟨s', compiled', same, -, finish⟩
  cases discipline : s.discipline with
  | measureAligned =>
    have rejected :=
      ambiguous_of_misleads inserted newline unrecognised compiled discipline misleads
    rw [compiled'] at rejected
    cases rejected
  | sequential =>
    obtain ⟨word, duration, taken, aligned | readable⟩ := misleads
    · rw [discipline] at aligned
      cases aligned
    · obtain ⟨v, length⟩ := Option.isSome_iff_exists.1 readable
      have later := Walk.offset_lt_of_inserted inserted newline (taken.read_eq unrecognised) length
        (.start context.tempo)
      have here := (compile_eq_ok_ledger compiled).2
      have there := (compile_eq_ok_ledger compiled').2
      rw [same, discipline] at there
      rw [discipline] at here
      rw [here, there] at finish
      exact absurd finish later.ne'

/-- A line that is not recognised is recovered from unless it misleads; among chords and rests in
measures a misleading one ends the whole run. -/
theorem recovers_iff_not_misleads (context : Context) :
    (∀ {τ : Type} [Seconds τ] {s : Schedule τ}, compile text context = .ok s →
      (¬ Line.Misleads s.discipline line.toList → Run.Recovers (compile text' context) s) ∧
      (s.discipline = .measureAligned → Line.Misleads s.discipline line.toList →
        Run.error? (compile text' context : Run τ) = some .ambiguousScheduling)) ∧
    ∀ {s : Schedule Rat}, compile text context = .ok s →
      (Run.Recovers (compile text' context) s ↔ ¬ Line.Misleads s.discipline line.toList) :=
  ⟨fun compiled => ⟨recovers_of_not_misleads inserted newline unrecognised compiled,
      ambiguous_of_misleads inserted newline unrecognised compiled⟩,
    fun compiled => ⟨fun recovers misleads =>
      not_recovers_of_misleads inserted newline unrecognised compiled misleads recovers,
      recovers_of_not_misleads inserted newline unrecognised compiled⟩⟩

end

namespace Recovery

def first : String := "chord A2 minor 1m"

def second : String := "chord F2 major 1m"

def song : Schedule Rat :=
  (Program.read (first ++ "\n" ++ second)).place .standard .measureAligned

theorem recovers_iff_not_misleads_strum :
    Text.Inserted "strum A2" (first ++ "\n" ++ second) 1
        (first ++ "\n" ++ "strum A2" ++ "\n" ++ second) ∧
      '\n' ∉ "strum A2".toList ∧ Line.Unrecognised "strum A2".toList ∧
      compile (first ++ "\n" ++ second) {} = .ok song ∧
      Run.Recovers (compile (first ++ "\n" ++ "strum A2" ++ "\n" ++ second) {}) song := by
  have inserted : Text.Inserted "strum A2" (first ++ "\n" ++ second) 1
      (first ++ "\n" ++ "strum A2" ++ "\n" ++ second) := .between first second
  have newline : '\n' ∉ "strum A2".toList := by decide
  have unrecognised : Line.Unrecognised "strum A2".toList := by decide +kernel
  have compiled : compile (first ++ "\n" ++ second) {} = .ok song := by decide +kernel
  have fits : ¬ Line.Misleads song.discipline "strum A2".toList := by
    rintro ⟨word, duration, ⟨words, letter, -⟩, -⟩
    have split : (Text.words "strum A2".toList).map .ofList = ["strum", "A2"] := by decide +kernel
    obtain ⟨rfl, -⟩ := List.cons.inj (split.symm.trans words)
    exact absurd letter (by decide)
  exact ⟨inserted, newline, unrecognised, compiled,
    ((recovers_iff_not_misleads inserted newline unrecognised {}).2 compiled).2 fits⟩

theorem not_forall_recovers :
    ¬ ∀ (line text text' : String) (n : Nat) (context : Context) (s : Schedule Rat),
      Text.Inserted line text n text' → '\n' ∉ line.toList → Line.Unrecognised line.toList →
      compile text context = .ok s → Run.Recovers (compile text' context) s := by
  intro recovery
  obtain ⟨s', compiled, -⟩ := recovery "Am 1m" _ _ _ {} song (.between first second) (by decide)
    (by decide +kernel) (by decide +kernel)
  have rejected : Run.error? (compile (first ++ "\n" ++ "Am 1m" ++ "\n" ++ second) {} : Run Rat) =
      some .ambiguousScheduling := by decide +kernel
  rw [compiled] at rejected
  cases rejected

end Recovery

end ChordScript
