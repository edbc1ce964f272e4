import ChordScript.Compile

namespace ChordScript

theorem Except.exists_of_bind {α β ε : Type} {x : Except ε α} {f : α → Except ε β} {b : β}
    (h : (x >>= f) = .ok b) : ∃ a, x = .ok a ∧ f a = .ok b := by
  cases x with
  | error e => cases h
  | ok a => exact ⟨a, rfl, h⟩

theorem Except.elim_eq_ok_iff {α ε : Type} {found : Option α} {e : ε} {a : α} :
    found.elim (.error e) .ok = Except.ok a ↔ found = some a := by
  cases found <;> simp

theorem Except.elim_eq_error_iff {α ε : Type} {found : Option α} {e e' : ε} :
    found.elim (.error e) Except.ok = .error e' ↔ found = none ∧ e' = e := by
  cases found <;> simp [eq_comm]

namespace Command

inductive Kind
  | tempo
  | chord
  | note
  | rest
  deriving DecidableEq, Repr

def kind : Command → Kind
  | .setTempo _ => .tempo
  | .chord .. => .chord
  | .note .. => .note
  | .rest _ => .rest

theorem isChord_eq (c : Command) : c.isChord = decide (c.kind = .chord) := by
  cases c <;> rfl

theorem isNote_eq (c : Command) : c.isNote = decide (c.kind = .note) := by
  cases c <;> rfl

end Command

namespace Discipline

variable {asked : Option Discipline} {commands : List Command}

theorem choose_eq_sequential :
    choose asked commands = some .sequential ↔
      asked ≠ some .measureAligned ∧ commands.any (·.isChord) = false := by
  unfold choose
  cases commands.any (·.isChord) <;> cases commands.any (·.isNote) <;> cases asked with
  | none => simp
  | some d => cases d <;> simp

theorem choose_eq_measureAligned :
    choose asked commands = some .measureAligned ↔
      commands.any (·.isNote) = false ∧
        (asked = some .measureAligned ∨ asked = none ∧ commands.any (·.isChord) = true) := by
  unfold choose
  cases commands.any (·.isChord) <;> cases commands.any (·.isNote) <;> cases asked with
  | none => simp
  | some d => cases d <;> simp

theorem choose_congr {a b : List Command} (h : a.map (·.kind) = b.map (·.kind)) :
    choose asked a = choose asked b := by
  have any (k : Command.Kind) (commands : List Command) :
      (commands.any fun c => c.kind = k) = (commands.map (·.kind)).any (· = k) := by
    rw [List.any_map]
    rfl
  simp only [choose, Command.isChord_eq, Command.isNote_eq, any, h]

end Discipline

variable {τ : Type} [Seconds τ]

theorem Command.mem_events {c : Command} {tempo : Tempo} {start : τ} {events : List (Event τ)}
    (h : c.events tempo start = .ok events) {e : Event τ} (he : e ∈ events) :
    e.start = start ∧
      (c.writtenSeconds? tempo = some e.duration ∨
        e.kind = .noteOn ∧ e.voice = .bass ∧
          e.duration = NoteValue.seconds (.division 1 false) tempo) := by
  have written {token : String} {v : NoteValue} (read : readNoteValue token = .ok v) :
      (NoteValue.read? token).map (·.seconds tempo) = some (v.seconds tempo : τ) := by
    rw [Except.elim_eq_ok_iff.1 read, Option.map_some]
  cases c with
  | setTempo t =>
    cases h
    cases he
  | chord root quality duration =>
    obtain ⟨q, -, h⟩ := Except.exists_of_bind h
    obtain ⟨r, -, h⟩ := Except.exists_of_bind h
    obtain ⟨v, read, h⟩ := Except.exists_of_bind h
    cases h
    rcases List.mem_cons.1 he with rfl | bass
    · exact ⟨rfl, .inl (written read)⟩
    · obtain ⟨pitch, -, rfl⟩ := Option.map_eq_some_iff.1 (Option.mem_toList.1 bass)
      exact ⟨rfl, .inr ⟨rfl, rfl, rfl⟩⟩
  | note pitch duration =>
    obtain ⟨v, read, h⟩ := Except.exists_of_bind h
    obtain ⟨p, -, h⟩ := Except.exists_of_bind h
    cases h
    obtain rfl := List.mem_singleton.1 he
    exact ⟨rfl, .inl (written read)⟩
  | rest duration =>
    obtain ⟨v, read, h⟩ := Except.exists_of_bind h
    cases h
    obtain rfl := List.mem_singleton.1 he
    exact ⟨rfl, .inl (written read)⟩

theorem Walk.events_of_mem_outcome {w : Walk τ} {c : Command} {e : Event τ}
    (he : e ∈ (w.outcome c).events) :
    ∃ events, c.events w.tempo w.cursor.offset = .ok events ∧ e ∈ events := by
  unfold outcome at he
  split at he
  · cases he
  · split at he
    · exact ⟨_, ‹_›, he⟩
    · cases he

theorem Walk.finish_cons (d : Discipline) (w : Walk τ) (s : Statement) (rest : List Statement) :
    w.finish d (s :: rest) = (w.next d s.command).finish d rest := rfl

theorem Walk.finish_append (d : Discipline) (w : Walk τ) (a b : List Statement) :
    w.finish d (a ++ b) = (w.finish d a).finish d b :=
  List.foldl_append

namespace Program

def walked (tempo : Tempo) (d : Discipline) (before : List Statement) : Walk τ :=
  .finish d (.start tempo) before

def eventsAfter (tempo : Tempo) (d : Discipline) (before : List Statement) (s : Statement) :
    List (Event τ) :=
  ((walked tempo d before).outcome s.command).events

theorem mem_place_of_mem_eventsAfter {p : Program} {tempo : Tempo} {d : Discipline}
    {before after : List Statement} {s : Statement} (split : p.statements = before ++ s :: after)
    {e : Event τ} (he : e ∈ eventsAfter tempo d before s) :
    e ∈ (p.place tempo d : Schedule τ).events := by
  rw [place, split, Walk.outcomes_append, Walk.outcomes]
  simp only [List.flatMap_append, List.flatMap_cons, List.mem_append]
  exact .inr (.inl he)

theorem start_of_mem_eventsAfter {tempo : Tempo} {d : Discipline} {before : List Statement}
    {s : Statement} {e : Event τ} (he : e ∈ eventsAfter tempo d before s) :
    e.start = (walked tempo d before).cursor.offset := by
  obtain ⟨events, resolved, he⟩ := Walk.events_of_mem_outcome he
  exact (Command.mem_events resolved he).1

theorem schedule_eq_ok {p : Program} {context : Context} {s : Schedule τ} :
    p.schedule context = .ok s ↔
      ∃ d, Discipline.choose context.discipline p.commands = some d ∧
        p.place context.tempo d = s ∧ s.events ≠ [] := by
  rw [schedule]
  cases Discipline.choose context.discipline p.commands with
  | none => simp
  | some d =>
    simp only [Option.some.injEq, exists_eq_left']
    cases h : (p.place context.tempo d : Schedule τ).events with
    | nil =>
      simp only [List.isEmpty_nil, ↓reduceIte, reduceCtorEq, false_iff, not_and]
      rintro rfl nonempty
      exact nonempty h
    | cons e rest =>
      simp only [List.isEmpty_cons, Bool.false_eq_true, ↓reduceIte, Except.ok.injEq, iff_self_and]
      rintro rfl
      simp [h]

end Program

theorem compile_eq_ok {text : String} {context : Context} {s : Schedule τ} :
    compile text context = .ok s ↔
      ∃ placed : Schedule τ, (Program.read text).schedule context = .ok placed ∧
        { placed with
          diagnostics :=
            Diagnostic.merge (Program.readDiagnostics text) placed.diagnostics } = s := by
  rw [compile]
  cases (Program.read text).schedule (τ := τ) context with
  | error r => simp
  | ok placed => simp

end ChordScript
