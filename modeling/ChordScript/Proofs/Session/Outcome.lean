import ChordScript.Proofs.Session.Sources
import ChordScript.Proofs.Session.Stages

namespace ChordScript.Session

open Journal

variable {o : Options} {w : Surroundings} {settings : Settings}

theorem runAll_of_unread (h : Unread o w) :
    ∃ p : Parts, ∃ message, runAll o w = ⟨p.outputs, .failed⟩ ∧
      (∀ t, t ≠ .failure → p.on t = []) ∧ p.on .failure = [.entry (errorEntry message)] := by
  obtain ⟨e, failed⟩ : ∃ e, runAll o w = ofError [] e := by
    rw [runAll]
    cases loaded : loadSettings w o.settings with
    | error e => exact ⟨e, rfl⟩
    | ok settings =>
      cases read : w.text o.source with
      | error e => exact ⟨.source e, rfl⟩
      | ok text =>
        rw [Surroundings.loadSettings_eq_ok_iff] at loaded
        rw [Surroundings.text_eq_ok_iff] at read
        rcases h with absent | absent
        · exact absurd loaded (absent settings)
        · exact absurd text.isValidUTF8 (absent _ read)
  refine ⟨.ofEntries [] [] [] [] [] (some e.message) (List.forall_mem_nil _)
    (List.forall_mem_nil _) (List.forall_mem_nil _), e.message, failed, ?_, rfl⟩
  intro t other
  cases t <;> first | rfl | contradiction

theorem runAll_of_rejected {r : Rejected} (h : Compiles o w settings (.error r)) :
    ∃ p : Parts, runAll o w = ⟨p.outputs, .rejected⟩ ∧
      p.on .warning = entries (r.diagnostics.map warning) ∧ p.on .dump = [] ∧
      p.on .listing = [] ∧ p.on .playing = [] ∧ p.on .failure = [.entry (errorEntry r.message)] := by
  obtain ⟨configures, text, holds, rejected⟩ := h
  refine ⟨.ofEntries (compileJournal text settings.context) r.diagnostics [] [] []
    (some r.message) (stage_compileJournal _ _) (List.forall_mem_nil _) (List.forall_mem_nil _),
    ?_, rfl, rfl, rfl, rfl, rfl⟩
  rw [runAll_eq configures holds, runText, rejected]
  simp [Parts.outputs, Parts.ofEntries, Stage.all, entries]

inductive Ended
  | done
  | failed (message : String)
  | crashed

namespace Ended

def status : Ended → Status
  | done => .done
  | failed _ => .failed
  | crashed => .crashed

def message? : Ended → Option String
  | failed message => some message
  | done | crashed => none

end Ended

structure Ended.Due (e : Ended) (o : Options) (w : Surroundings) (settings : Settings)
    (s : Schedule Float) : Prop where
  failed : (∃ message, e = .failed message) ↔ o.play = true ∧ w.Thwarts settings s
  crashed : e = .crashed ↔ o.play = true ∧ w.Crashes settings s

theorem play_eq (plays : o.play = true) (w : Surroundings) (settings : Settings)
    (s : Schedule Float) :
    ∃ (journal : List Entry) (e : Ended), (∀ x ∈ journal, x.stage = .playing) ∧
      e.Due o w settings s ∧
      play w settings s = ⟨entries (journal ++ e.message?.toList.map errorEntry), e.status⟩ := by
  have opening := stage_opening w.ports settings.midi.port
  cases opened : w.ports.open settings.midi.port with
  | error e =>
    refine ⟨_, .failed e.message, opening, ⟨?_, ?_⟩, ?_⟩
    · simp [Surroundings.Thwarts, opened, plays]
    · simp [Surroundings.Crashes, opened]
    · simp only [play, opened]
      rfl
  | ok endpoint =>
    have journal := List.forall_mem_append.2 ⟨List.forall_mem_append.2
      ⟨opening, stage_playJournal (w.player settings) s⟩,
      stage_closeJournal ((w.player settings).play s).player⟩
    have thwarts := Surroundings.thwarts_iff (s := s) opened
    have crashes := Surroundings.crashes_iff (s := s) opened
    have player : Midi.Player.ofLine settings.midi.voicing { fails := w.sendFails }
        settings.playback.startDelay w.clock = w.player settings := rfl
    cases ending : ((w.player settings).play s).ending with
    | completed =>
      refine ⟨_, .done, journal, ⟨?_, ?_⟩, ?_⟩
      · simp [thwarts, ending]
      · simp [crashes, ending]
      · simp [play, opened, player, ending, Ended.message?, Ended.status]
    | failed e =>
      refine ⟨_, .failed e.message, journal, ⟨?_, ?_⟩, ?_⟩
      · simp [thwarts, ending, plays]
      · simp [crashes, ending]
      · simp only [play, opened, player, ending]
        rfl
    | crashed =>
      refine ⟨_, .crashed, journal, ⟨?_, ?_⟩, ?_⟩
      · simp [thwarts, ending]
      · simp [crashes, ending, plays]
      · simp [play, opened, player, ending, Ended.message?, Ended.status]

theorem perform_eq (o : Options) (w : Surroundings) (settings : Settings) (s : Schedule Float) :
    ∃ (listing playing : List Entry) (e : Ended),
      (∀ x ∈ listing, x.stage = .listing) ∧ (∀ x ∈ playing, x.stage = .playing) ∧
        e.Due o w settings s ∧ listing = (if o.dump || o.play then [] else s.listing) ∧
        perform o w settings s =
          ⟨(if o.dump then [.text s.dump] else []) ++
              entries (listing ++ playing ++ e.message?.toList.map errorEntry), e.status⟩ := by
  cases plays : o.play with
  | true =>
    obtain ⟨playing, e, stage, due, played⟩ := play_eq plays w settings s
    exact ⟨[], playing, e, List.forall_mem_nil _, stage, due, by simp,
      by simp [perform, plays, played]⟩
  | false =>
    have due : Ended.done.Due o w settings s := ⟨by simp [plays], by simp [plays]⟩
    cases dumps : o.dump with
    | true =>
      exact ⟨[], [], .done, List.forall_mem_nil _, List.forall_mem_nil _, due, by simp,
        by simp [perform, plays, dumps, entries, Ended.message?, Ended.status]⟩
    | false =>
      exact ⟨s.listing, [], .done, stage_listing s, List.forall_mem_nil _, due, by simp,
        by simp [perform, plays, dumps, Ended.message?, Ended.status]⟩

theorem runAll_of_compiled {s : Schedule Float} (h : Compiles o w settings (.ok s)) :
    ∃ (p : Parts) (e : Ended), runAll o w = ⟨p.outputs, e.status⟩ ∧ e.Due o w settings s ∧
      p.on .warning = entries (s.diagnostics.map warning) ∧
      p.on .dump = (if o.dump then [.text s.dump] else []) ∧
      p.on .listing = entries (if o.dump || o.play then [] else s.listing) ∧
      p.on .failure = entries (e.message?.toList.map errorEntry) := by
  obtain ⟨configures, text, holds, compiled⟩ := h
  obtain ⟨listing, playing, e, listed, played, due, rfl, performed⟩ := perform_eq o w settings s
  have dumped : (if o.dump then [s.dump] else []).map Output.text =
      if o.dump then [.text s.dump] else [] := by
    split <;> rfl
  refine ⟨.ofEntries (compileJournal text settings.context) s.diagnostics
    (if o.dump then [s.dump] else []) _ playing e.message? (stage_compileJournal _ _) listed played,
    e, ?_, due, rfl, dumped, rfl, rfl⟩
  rw [runAll_eq configures holds, runText, compiled]
  simp [performed, Parts.outputs, Parts.ofEntries, Stage.all, entries, dumped]

/-- How a session of the given options ends, and what it writes in each stage. -/
structure Answers (o : Options) (w : Surroundings) (x : Session) : Prop where
  failed : x.status.code = 2 ↔ Unread o w ∨
    ∃ settings s, Compiles o w settings (.ok s) ∧ o.play = true ∧ w.Thwarts settings s
  rejected : x.status.code = 1 ↔ ∃ settings r, Compiles o w settings (.error r)
  crashed : x.status.code = 101 ↔
    ∃ settings s, Compiles o w settings (.ok s) ∧ o.play = true ∧ w.Crashes settings s
  done : x.status.code = 0 ↔ ∃ settings s, Compiles o w settings (.ok s) ∧
    ¬ (o.play = true ∧ w.Thwarts settings s) ∧ ¬ (o.play = true ∧ w.Crashes settings s)
  erred : x.on .failure = [] ↔ x.status.code = 0 ∨ x.status.code = 101
  staged : x.outputs.Pairwise fun a b => a.stage.rank ≤ b.stage.rank
  warns : ∀ settings result, Compiles o w settings result →
    x.on .warning = entries ((Run.diagnostics result).map warning) ∧
      Diagnostic.Increasing (Run.diagnostics result) ∧
      ∀ d ∈ Run.diagnostics result, '\n' ∉ (warning d).line.toList
  dumps : x.on .dump ≠ [] ↔ o.dump = true ∧ ∃ settings s, Compiles o w settings (.ok s)
  dump : ∀ settings s, Compiles o w settings (.ok s) → o.dump = true → x.on .dump = [.text s.dump]
  lists : x.on .listing ≠ [] ↔
    (o.dump = false ∧ o.play = false) ∧ ∃ settings s, Compiles o w settings (.ok s)
  listing : ∀ settings s, Compiles o w settings (.ok s) → o.dump = false → o.play = false →
    x.on .listing = entries s.listing
  ends : ∀ settings r, Compiles o w settings (.error r) → x.on .dump = [] ∧ x.on .listing = [] ∧
    x.outputs.getLast? = some (.entry (errorEntry r.message))

theorem answers_of_unread (h : Unread o w) : Answers o w (run o w) := by
  obtain ⟨p, message, all, silent, last⟩ := runAll_of_unread h
  have never {settings : Settings} {result : Run Float} : ¬ Compiles o w settings result :=
    fun compiles => compiles.not_unread h
  have empty {t : Stage} (other : t ≠ .failure) : (run o w).on t = [] := by
    rw [on_run all (by simp [silent t other]), silent t other]
  have error : (run o w).on .failure = [.entry (errorEntry message)] :=
    on_run_entries all last (grave_errors [message])
  exact {
    failed := by simp [status_run all, Status.code, h]
    rejected := by simp [status_run all, Status.code, never]
    crashed := by simp [status_run all, Status.code, never]
    done := by simp [status_run all, Status.code, never]
    erred := by simp [status_run all, Status.code, error]
    staged := pairwise_run all
    warns := by simp [never]
    dumps := by simp [never, empty]
    dump := by simp [never]
    lists := by simp [never, empty]
    listing := by simp [never]
    ends := by simp [never] }

theorem answers_of_rejected {r : Rejected} (h : Compiles o w settings (.error r)) :
    Answers o w (run o w) := by
  obtain ⟨p, all, warns, dump, listing, playing, last⟩ := runAll_of_rejected h
  have error : (run o w).on .failure = [.entry (errorEntry r.message)] :=
    on_run_entries all last (grave_errors [r.message])
  have undumped : (run o w).on .dump = [] := by rw [on_run all (by simp [dump]), dump]
  have unlisted : (run o w).on .listing = [] := by rw [on_run all (by simp [listing]), listing]
  exact {
    failed := by simp [status_run all, Status.code, h.not_unread, h.iff]
    rejected := by simp [status_run all, Status.code, h.iff]
    crashed := by simp [status_run all, Status.code, h.iff]
    done := by simp [status_run all, Status.code, h.iff]
    erred := by simp [status_run all, Status.code, error]
    staged := pairwise_run all
    warns := by
      intro settings result h'
      obtain ⟨rfl, rfl⟩ := h.iff.1 h'
      exact ⟨on_run_entries all warns (grave_warnings _), h.reports⟩
    dumps := by simp [undumped, h.iff]
    dump := by simp [h.iff]
    lists := by simp [unlisted, h.iff]
    listing := by simp [h.iff]
    ends := by
      intro settings r' h'
      obtain ⟨-, same⟩ := h.iff.1 h'
      cases same
      exact ⟨undumped, unlisted, getLast?_run all last (Nat.zero_le 2)⟩ }

theorem answers_of_compiled {s : Schedule Float} (h : Compiles o w settings (.ok s)) :
    Answers o w (run o w) := by
  obtain ⟨p, e, all, due, warns, dump, listing, failing⟩ := runAll_of_compiled h
  have dumped : (run o w).on .dump = if o.dump then [.text s.dump] else [] := by
    rw [on_run all (by rw [dump]; split <;> simp), dump]
  have listed : (run o w).on .listing = entries (if o.dump || o.play then [] else s.listing) := by
    refine on_run_entries all listing ?_
    split
    · exact List.forall_mem_nil _
    · exact grave_listing s
  have error : (run o w).on .failure = entries (e.message?.toList.map errorEntry) :=
    on_run_entries all failing (grave_errors _)
  exact {
    failed := by
      rw [status_run all, or_iff_right h.not_unread]
      simp only [h.iff, and_assoc, exists_and_left, exists_eq_left, Except.ok.injEq, ← due.failed]
      cases e <;> simp [Ended.status, Status.code]
    rejected := by
      rw [status_run all]
      cases e <;> simp [Ended.status, Status.code, h.iff]
    crashed := by
      rw [status_run all]
      simp only [h.iff, and_assoc, exists_and_left, exists_eq_left, Except.ok.injEq, ← due.crashed]
      cases e <;> simp [Ended.status, Status.code]
    done := by
      rw [status_run all]
      simp only [h.iff, and_assoc, exists_and_left, exists_eq_left, Except.ok.injEq, ← due.failed,
        ← due.crashed]
      cases e <;> simp [Ended.status, Status.code]
    erred := by
      rw [error, status_run all]
      cases e <;> simp [Ended.status, Ended.message?, Status.code, entries]
    staged := pairwise_run all
    warns := by
      intro settings result h'
      obtain ⟨rfl, rfl⟩ := h.iff.1 h'
      exact ⟨on_run_entries all warns (grave_warnings _), h.reports⟩
    dumps := by simp [dumped, h.iff]
    dump := by simp [dumped, h.iff]
    lists := by
      rw [listed]
      cases o.dump <;> cases o.play <;> simp [h.iff, entries, Schedule.listing]
    listing := by
      intro settings s' h' undumped unplayed
      obtain ⟨-, same⟩ := h.iff.1 h'
      cases same
      simp [listed, undumped, unplayed]
    ends := by simp [h.iff] }

theorem run_answers (o : Options) (w : Surroundings) : Answers o w (run o w) := by
  obtain unread | ⟨settings, result, compiles⟩ := unread_or_compiles o w
  · exact answers_of_unread unread
  · cases result with
    | error r => exact answers_of_rejected compiles
    | ok s => exact answers_of_compiled compiles

namespace Outcome

def overdue : Surroundings where
  read name :=
    if name = "config" then .ok "playback: {start_delay: 1e20}".toUTF8
    else .ok "chord A2 minor 1m".toUTF8

theorem status_overdue :
    (run ⟨0, "song", some "config", false, true⟩ overdue).status = .crashed := by
  decide +kernel

theorem not_forall_code :
    ¬ ∀ (o : Options) (w : Surroundings),
      (run o w).status.code = 0 ∨ (run o w).status.code = 1 ∨ (run o w).status.code = 2 := by
  intro known
  have code := known ⟨0, "song", some "config", false, true⟩ overdue
  simp only [status_overdue, Status.code] at code
  omega

end Outcome

example : (run ⟨0, "song", none, true, true⟩
    ⟨fun _ => .ok "bogus\nplay C4 1/4".toUTF8, {}, fun _ => true, {}⟩).outputs.map Output.stage =
      [.compiling, .warning, .dump, .playing, .playing, .failure] := by
  decide +kernel

end ChordScript.Session
