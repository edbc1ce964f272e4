import ChordScript.Proofs.Compile.Reports
import ChordScript.Proofs.Midi.Performance
import ChordScript.Session

namespace ChordScript

theorem fromUTF8?_eq_some_iff {bytes : ByteArray} {text : String} :
    String.fromUTF8? bytes = some text ↔ bytes = text.toUTF8 := by
  rw [String.fromUTF8?]
  constructor
  · intro h
    split at h
    · cases h
      rfl
    · cases h
  · rintro rfl
    exact dif_pos text.isValidUTF8

namespace Surroundings

variable {w : Surroundings} {name text : String}

def Holds (w : Surroundings) (name text : String) : Prop := w.read name = .ok text.toUTF8

theorem text_eq_ok_iff : w.text name = .ok text ↔ w.Holds name text := by
  rw [Surroundings.text, Holds]
  cases content : w.read name with
  | error e => simp [bind, Except.bind]
  | ok bytes =>
    rw [Except.ok.injEq, ← fromUTF8?_eq_some_iff]
    change (String.fromUTF8? bytes).elim _ _ = _ ↔ _
    cases String.fromUTF8? bytes <;> simp

theorem exists_holds_iff :
    (∃ text, w.Holds name text) ↔ ∃ bytes, w.read name = .ok bytes ∧ bytes.IsValidUTF8 := by
  constructor
  · rintro ⟨text, held⟩
    exact ⟨_, held, text.isValidUTF8⟩
  · rintro ⟨bytes, read, valid⟩
    exact ⟨.fromUTF8 bytes valid, read⟩

def Configures (w : Surroundings) : Option String → Settings → Prop
  | none, settings => settings = Settings.standard
  | some name, settings => ∃ yaml, w.Holds name yaml ∧ Settings.read yaml = .ok settings

theorem loadSettings_eq_ok_iff {name : Option String} {settings : Settings} :
    Session.loadSettings w name = .ok settings ↔ w.Configures name settings := by
  cases name with
  | none => simp [Session.loadSettings, Configures, eq_comm]
  | some name =>
    simp only [Configures, ← text_eq_ok_iff, Session.loadSettings]
    cases w.text name with
    | error e => simp
    | ok yaml => cases read : Settings.read yaml <;> simp [Except.mapError, read]

def player (w : Surroundings) (settings : Settings) : Midi.Player :=
  .ofLine settings.midi.voicing { fails := w.sendFails } settings.playback.startDelay w.clock

def Thwarts (w : Surroundings) (settings : Settings) (s : Schedule Float) : Prop :=
  (∃ e, w.ports.open settings.midi.port = .error e) ∨
    ∃ e, ((w.player settings).play s).error = some e

/-- Playing the schedule gets to a time for which the clock has no instant. -/
def Crashes (w : Surroundings) (settings : Settings) (s : Schedule Float) : Prop :=
  (∃ endpoint, w.ports.open settings.midi.port = .ok endpoint) ∧
    ∃ cues, s.cues = .ok cues ∧ (w.player settings).Stranded cues

section

variable {settings : Settings} {s : Schedule Float} {endpoint : Midi.Endpoint}
  (opened : w.ports.open settings.midi.port = .ok endpoint)

include opened

theorem thwarts_iff :
    w.Thwarts settings s ↔ ∃ e, ((w.player settings).play s).ending = .failed e := by
  simp only [Thwarts, opened, reduceCtorEq, exists_false, false_or, Midi.Player.Played.error]
  cases ((w.player settings).play s).ending <;> simp

theorem crashes_iff :
    w.Crashes settings s ↔ ((w.player settings).play s).ending = .crashed := by
  cases cued : s.cues with
  | error e => simp [Crashes, cued, Midi.Player.play]
  | ok cues => simp [Crashes, opened, cued, Midi.Player.play_crashed_iff cued]

end

end Surroundings

namespace Session

open Journal

variable {o : Options} {w : Surroundings} {settings : Settings}

def Compiles (o : Options) (w : Surroundings) (settings : Settings) (result : Run Float) : Prop :=
  w.Configures o.settings settings ∧
    ∃ text, w.Holds o.source text ∧ compile text settings.context = result

def Unread (o : Options) (w : Surroundings) : Prop :=
  (∀ settings, ¬ w.Configures o.settings settings) ∨
    ∀ bytes, w.read o.source = .ok bytes → ¬ bytes.IsValidUTF8

theorem Compiles.not_unread {result : Run Float} (h : Compiles o w settings result) :
    ¬ Unread o w := by
  obtain ⟨configures, text, holds, -⟩ := h
  rintro (absent | absent)
  · exact absent settings configures
  · exact absent _ holds text.isValidUTF8

theorem unread_or_compiles (o : Options) (w : Surroundings) :
    Unread o w ∨ ∃ settings result, Compiles o w settings result := by
  by_contra neither
  obtain ⟨present, compiles⟩ := not_or.1 neither
  simp only [Unread, not_or, not_forall, not_not] at present
  obtain ⟨⟨settings, configures⟩, bytes, read, valid⟩ := present
  obtain ⟨text, holds⟩ := Surroundings.exists_holds_iff.2 ⟨bytes, read, valid⟩
  exact compiles ⟨settings, _, configures, text, holds, rfl⟩

theorem runAll_eq {text : String} (configures : w.Configures o.settings settings)
    (holds : w.Holds o.source text) : runAll o w = runText o w settings text := by
  simp only [runAll, Surroundings.loadSettings_eq_ok_iff.2 configures,
    Surroundings.text_eq_ok_iff.2 holds]

theorem Compiles.unique {other : Settings} {result again : Run Float}
    (h : Compiles o w settings result) (h' : Compiles o w other again) :
    settings = other ∧ result = again := by
  obtain ⟨configures, text, holds, rfl⟩ := h
  obtain ⟨configures', text', holds', rfl⟩ := h'
  have same : settings = other := by
    rw [← Except.ok.injEq, ← Surroundings.loadSettings_eq_ok_iff.2 configures,
      Surroundings.loadSettings_eq_ok_iff.2 configures']
  have texts : text = text' := by
    rw [← Except.ok.injEq, ← Surroundings.text_eq_ok_iff.2 holds,
      Surroundings.text_eq_ok_iff.2 holds']
  exact ⟨same, by rw [same, texts]⟩

theorem Compiles.iff {other : Settings} {result again : Run Float}
    (h : Compiles o w settings result) :
    Compiles o w other again ↔ other = settings ∧ again = result := by
  refine ⟨fun h' => h'.unique h, ?_⟩
  rintro ⟨rfl, rfl⟩
  exact h

theorem Compiles.reports {result : Run Float} (h : Compiles o w settings result) :
    Diagnostic.Increasing (Run.diagnostics result) ∧
      ∀ d ∈ Run.diagnostics result, '\n' ∉ (warning d).line.toList := by
  obtain ⟨-, text, -, rfl⟩ := h
  refine ⟨increasing_compile text settings.context, fun d mem => ?_⟩
  have single := newline_not_mem_compile text settings.context d mem
  simp only [warning, Entry.line, String.toList_append, String.toList_ofList, List.mem_append,
    not_or]
  exact ⟨⟨⟨⟨⟨by decide, by decide⟩, by decide⟩, by decide⟩, by decide⟩, single⟩

end Session

end ChordScript
