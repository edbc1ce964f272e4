import ChordScript.Proofs.Midi.Delay
import ChordScript.Proofs.Settings.Choices

namespace ChordScript.Settings

open Yaml

namespace Form

variable {κ : Type} {form : Form κ} {stream : Stream} {pairs : List (Node × Node)}
  {entries : List (Entry κ)}

theorem exists_writtenAs_of_mem (written : List.Forall₂ (form.EntryWrittenAs stream) pairs entries)
    {item : κ} (mem : item ∈ items entries) : ∃ node, form.WrittenAs stream node item := by
  induction written with
  | nil => cases mem
  | cons first _ ih =>
    cases first with
    | unknown => exact ih mem
    | @known _ value _ _ written =>
      rcases List.mem_cons.1 mem with rfl | later
      · exact ⟨value, written⟩
      · exact ih later

/-- The fields of a mapping take the items as `put` does, seen through `embed`. -/
structure TakenBy {σ : Type} (form : Form κ) (fields : Section σ) (embed : σ → Settings)
    (put : Settings → κ → Except SettingsError Settings) : Prop where
  names : fields.map Prod.fst = form.names
  field (stream : Stream) (node : Node) (item : κ) (written : form.WrittenAs stream node item) :
    ∃ field, fields.lookup (form.name item) = some field ∧
      ∀ s, embed <$> field s stream node = put (embed s) item

variable {σ : Type} {fields : Section σ} {embed : σ → Settings}
  {put : Settings → κ → Except SettingsError Settings} (taken : form.TakenBy fields embed put)

include taken

theorem TakenBy.map_byName (written : List.Forall₂ (form.EntryWrittenAs stream) pairs entries)
    (nodup : ((items entries).map form.name).Nodup) {given : List String}
    (fresh : ∀ item ∈ items entries, form.name item ∉ given) (s : σ) :
    embed <$> byName fields stream given s pairs = (items entries).foldlM put (embed s) := by
  induction written generalizing given s with
  | nil => rfl
  | cons first rest ih =>
    cases first with
    | @unknown key value name named not_mem =>
      have unknown : fields.lookup name = none := by
        rw [List.lookup_eq_none_iff]
        intro p mem
        have other : name ≠ p.1 := fun same =>
          not_mem (taken.names ▸ same ▸ List.mem_map_of_mem mem)
        simpa using other
      rw [byName_cons_of_unknown named unknown]
      exact ih nodup fresh s
    | @known key value item named written =>
      obtain ⟨field, found, same⟩ := taken.field stream value item written
      obtain ⟨later, nodup⟩ := List.nodup_cons.1 nodup
      obtain ⟨here, fresh⟩ := List.forall_mem_cons.1 fresh
      rw [byName_cons_of_known named found here, items_cons_known, List.foldlM_cons, ← same s]
      cases field s stream value with
      | error e => rfl
      | ok next =>
        refine ih nodup (fun other mem given => ?_) next
        rcases List.mem_cons.1 given with repeated | given
        · exact later (repeated ▸ List.mem_map_of_mem mem)
        · exact fresh other mem given

theorem TakenBy.map_readSection {node : Node} (written : form.MappingWrittenAs stream node entries)
    (default : σ) :
    embed <$> readSection fields default stream node =
      (items entries).foldlM put (embed default) := by
  obtain ⟨resolved, written, nodup⟩ := written
  rw [readSection, resolved]
  exact taken.map_byName written nodup (fun _ _ => List.not_mem_nil) default

end Form

namespace Heading

def reset (h : Heading) (s : Settings) : Settings :=
  match h with
  | .midi => { s with midi := standard.midi }
  | .playback => { s with playback := standard.playback }
  | .scheduling => { s with scheduling := standard.scheduling }

theorem reset_set {h : Heading} {c : Choice} (apart : c.heading ≠ h) {s : Settings}
    (untouched : h.reset s = s) : h.reset (c.set s) = c.set s := by
  cases h with
  | midi =>
    have same : standard.midi = s.midi := congrArg (·.midi) untouched
    cases c with
    | port | leadChannel | bassChannel | velocity => exact absurd rfl apart
    | startDelay | discipline => simp only [reset, same, Choice.set]
  | playback =>
    have same : standard.playback = s.playback := congrArg (·.playback) untouched
    cases c with
    | startDelay => exact absurd rfl apart
    | port | leadChannel | bassChannel | velocity | discipline =>
      simp only [reset, same, Choice.set]
  | scheduling =>
    have same : standard.scheduling = s.scheduling := congrArg (·.scheduling) untouched
    cases c with
    | discipline => exact absurd rfl apart
    | port | leadChannel | bassChannel | velocity | startDelay =>
      simp only [reset, same, Choice.set]

end Heading

namespace Part

def put (s : Settings) (p : Part) : Except SettingsError Settings :=
  (items p.entries).foldlM Choice.put (p.heading.reset s)

end Part

theorem Choice.map_checked {σ α : Type} {embed : σ → Settings} {c : Choice} {s : σ} {v : α}
    {checked : Except SettingsError α} {update : α → σ}
    (check : checked = if c.InRange then .ok v else .error c.error)
    (set_eq : embed (update v) = c.set (embed s)) :
    embed <$> (checked >>= fun v => pure (update v)) = c.put (embed s) := by
  rw [check, put]
  split
  · exact congrArg Except.ok set_eq
  · rfl

section

variable (s : Settings)

theorem takenBy_midi :
    (sectionForm .midi).TakenBy Output.fields (fun midi => { s with midi }) Choice.put where
  names := rfl
  field stream node c := by
    rintro ⟨heading, written⟩
    cases c with
    | port text =>
      have written : readOptional readText stream node = .ok text := written
      refine ⟨_, rfl, fun midi => ?_⟩
      simp only [written]
      rfl
    | leadChannel n | bassChannel n =>
      have written : readByte stream node = .ok n := written
      refine ⟨_, rfl, fun midi => ?_⟩
      simp only [written]
      exact Choice.map_checked (channel_eq n) rfl
    | velocity n =>
      have written : readByte stream node = .ok n := written
      refine ⟨_, rfl, fun midi => ?_⟩
      simp only [written]
      exact Choice.map_checked (velocity_eq n) rfl
    | startDelay | discipline => cases heading

theorem takenBy_playback :
    (sectionForm .playback).TakenBy Playback.fields (fun playback => { s with playback })
      Choice.put where
  names := rfl
  field stream node c := by
    rintro ⟨heading, written⟩
    cases c with
    | startDelay x =>
      have written : readNumber stream node = .ok x := written
      refine ⟨_, rfl, fun playback => ?_⟩
      simp only [written]
      exact Choice.map_checked (delay_eq x) rfl
    | port | leadChannel | bassChannel | velocity | discipline => cases heading

theorem takenBy_scheduling :
    (sectionForm .scheduling).TakenBy Scheduling.fields (fun scheduling => { s with scheduling })
      Choice.put where
  names := rfl
  field stream node c := by
    rintro ⟨heading, written⟩
    cases c with
    | discipline d =>
      have written : readOptional readDiscipline stream node = .ok d := written
      refine ⟨_, rfl, fun scheduling => ?_⟩
      simp only [written]
      rfl
    | port | leadChannel | bassChannel | velocity | startDelay => cases heading

end

theorem takenBy_document : documentForm.TakenBy fields id Part.put where
  names := rfl
  field stream node p written := by
    obtain ⟨heading, entries⟩ := p
    cases heading with
    | midi =>
      refine ⟨_, rfl, fun s => ?_⟩
      have taken := (takenBy_midi s).map_readSection written standard.midi
      rw [Part.put]
      refine Eq.trans ?_ taken
      cases readSection Output.fields standard.midi stream node <;> rfl
    | playback =>
      refine ⟨_, rfl, fun s => ?_⟩
      refine Eq.trans ?_ ((takenBy_playback s).map_readSection written standard.playback)
      cases readSection Playback.fields standard.playback stream node <;> rfl
    | scheduling =>
      refine ⟨_, rfl, fun s => ?_⟩
      refine Eq.trans ?_ ((takenBy_scheduling s).map_readSection written standard.scheduling)
      cases readSection Scheduling.fields standard.scheduling stream node <;> rfl

theorem Heading.reset_foldlM_put {h : Heading} {choices : List Choice}
    (apart : ∀ c ∈ choices, c.heading ≠ h) {s s' : Settings} (untouched : h.reset s = s)
    (taken : choices.foldlM Choice.put s = .ok s') : h.reset s' = s' := by
  induction choices generalizing s with
  | nil =>
    cases taken
    exact untouched
  | cons c rest ih =>
    obtain ⟨here, apart⟩ := List.forall_mem_cons.1 apart
    rw [List.foldlM_cons, Choice.put] at taken
    split at taken
    · exact ih apart (reset_set here untouched) taken
    · cases taken

namespace Document

structure Filed (d : Document) : Prop where
  headings : ((items d).map Part.heading).Nodup
  names : ∀ p ∈ items d, ((items p.entries).map Choice.name).Nodup
  heading : ∀ p ∈ items d, ∀ c ∈ items p.entries, c.heading = p.heading

theorem filed_of_writtenAs {d : Document} {stream : Stream} {root : Node}
    (written : documentForm.MappingWrittenAs stream root d) : d.Filed := by
  obtain ⟨-, written, nodup⟩ := written
  have sections (p : Part) (mem : p ∈ items d) :
      ∃ node, (sectionForm p.heading).MappingWrittenAs stream node p.entries :=
    Form.exists_writtenAs_of_mem written mem
  refine ⟨?_, fun p mem => ?_, fun p mem c chosen => ?_⟩
  · refine List.Nodup.of_map Heading.name ?_
    rw [List.map_map]
    exact nodup
  · obtain ⟨node, -, -, nodup⟩ := sections p mem
    exact nodup
  · obtain ⟨node, -, written, -⟩ := sections p mem
    obtain ⟨-, heading, -⟩ := Form.exists_writtenAs_of_mem written chosen
    exact heading

theorem foldlM_put_eq {parts : List Part} (headings : (parts.map Part.heading).Nodup)
    (heading : ∀ p ∈ parts, ∀ c ∈ items p.entries, c.heading = p.heading) {s : Settings}
    (untouched : ∀ p ∈ parts, p.heading.reset s = s) :
    parts.foldlM Part.put s = (parts.flatMap fun p => items p.entries).foldlM Choice.put s := by
  induction parts generalizing s with
  | nil => rfl
  | cons p rest ih =>
    obtain ⟨other, headings⟩ := List.nodup_cons.1 headings
    obtain ⟨own, heading⟩ := List.forall_mem_cons.1 heading
    obtain ⟨here, untouched⟩ := List.forall_mem_cons.1 untouched
    rw [List.foldlM_cons, List.flatMap_cons, List.foldlM_append, Part.put, here]
    cases taken : (items p.entries).foldlM Choice.put s with
    | error e => rfl
    | ok next =>
      refine ih headings heading fun q mem => ?_
      refine Heading.reset_foldlM_put (fun c chosen same => ?_) (untouched q mem) taken
      exact other (List.mem_map.2 ⟨q, mem, same.symm.trans (own c chosen)⟩)

theorem Filed.nodup {d : Document} (h : d.Filed) : (d.choices.map Choice.name).Nodup := by
  rw [choices, List.map_flatMap, List.nodup_flatMap]
  refine ⟨h.names, (List.pairwise_map.1 h.headings).imp_of_mem fun {p q} hp hq differ => ?_⟩
  intro name first second
  obtain ⟨c, chosen, rfl⟩ := List.mem_map.1 first
  obtain ⟨c', chosen', same⟩ := List.mem_map.1 second
  have same_heading := Choice.heading_eq_of_name_eq same
  rw [h.heading q hq c' chosen', h.heading p hp c chosen] at same_heading
  exact differ same_heading.symm

variable {yaml : String} {d : Document}

theorem WrittenAs.read_eq (written : d.WrittenAs yaml) :
    read yaml = d.choices.foldlM Choice.put standard := by
  obtain ⟨scanned, single, written⟩ := written
  have filed := filed_of_writtenAs written
  have taken := takenBy_document.map_readSection written standard
  rw [id_map] at taken
  have sections := taken.trans (foldlM_put_eq filed.headings filed.heading fun p _ => by
    cases p.heading <;> rfl)
  rw [read, scanned]
  simp only [single, ofNode, id] at sections ⊢
  rw [sections, choices]
  cases ((items d).flatMap fun p => items p.entries).foldlM Choice.put standard <;> rfl

theorem WrittenAs.nodup (written : d.WrittenAs yaml) : (d.choices.map Choice.name).Nodup := by
  obtain ⟨-, -, written⟩ := written
  exact (filed_of_writtenAs written).nodup

theorem WrittenAs.read_eq_ok_iff (written : d.WrittenAs yaml) {s : Settings} :
    read yaml = .ok s ↔ (∀ c ∈ d.choices, c.InRange) ∧ Obeys d.choices s := by
  rw [written.read_eq, foldlM_put, ← find?_eq_none_iff_inRange]
  cases first : d.choices.find? (fun c => ¬ c.InRange) with
  | some c => simp
  | none =>
    have range := find?_eq_none_iff_inRange.1 first
    obtain ⟨given, absent⟩ := obeys_foldl_set range written.nodup standard
    have obeys : Obeys d.choices (d.choices.foldl Choice.set standard) := ⟨given, absent⟩
    simp only [Except.ok.injEq, true_and]
    exact ⟨fun same => same ▸ obeys, fun h => obeys.unique h⟩

theorem WrittenAs.read_eq_error_iff (written : d.WrittenAs yaml) {e : SettingsError} :
    read yaml = .error e ↔ ∃ c, FirstFault d.choices c ∧ e = c.error := by
  simp only [written.read_eq, foldlM_put, ← find?_eq_some_iff_firstFault]
  cases d.choices.find? (fun c => ¬ c.InRange) with
  | some c => simp [eq_comm]
  | none => simp

end Document

theorem FirstFault.message {choices : List Choice} {c : Choice} (h : FirstFault choices c) :
    c.error.message? = some (c.rule ++ ", got " ++ c.number) := by
  obtain ⟨-, -, -, -, fault⟩ := h
  cases c with
  | port | discipline => exact absurd trivial fault
  | leadChannel | bassChannel | velocity | startDelay => rfl

structure Usable (s : Settings) : Prop where
  lead : (s.midi.voicing.lead : Nat) < 16
  bass : (s.midi.voicing.bass : Nat) < 16
  velocity : (s.midi.voicing.velocity : Nat) < 128
  startDelay : s.playback.InRange
  kept : (Midi.Player.usableDelay s.playback.startDelay == s.playback.startDelay) = true

theorem usable_of_read {yaml : String} {s : Settings} (accepted : read yaml = .ok s) :
    s.Usable := by
  have range := startDelay_of_read accepted
  exact ⟨Fin.isLt _, Fin.isLt _, Fin.isLt _, range, Midi.Player.usableDelay_beq range.1 range.2⟩

/-- A document with values of the right types is accepted just if they are all in range. Then they
are held, and the standard where nothing is chosen, in whatever order they come and among whatever
else; otherwise the first that is out of range is reported. -/
theorem read_document {yaml : String} {d : Document} (written : d.WrittenAs yaml) :
    ((∃ s, read yaml = .ok s) ↔ ∀ c ∈ d.choices, c.InRange) ∧
      (∀ s, read yaml = .ok s → Obeys d.choices s) ∧
      (∀ e, read yaml = .error e ↔ ∃ c, FirstFault d.choices c ∧ e = c.error) ∧
      (∀ c, FirstFault d.choices c → c.error.message? = some (c.rule ++ ", got " ++ c.number)) ∧
      (∀ (yaml' : String) (d' : Document), d.Rearranged d' → d'.WrittenAs yaml' →
        ∀ s, read yaml = .ok s ↔ read yaml' = .ok s) ∧
      ∀ (accepted : String) (s : Settings), read accepted = .ok s → s.Usable := by
  refine ⟨⟨?_, ?_⟩, ?_, fun e => written.read_eq_error_iff, fun c => FirstFault.message, ?_,
    fun accepted s => usable_of_read⟩
  · rintro ⟨s, accepted⟩
    exact (written.read_eq_ok_iff.1 accepted).1
  · intro range
    cases read : Settings.read yaml with
    | ok s => exact ⟨s, rfl⟩
    | error e =>
      obtain ⟨c, ⟨before, after, split, -, fault⟩, -⟩ := written.read_eq_error_iff.1 read
      exact absurd (range c (by simp [split])) fault
  · intro s accepted
    exact (written.read_eq_ok_iff.1 accepted).2
  · intro yaml' d' rearranged written' s
    have perm := rearranged.perm
    rw [written.read_eq_ok_iff, written'.read_eq_ok_iff, Obeys.perm perm]
    refine and_congr_left fun _ => ?_
    exact forall_congr' fun c => by rw [perm.mem_iff]

namespace Acceptance

def text : String := "midi: {lead_channel: 3, velocity: 90}\nplayback: {start_delay: 0.25}\n"

def document : Document :=
  [.known ⟨.midi, [.known (.leadChannel 3), .known (.velocity 90)]⟩,
    .known ⟨.playback, [.known (.startDelay 0.25)]⟩]

def turned : String :=
  "playback: {start_delay: 0.25}\nmidi: {velocity: 90, color: red, lead_channel: 3}\n"

def turnedDocument : Document :=
  [.known ⟨.playback, [.known (.startDelay 0.25)]⟩,
    .known ⟨.midi, [.known (.velocity 90), .unknown "color", .known (.leadChannel 3)]⟩]

def word (text : String) : Node := .scalar .plain none text

def delay : Node := .mapping [(word "start_delay", word "0.25")]

def root : Node :=
  .mapping [(word "midi", .mapping [(word "lead_channel", word "3"), (word "velocity", word "90")]),
    (word "playback", delay)]

def turnedRoot : Node :=
  .mapping [(word "playback", delay),
    (word "midi", .mapping [(word "velocity", word "90"), (word "color", word "red"),
      (word "lead_channel", word "3")])]

/-- The tokens of a section whose entries stand between braces. -/
def sectionTokens (name : String) (entries : List (String × String)) : List Token :=
  [.key, .scalar .plain name, .value, .flowMappingStart] ++
    [Token.flowEntry].intercalate
      (entries.map fun e => [.key, .scalar .plain e.1, .value, .scalar .plain e.2]) ++
    [.flowMappingEnd]

theorem tokens_text : tokens? text =
    some ([.blockMappingStart] ++
      sectionTokens "midi" [("lead_channel", "3"), ("velocity", "90")] ++
      sectionTokens "playback" [("start_delay", "0.25")] ++ [.blockEnd, .streamEnd]) := by
  decide +kernel

theorem tokens_turned : tokens? turned =
    some ([.blockMappingStart] ++
      sectionTokens "playback" [("start_delay", "0.25")] ++
      sectionTokens "midi" [("velocity", "90"), ("color", "red"), ("lead_channel", "3")] ++
      [.blockEnd, .streamEnd]) := by
  decide +kernel

deriving instance DecidableEq for Value

theorem readScalar_word {text : String} {v : Value} (h : Value.ofScalar .plain none text = some v)
    (stream : Stream) : readScalar stream (word text) = .ok v := by
  simp [readScalar, word, Stream.resolve, h]

section

variable (stream : Stream)

theorem delay_writtenAs :
    documentForm.EntryWrittenAs stream (word "playback", delay)
      (.known ⟨.playback, [.known (.startDelay 0.25)]⟩) := by
  have written : readNumber stream (word "0.25") = .ok 0.25 := by
    rw [readNumber, readScalar_word (v := .float 0.25) (by decide +kernel)]
    rfl
  exact .known rfl ⟨rfl, .cons (.known rfl ⟨rfl, written⟩) .nil, List.nodup_singleton _⟩

theorem leadChannel_writtenAs :
    (sectionForm .midi).EntryWrittenAs stream (word "lead_channel", word "3")
      (.known (.leadChannel 3)) := by
  have written : readByte stream (word "3") = .ok 3 := by
    rw [readByte, readScalar_word (v := .int 3) (by decide +kernel)]
    rfl
  exact .known rfl ⟨rfl, written⟩

theorem velocity_writtenAs :
    (sectionForm .midi).EntryWrittenAs stream (word "velocity", word "90")
      (.known (.velocity 90)) := by
  have written : readByte stream (word "90") = .ok 90 := by
    rw [readByte, readScalar_word (v := .int 90) (by decide +kernel)]
    rfl
  exact .known rfl ⟨rfl, written⟩

theorem color_writtenAs :
    (sectionForm .midi).EntryWrittenAs stream (word "color", word "red") (.unknown "color") :=
  .unknown rfl (by decide)

end

theorem text_writtenAs : document.WrittenAs text := by
  have scanned : Stream.read? text = some ⟨[root], []⟩ := by
    rw [Stream.read?, tokens_text]
    rfl
  refine ⟨scanned, rfl, rfl, .cons (.known rfl ⟨rfl, ?_, by decide⟩) ?_, by decide⟩
  · exact .cons (leadChannel_writtenAs _) (.cons (velocity_writtenAs _) .nil)
  · exact .cons (delay_writtenAs _) .nil

theorem turned_writtenAs : turnedDocument.WrittenAs turned := by
  have scanned : Stream.read? turned = some ⟨[turnedRoot], []⟩ := by
    rw [Stream.read?, tokens_turned]
    rfl
  refine ⟨scanned, rfl, rfl, .cons (delay_writtenAs _) (.cons (.known rfl ⟨rfl, ?_, ?_⟩) .nil), ?_⟩
  · exact .cons (velocity_writtenAs _)
      (.cons (color_writtenAs _) (.cons (leadChannel_writtenAs _) .nil))
  · decide
  · decide

theorem rearranged : document.Rearranged turnedDocument := by
  refine .trans (@Document.Rearranged.keys [] _ _ _ _ (.swap _ _ _)) ?_
  refine .trans ?_ (.sections (.swap _ _ _))
  exact .unknownKey [] _ .midi [.known (.velocity 90)] _ "color"

theorem read_document_turned :
    document.WrittenAs text ∧ turnedDocument.WrittenAs turned ∧ document.Rearranged turnedDocument ∧
      ∃ s, read text = .ok s ∧ read turned = .ok s ∧ Obeys document.choices s := by
  obtain ⟨accepted_iff, obeys, -, -, same, -⟩ := read_document text_writtenAs
  have range : ∀ c ∈ document.choices, c.InRange := by decide +kernel
  obtain ⟨s, accepted⟩ := accepted_iff.2 range
  have again := (same turned turnedDocument rearranged turned_writtenAs s).1 accepted
  exact ⟨text_writtenAs, turned_writtenAs, rearranged, s, accepted, again, obeys s accepted⟩

end Acceptance

example : read "midi: {velocity: 200, lead_channel: 17}" = .error (.velocity 200) := by
  decide +kernel

end ChordScript.Settings
