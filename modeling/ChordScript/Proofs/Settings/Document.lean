import ChordScript.Proofs.Settings.Reading

/-!
# What a document says

A document of settings is a mapping of sections, and a section is a mapping of values. Here it is told
as the list of its entries, in their order and with the names that nobody asks for, beside the relation
of such a list to the nodes that it is written with.
-/

namespace ChordScript.Settings

open Yaml

inductive Choice
  | port (name : Option String)
  | leadChannel (n : Nat)
  | bassChannel (n : Nat)
  | velocity (n : Nat)
  | startDelay (seconds : Float)
  | discipline (d : Option Discipline)

inductive Heading
  | midi
  | playback
  | scheduling
  deriving DecidableEq

namespace Heading

def name : Heading → String
  | .midi => "midi"
  | .playback => "playback"
  | .scheduling => "scheduling"

def names : Heading → List String
  | .midi => ["port", "lead_channel", "bass_channel", "velocity"]
  | .playback => ["start_delay"]
  | .scheduling => ["discipline"]

def all : List Heading := [.midi, .playback, .scheduling]

end Heading

namespace Choice

def name : Choice → String
  | .port _ => "port"
  | .leadChannel _ => "lead_channel"
  | .bassChannel _ => "bass_channel"
  | .velocity _ => "velocity"
  | .startDelay _ => "start_delay"
  | .discipline _ => "discipline"

def heading : Choice → Heading
  | .port _ | .leadChannel _ | .bassChannel _ | .velocity _ => .midi
  | .startDelay _ => .playback
  | .discipline _ => .scheduling

def WrittenAs (stream : Stream) (node : Node) : Choice → Prop
  | .port name => readOptional readText stream node = .ok name
  | .leadChannel n | .bassChannel n | .velocity n => readByte stream node = .ok n
  | .startDelay x => readNumber stream node = .ok x
  | .discipline d => readOptional readDiscipline stream node = .ok d

def InRange : Choice → Prop
  | .leadChannel n | .bassChannel n => 1 ≤ n ∧ n ≤ 16
  | .velocity n => n ≤ 127
  | .startDelay x => x.isFinite = true ∧ 0 ≤ Binary.value x
  | .port _ | .discipline _ => True

def HeldBy (s : Settings) : Choice → Prop
  | .port name => s.midi.port = name
  | .leadChannel n => (s.midi.voicing.lead : Nat) + 1 = n
  | .bassChannel n => (s.midi.voicing.bass : Nat) + 1 = n
  | .velocity n => (s.midi.voicing.velocity : Nat) = n
  | .startDelay x => s.playback.startDelay = x
  | .discipline d => s.scheduling.discipline = d

def error : Choice → SettingsError
  | .leadChannel n | .bassChannel n => .channel n
  | .velocity n => .velocity n
  | .startDelay x => .startDelay x
  | .port _ | .discipline _ => .unreadable

def rule : Choice → String
  | .leadChannel _ | .bassChannel _ => "MIDI channel must be between 1 and 16"
  | .velocity _ => "MIDI velocity must be between 0 and 127"
  | .startDelay _ => "start delay must be a finite number of seconds"
  | .port _ | .discipline _ => ""

def number : Choice → String
  | .leadChannel n | .bassChannel n | .velocity n => .ofList (Text.numeral n)
  | .startDelay x => .ofList (Decimal.plain (.ofFloat x))
  | .port _ | .discipline _ => ""

theorem heading_eq_of_name_eq {c c' : Choice} (same : c.name = c'.name) :
    c.heading = c'.heading := by
  cases c <;> cases c' <;> simp_all [name, heading]

end Choice

inductive Entry (κ : Type)
  | known (item : κ)
  | unknown (name : String)

def Entry.item? {κ : Type} : Entry κ → Option κ
  | .known item => some item
  | .unknown _ => none

section

variable {κ : Type}

def items (entries : List (Entry κ)) : List κ := entries.filterMap Entry.item?

@[simp] theorem items_cons_known (item : κ) (entries : List (Entry κ)) :
    items (.known item :: entries) = item :: items entries := rfl

@[simp] theorem items_cons_unknown (name : String) (entries : List (Entry κ)) :
    items (.unknown name :: entries) = items entries := rfl

@[simp] theorem items_append (entries entries' : List (Entry κ)) :
    items (entries ++ entries') = items entries ++ items entries' :=
  List.filterMap_append

end

structure Form (κ : Type) where
  names : List String
  name : κ → String
  WrittenAs : Stream → Node → κ → Prop

namespace Form

variable {κ : Type}

inductive EntryWrittenAs (form : Form κ) (stream : Stream) : Node × Node → Entry κ → Prop
  | known {key value : Node} {item : κ} (named : readText stream key = .ok (form.name item))
    (written : form.WrittenAs stream value item) :
    EntryWrittenAs form stream (key, value) (.known item)
  | unknown {key value : Node} {name : String} (named : readText stream key = .ok name)
    (not_mem : name ∉ form.names) : EntryWrittenAs form stream (key, value) (.unknown name)

inductive MappingWrittenAs (form : Form κ) (stream : Stream) (node : Node)
    (entries : List (Entry κ)) : Prop
  | intro {pairs : List (Node × Node)} (resolved : stream.resolve node = .mapping pairs)
    (written : List.Forall₂ (form.EntryWrittenAs stream) pairs entries)
    (nodup : ((items entries).map form.name).Nodup)

end Form

structure Part where
  heading : Heading
  entries : List (Entry Choice)

abbrev Document := List (Entry Part)

def sectionForm (h : Heading) : Form Choice where
  names := h.names
  name := Choice.name
  WrittenAs stream node c := c.heading = h ∧ c.WrittenAs stream node

def documentForm : Form Part where
  names := Heading.all.map Heading.name
  name p := p.heading.name
  WrittenAs stream node p := (sectionForm p.heading).MappingWrittenAs stream node p.entries

namespace Document

def choices (d : Document) : List Choice := (items d).flatMap fun p => items p.entries

inductive WrittenAs (yaml : String) (d : Document) : Prop
  | intro {stream : Stream} {root : Node} (scanned : Stream.read? yaml = some stream)
    (single : stream.documents = [root]) (written : documentForm.MappingWrittenAs stream root d)

/-- Sections and the keys of a section in another order, and names more that nobody asks for. -/
inductive Rearranged : Document → Document → Prop
  | sections {d d' : Document} (perm : d.Perm d') : Rearranged d d'
  | keys {before after : Document} {h : Heading} {entries entries' : List (Entry Choice)}
    (perm : entries.Perm entries') :
    Rearranged (before ++ .known ⟨h, entries⟩ :: after) (before ++ .known ⟨h, entries'⟩ :: after)
  | unknownSection (before after : Document) (name : String) :
    Rearranged (before ++ after) (before ++ .unknown name :: after)
  | unknownKey (before after : Document) (h : Heading) (entries entries' : List (Entry Choice))
    (name : String) :
    Rearranged (before ++ .known ⟨h, entries ++ entries'⟩ :: after)
      (before ++ .known ⟨h, entries ++ .unknown name :: entries'⟩ :: after)
  | trans {d d' d'' : Document} (first : Rearranged d d') (second : Rearranged d' d'') :
    Rearranged d d''

@[simp] theorem choices_append (d d' : Document) :
    choices (d ++ d') = choices d ++ choices d' := by
  simp [choices]

@[simp] theorem choices_cons_known (p : Part) (d : Document) :
    choices (.known p :: d) = items p.entries ++ choices d := rfl

@[simp] theorem choices_cons_unknown (name : String) (d : Document) :
    choices (.unknown name :: d) = choices d := rfl

theorem Rearranged.perm {d d' : Document} (h : Rearranged d d') : d.choices.Perm d'.choices := by
  induction h with
  | sections perm => exact (perm.filterMap _).flatMap_right _
  | keys perm =>
    simp only [choices_append, choices_cons_known]
    exact ((perm.filterMap _).append_right _).append_left _
  | unknownSection => simp
  | unknownKey => simp
  | trans _ _ ih ih' => exact ih.trans ih'

end Document

end ChordScript.Settings
