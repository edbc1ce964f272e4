import ChordScript.Schedule.Dump
import ChordScript.Settings
import ChordScript.Yaml.Stream
import ChordScript.Yaml.Value

/-!
# Reading settings

A section is a mapping by name or a list in order of its fields. Unknown names are passed over and no
name may come twice; of several faults the first in the document is reported.
-/

namespace ChordScript.Settings

open Yaml

abbrev Field (α : Type) := Stream → Node → Except SettingsError α

def readScalar : Field Value := fun stream node =>
  match stream.resolve node with
  | .scalar style tag text => (Value.ofScalar style tag text).elim (.error .unreadable) .ok
  | _ => .error .unreadable

def readByte : Field Nat := fun stream node => do
  match ← readScalar stream node with
  | .int n => if 0 ≤ n ∧ n < 256 then .ok n.toNat else .error .unreadable
  | _ => .error .unreadable

def readNumber : Field Float := fun stream node => do
  match ← readScalar stream node with
  | .int n => .ok (Float.ofInt n)
  | .float x => .ok x
  | _ => .error .unreadable

def readText : Field String := fun stream node =>
  match stream.resolve node with
  | .scalar _ _ text => .ok text
  | _ => .error .unreadable

def readOptional {α : Type} (field : Field α) : Field (Option α) := fun stream node =>
  match stream.resolve node with
  | .scalar style tag text =>
    match Value.isMissing style tag text with
    | none => .error .unreadable
    | some true => .ok none
    | some false => some <$> field stream node
  | _ => some <$> field stream node

def discipline? (name : String) : Option Discipline :=
  [Discipline.measureAligned, .sequential].find? (·.name = name)

def nullOr {α : Type} (a : α) : Field α := fun stream node => do
  match ← readScalar stream node with
  | .null => .ok a
  | _ => .error .unreadable

def disciplineOfTag? (tag : Option Tag) : Option Discipline :=
  (tag.filter (·.handle = "!")).bind fun tag => discipline? tag.suffix

/-- A discipline is named by a tag, by a scalar, or by the only key of a mapping, which is no alias.
With a tag or a key the value has to be null. -/
def readDiscipline : Field Discipline := fun stream node =>
  match stream.resolve node with
  | .scalar style tag text =>
    match disciplineOfTag? tag with
    | some d => nullOr d stream (.scalar style tag text)
    | none => (discipline? text).elim (.error .unreadable) .ok
  | .mapping [(.scalar _ _ name, value)] =>
    match discipline? name with
    | some d => nullOr d stream value
    | none => .error .unreadable
  | _ => .error .unreadable

abbrev Section (σ : Type) := List (String × (σ → Field σ))

def byName {σ : Type} (fields : Section σ) (stream : Stream) (given : List String) (s : σ) :
    List (Node × Node) → Except SettingsError σ
  | [] => .ok s
  | (key, value) :: entries => do
    let name ← readText stream key
    match fields.lookup name with
    | none => byName fields stream given s entries
    | some field =>
      if name ∈ given then .error .unreadable
      else byName fields stream (name :: given) (← field s stream value) entries

def byPosition {σ : Type} (stream : Stream) (s : σ) :
    Section σ → List Node → Except SettingsError σ
  | _, [] => .ok s
  | [], _ :: _ => .error .unreadable
  | (_, field) :: fields, node :: nodes => do
    byPosition stream (← field s stream node) fields nodes

def readSection {σ : Type} (fields : Section σ) (default : σ) : Field σ := fun stream node =>
  match stream.resolve node with
  | .mapping entries => byName fields stream [] default entries
  | .sequence items => byPosition stream default fields items
  | _ => .error .unreadable

def Output.fields : Section Output :=
  [("port", fun s stream node => return { s with port := ← readOptional readText stream node }),
    ("lead_channel", fun s stream node => do
      let lead ← channel (← readByte stream node)
      return { s with voicing := { s.voicing with lead } }),
    ("bass_channel", fun s stream node => do
      let bass ← channel (← readByte stream node)
      return { s with voicing := { s.voicing with bass } }),
    ("velocity", fun s stream node => do
      let velocity ← velocity (← readByte stream node)
      return { s with voicing := { s.voicing with velocity } })]

def Playback.fields : Section Playback :=
  [("start_delay", fun _ stream node => return ⟨← delay (← readNumber stream node)⟩)]

def Scheduling.fields : Section Scheduling :=
  [("discipline", fun _ stream node => return ⟨← readOptional readDiscipline stream node⟩)]

def fields : Section Settings :=
  [("midi", fun s stream node =>
      return { s with midi := ← readSection Output.fields standard.midi stream node }),
    ("playback", fun s stream node =>
      return { s with playback := ← readSection Playback.fields standard.playback stream node }),
    ("scheduling", fun s stream node =>
      return { s with scheduling := ← readSection Scheduling.fields standard.scheduling stream node })]

def ofNode : Field Settings := readSection fields standard

/-- Reads a text, which must hold one document. A wrong value in the first document is reported
before a second document is. -/
def read (yaml : String) : Except SettingsError Settings :=
  match Stream.read? yaml with
  | none => .error .unreadable
  | some stream =>
    match stream.documents with
    | [] => .error .unreadable
    | root :: others => do
      let settings ← ofNode stream root
      if others.isEmpty then .ok settings else .error .unreadable

end ChordScript.Settings
