import ChordScript.Main
import ChordScript.Proofs.Compile.Canonical
import ChordScript.Proofs.Compile.Fate
import ChordScript.Proofs.Compile.Recovery
import ChordScript.Proofs.Midi.Absorption
import ChordScript.Proofs.Cue.Playback
import ChordScript.Proofs.Cue.Repeats
import ChordScript.Proofs.Midi.Teardown
import ChordScript.Proofs.Schedule.Composition
import ChordScript.Proofs.Schedule.Bass
import ChordScript.Proofs.Cue.Sequence
import ChordScript.Proofs.Schedule.Verdict
import ChordScript.Proofs.Schedule.Guarded
import ChordScript.Proofs.Program.Grammar
import ChordScript.Proofs.Schedule.Replacement
import ChordScript.Proofs.Schedule.Respelling
import ChordScript.Proofs.Midi.Cueing
import ChordScript.Proofs.Midi.Pairing
import ChordScript.Proofs.Session.Outcome
import ChordScript.Proofs.Compile.Reports
import ChordScript.Proofs.Program.WholeTempo
import ChordScript.Proofs.NoteValue.Grammar
import ChordScript.Proofs.Pitch.Spelling
import ChordScript.Proofs.Midi.Delay
import ChordScript.Proofs.Midi.Lookup
import ChordScript.Proofs.Pitch.Transposition
import ChordScript.Proofs.Schedule.TempoChanges
import ChordScript.Proofs.Cursor.Overflow
import ChordScript.Proofs.Settings.Acceptance
import ChordScript.Proofs.Schedule.Dump
