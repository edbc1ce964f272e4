import ChordScript.Proofs.Midi.Performance

namespace ChordScript

namespace Schedule

def expansion (s : Schedule Float) : List (Cue Float) :=
  s.events.flatMap fun e => e.notes.flatMap (Cue.ofNote e)

/-- The cues for the pitches of a schedule. At equal times ends come before starts, and cues that
do the same keep the order of the events. -/
structure Expands (s : Schedule Float) (cues : List (Cue Float)) : Prop where
  notes : ∀ e ∈ s.events, e.notes.map (fun n : Note => (n : Int)) = e.pitches.map Pitch.midi
  perm : cues.Perm s.expansion
  ordered : cues.Pairwise fun a b =>
    a.time < b.time ∨ (a.time == b.time) = true ∧ (a.action = .noteOff ∨ b.action = .noteOn)
  stable : ∀ (time : Float) (action : Action),
    cues.filter (fun c => c.time == time ∧ c.action = action) =
      s.expansion.filter fun c => c.time == time ∧ c.action = action

theorem expands_cues {s : Schedule Float} (timed : s.IsTimed) {cues : List (Cue Float)}
    (h : s.cues = .ok cues) : s.Expands cues where
  notes _ he := map_notes h he
  perm := cues_eq h ▸ StableSort.sort_perm _ _
  ordered := (sorted_cues timed h).imp_of_mem fun ha hb stays =>
    Cue.not_later_of_before (timed.time h ha) (timed.time h hb) stays
  stable time action := by
    rw [cues_eq h]
    refine StableSort.filter_sort ?_ _
    intro a b ha hb
    rw [decide_eq_true_eq] at ha hb
    exact Cue.before_eq_false_of_beq (Binary.beq_of_beq ha.1 hb.1) (ha.2.trans hb.2.symm)

end Schedule

namespace Midi

variable {p : Player} {s : Schedule Float} {fault : OutOfRange}

/-- Of a schedule that a player refuses it plays nothing; it ends what sounded before, as far as
messages get through. -/
structure Player.Refuses (p : Player) (s : Schedule Float) (fault : OutOfRange) : Prop where
  error : (p.play s).error = some (.outOfRange fault)
  begun : (p.play s).begun = []
  sent : ∃ notes, notes <+: p.sounding.reverse ∧
    (p.play s).player.line.sent = p.line.sent ++ notes.map p.voicing.ending

theorem Player.sent_releaseFrom (p : Player) (sounding : List (Voice × Note)) :
    ∃ notes, notes <+: sounding ∧
      (p.releaseFrom sounding).2.line.sent = p.line.sent ++ notes.map p.voicing.ending := by
  induction sounding generalizing p with
  | nil => exact ⟨[], List.prefix_rfl, (List.append_nil _).symm⟩
  | cons x rest ih =>
    rw [releaseFrom_cons]
    split
    · exact ⟨[], List.nil_prefix, (List.append_nil _).symm⟩
    · obtain ⟨notes, first, sent⟩ := ih (p.recorded .noteOff x.1 x.2)
      refine ⟨x :: notes, (List.prefix_cons_inj x).2 first, sent.trans ?_⟩
      rw [List.map_cons, List.append_cons]
      rfl

theorem Player.refuses_of_error (h : s.cues = .error fault) (p : Player) : p.Refuses s fault := by
  have refused : p.play s =
      ⟨.failed (.outOfRange fault), [], !p.releaseAll.1, p.releaseAll.2⟩ := by
    simp only [play, h]
  constructor
  · rw [refused]
    rfl
  · rw [refused]
  · rw [refused]
    exact p.sent_releaseFrom _

/-- A schedule is refused just if one of its pitches is no note, and the first such pitch is
reported. -/
theorem cued_or_refused (timed : s.IsTimed) :
    ((∃ fault, s.cues = .error fault) ↔
        ∃ e ∈ s.events, ∃ pitch ∈ e.pitches, pitch.midi < 0 ∨ 127 < pitch.midi) ∧
      (∀ fault, s.cues = .error fault →
        (s.events.flatMap (·.pitches)).find? (fun pitch => pitch.midi < 0 ∨ 127 < pitch.midi) =
            some fault.pitch ∧
          ∀ p : Player, p.Refuses s fault) ∧
      ∀ cues, s.cues = .ok cues → s.Expands cues := by
  refine ⟨Schedule.exists_fault_iff, ?_, ?_⟩
  · intro fault refused
    exact ⟨Schedule.cues_eq_error_iff.1 refused, Player.refuses_of_error refused⟩
  · intro cues cued
    exact Schedule.expands_cues timed cued

namespace Cueing

def unordered : Schedule Float where
  discipline := .sequential
  events :=
    [.note .lead ⟨.c, 5⟩ 1 1, .rest 0 1, .chord [⟨.c, 4⟩, ⟨.e, 4⟩] 0 1, .note .bass ⟨.c, 4⟩ 0 2]
  finalCursor := 2
  diagnostics := []

def unorderedCues : List (Cue Float) := unordered.cues.toOption.getD []

def tooHigh : Schedule Float :=
  { unordered with
    events := unordered.events ++ [.chord [⟨.g, 9⟩, ⟨.gSharp, 9⟩, ⟨.c, -2⟩] 3 1] }

theorem cued_or_refused_unordered :
    unorderedCues =
        [⟨0, .noteOn, .lead, 60⟩, ⟨0, .noteOn, .lead, 64⟩, ⟨0, .noteOn, .bass, 60⟩,
          ⟨1, .noteOff, .lead, 60⟩, ⟨1, .noteOff, .lead, 64⟩, ⟨1, .noteOn, .lead, 72⟩,
          ⟨2, .noteOff, .lead, 72⟩, ⟨2, .noteOff, .bass, 60⟩] ∧
      unordered.IsTimed ∧ unordered.cues = .ok unorderedCues ∧ unordered.Expands unorderedCues ∧
      tooHigh.IsTimed ∧ tooHigh.cues = .error ⟨⟨.gSharp, 9⟩⟩ ∧
      Player.interrupted.Refuses tooHigh ⟨⟨.gSharp, 9⟩⟩ := by
  have timed : unordered.IsTimed ∧ tooHigh.IsTimed := by
    unfold Schedule.IsTimed
    decide +kernel
  have cued : unordered.cues = .ok unorderedCues := by decide +kernel
  have refused : tooHigh.cues = .error ⟨⟨.gSharp, 9⟩⟩ := by decide +kernel
  have expands := (cued_or_refused timed.1).2.2 _ cued
  have refuses := ((cued_or_refused timed.2).2.1 _ refused).2 Player.interrupted
  exact ⟨by decide +kernel, timed.1, cued, expands, timed.2, refused, refuses⟩

end Cueing

end Midi

end ChordScript
