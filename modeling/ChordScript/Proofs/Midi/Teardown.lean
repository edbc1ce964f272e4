import ChordScript.Compile
import ChordScript.Proofs.Midi.Line

/-!
# Putting a player away

A player releases what it remembers. What hangs and is not remembered hangs for good, and this comes
about in one way only: a note is forgotten before the message that ends it is sent, and that message
fails.
-/

namespace ChordScript.Midi

inductive Step
  | play (schedule : Schedule Float)
  | release

namespace Player

variable {p q : Player} {c : Channel} {n : Note}

def step (p : Player) : Step → Player
  | .play s => (p.play s).player
  | .release => p.releaseAll.2

def run (p : Player) (steps : List Step) : Player := steps.foldl step p

def Remembers (p : Player) (c : Channel) (n : Note) : Prop :=
  ∃ voice, (voice, n) ∈ p.sounding ∧ p.voicing.channel voice = c

def Forgotten (p : Player) (c : Channel) (n : Note) : Prop :=
  p.line.Hangs c n ∧ ¬ p.Remembers c n

def lost (p : Player) : Player := { p with line := p.line.lose }

def recorded (p : Player) (action : Action) (voice : Voice) (note : Note) : Player :=
  { p with line := p.line.record (p.voicing.message action voice note) }

theorem send_eq (p : Player) (action : Action) (voice : Voice) (note : Note) :
    p.send action voice note =
      if p.line.fails p.line.count then (false, p.lost)
      else (true, p.recorded action voice note) := by
  simp only [send, Line.send_eq]
  split <;> rfl

theorem later_recorded (p : Player) (action : Action) (voice : Voice) (note : Note) :
    p.line.Later (p.recorded action voice note).line :=
  .record _ _

/-! ### Performances -/

section

variable {cue : Cue Float} {cues : List (Cue Float)}

def afterCue (p : Player) (cue : Cue Float) : Player :=
  { p.recorded cue.action cue.voice cue.note with sounding := p.sounding.apply cue }

theorem performFrom_cons (p : Player) (start : Nat) (cue : Cue Float) (cues : List (Cue Float)) :
    p.performFrom start (cue :: cues) =
      if p.clock.after? start cue.time = none then ⟨0, .crashed, p⟩
      else if p.line.fails p.line.count then ⟨1, .failed .sendFailed, p.lost⟩
      else { (p.afterCue cue).performFrom start cues with
        begun := ((p.afterCue cue).performFrom start cues).begun + 1 } := by
  rw [performFrom, send_eq]
  cases p.clock.after? start cue.time with
  | none => rfl
  | some due => cases p.line.fails p.line.count <;> rfl

inductive Onward : Player → Player → Prop
  | refl (p : Player) : Onward p p
  | tick {p q : Player} : Onward p.tick q → Onward p q
  | sent {p q : Player} (cue : Cue Float) : Onward (p.afterCue cue) q → Onward p q
  | lost {p q : Player} : Onward p.lost q → Onward p q

theorem onward_performFrom (p : Player) (start : Nat) (cues : List (Cue Float)) :
    p.Onward (p.performFrom start cues).player := by
  induction cues generalizing p with
  | nil => exact .refl p
  | cons cue cues ih =>
    rw [performFrom_cons]
    split
    · exact .refl p
    · split
      · exact .lost (.refl _)
      · exact .sent cue (ih _)

theorem onward_perform (p : Player) (cues : List (Cue Float)) :
    p.Onward (p.perform cues).player := by
  rw [perform]
  split
  · exact .tick (.refl _)
  · exact .tick (onward_performFrom _ _ _)

theorem Onward.later (onward : p.Onward q) : p.line.Later q.line := by
  induction onward with
  | refl p => exact .refl _
  | tick _ ih => exact ih
  | @sent p q cue _ ih => exact (p.later_recorded _ _ _).trans ih
  | lost _ ih => exact (Line.Later.lose _).trans ih

theorem remembers_afterCue (other : ¬ (p.voicing.channel cue.voice = c ∧ cue.note = n)) :
    (p.afterCue cue).Remembers c n ↔ p.Remembers c n := by
  refine exists_congr fun voice => and_congr_left fun (on : p.voicing.channel voice = c) => ?_
  apply Sounding.mem_apply_of_ne
  intro same
  obtain ⟨rfl, rfl⟩ := Prod.mk.inj same
  exact other ⟨on, rfl⟩

theorem forgotten_afterCue (p : Player) (cue : Cue Float) :
    (p.afterCue cue).Forgotten c n ↔
      p.Forgotten c n ∧ p.line.Quiet (p.afterCue cue).line c n := by
  have quiet : p.line.Quiet (p.afterCue cue).line c n ↔
      ¬ (p.voicing.channel cue.voice = c ∧ cue.note = n) := Line.quiet_record _
  have hangs : (p.afterCue cue).line.Hangs c n ↔
      if p.voicing.channel cue.voice = c ∧ cue.note = n then cue.action = .noteOn
      else p.line.Hangs c n := Line.hangs_record _
  by_cases same : p.voicing.channel cue.voice = c ∧ cue.note = n
  · rw [if_pos same] at hangs
    have remembered (starts : cue.action = .noteOn) : (p.afterCue cue).Remembers c n := by
      obtain ⟨rfl, rfl⟩ := same
      exact ⟨cue.voice, Sounding.mem_apply_of_noteOn starts, rfl⟩
    constructor
    · intro ⟨hanging, forgotten⟩
      exact absurd (remembered (hangs.1 hanging)) forgotten
    · intro ⟨_, silent⟩
      exact absurd same (quiet.1 silent)
  · rw [if_neg same] at hangs
    rw [quiet, Forgotten, hangs, remembers_afterCue same]
    exact (and_iff_left same).symm

theorem Onward.forgotten (onward : p.Onward q) :
    q.Forgotten c n ↔ p.Forgotten c n ∧ p.line.Quiet q.line c n := by
  induction onward with
  | refl p => exact (and_iff_left rfl).symm
  | tick _ ih => exact ih
  | @sent p q cue onward ih =>
    rw [ih, forgotten_afterCue, and_assoc, (p.later_recorded _ _ _).quiet_iff onward.later]
    rfl
  | lost _ ih => exact ih

end

/-! ### Releases -/

section

variable {x : Voice × Note} {rest : List (Voice × Note)}

def stuckAt (p : Player) : List (Voice × Note) → Option (Voice × Note)
  | [] => none
  | (voice, note) :: rest =>
    match p.send .noteOff voice note with
    | (true, p) => p.stuckAt rest
    | (false, _) => some (voice, note)

def StuckOn (p : Player) (c : Channel) (n : Note) : Prop :=
  ∃ voice, p.stuckAt p.sounding.reverse = some (voice, n) ∧ p.voicing.channel voice = c

theorem stuckAt_cons (p : Player) (x : Voice × Note) (rest : List (Voice × Note)) :
    p.stuckAt (x :: rest) =
      if p.line.fails p.line.count then some x
      else (p.recorded .noteOff x.1 x.2).stuckAt rest := by
  cases fails : p.line.fails p.line.count <;> simp [stuckAt, send_eq, fails]

theorem releaseFrom_cons (p : Player) (x : Voice × Note) (rest : List (Voice × Note)) :
    p.releaseFrom (x :: rest) =
      if p.line.fails p.line.count then (false, { p.lost with sounding := rest.reverse })
      else (p.recorded .noteOff x.1 x.2).releaseFrom rest := by
  cases fails : p.line.fails p.line.count <;> simp [releaseFrom, send_eq, fails]

theorem later_releaseFrom (p : Player) (notes : List (Voice × Note)) :
    p.line.Later (p.releaseFrom notes).2.line := by
  induction notes generalizing p with
  | nil => exact .refl _
  | cons x rest ih =>
    rw [releaseFrom_cons]
    split
    · exact .lose _
    · exact (p.later_recorded _ _ _).trans (ih _)

theorem remembers_cons :
    { p with sounding := x :: rest }.Remembers c n ↔
      p.voicing.channel x.1 = c ∧ x.2 = n ∨ { p with sounding := rest }.Remembers c n := by
  simp only [Remembers, List.mem_cons, or_and_right, exists_or]
  refine or_congr_left ⟨?_, ?_⟩
  · rintro ⟨voice, rfl, on⟩
    exact ⟨on, rfl⟩
  · rintro ⟨on, rfl⟩
    exact ⟨x.1, rfl, on⟩

theorem remembers_of_releaseFrom {notes : List (Voice × Note)}
    (remembers : (p.releaseFrom notes).2.Remembers c n) :
    { p with sounding := notes }.Remembers c n := by
  induction notes generalizing p with
  | nil => exact remembers
  | cons x rest ih =>
    rw [releaseFrom_cons] at remembers
    rw [remembers_cons]
    split at remembers
    · obtain ⟨voice, held, on⟩ := remembers
      exact .inr ⟨voice, List.mem_reverse.1 held, on⟩
    · exact .inr (ih (p := p.recorded .noteOff x.1 x.2) remembers)

theorem forgotten_ended :
    { p.recorded .noteOff x.1 x.2 with sounding := rest }.Forgotten c n ↔
      { p with sounding := x :: rest }.Forgotten c n ∧
        p.line.Quiet (p.recorded .noteOff x.1 x.2).line c n := by
  have quiet : p.line.Quiet (p.recorded .noteOff x.1 x.2).line c n ↔
      ¬ (p.voicing.channel x.1 = c ∧ x.2 = n) := Line.quiet_record _
  have hangs : (p.recorded .noteOff x.1 x.2).line.Hangs c n ↔
      if p.voicing.channel x.1 = c ∧ x.2 = n then Action.noteOff = .noteOn
      else p.line.Hangs c n := Line.hangs_record _
  rw [quiet, Forgotten, Forgotten, remembers_cons, hangs]
  have remembers : { p.recorded .noteOff x.1 x.2 with sounding := rest }.Remembers c n ↔
      { p with sounding := rest }.Remembers c n := Iff.rfl
  by_cases same : p.voicing.channel x.1 = c ∧ x.2 = n
  · simp [same]
  · simp [same, remembers]

/-- What is forgotten after a release was so before, or the release got stuck at it. -/
theorem forgotten_of_releaseFrom {notes : List (Voice × Note)}
    (forgotten : (p.releaseFrom notes).2.Forgotten c n) :
    (∃ voice, p.stuckAt notes = some (voice, n) ∧ p.voicing.channel voice = c) ∨
      { p with sounding := notes }.Forgotten c n ∧
        p.line.Quiet (p.releaseFrom notes).2.line c n := by
  induction notes generalizing p with
  | nil => exact .inr ⟨forgotten, rfl⟩
  | cons x rest ih =>
    cases fails : p.line.fails p.line.count with
    | true =>
      simp only [releaseFrom_cons, stuckAt_cons, fails, if_true] at forgotten ⊢
      by_cases same : p.voicing.channel x.1 = c ∧ x.2 = n
      · exact .inl ⟨x.1, congrArg (fun m => some (x.1, m)) same.2, same.1⟩
      · refine .inr ⟨⟨forgotten.1, ?_⟩, rfl⟩
        rw [remembers_cons]
        rintro (on | ⟨voice, held, on⟩)
        · exact same on
        · exact forgotten.2 ⟨voice, List.mem_reverse.2 held, on⟩
    | false =>
      simp only [releaseFrom_cons, stuckAt_cons, fails, Bool.false_eq_true, if_false] at forgotten ⊢
      refine (ih forgotten).imp id fun ⟨before, quiet⟩ => ?_
      obtain ⟨before, still⟩ := forgotten_ended.1 before
      exact ⟨before, ((p.later_recorded _ _ _).quiet_iff (later_releaseFrom _ _)).2 ⟨still, quiet⟩⟩

theorem quiet_releaseFrom {notes : List (Voice × Note)}
    (absent : ¬ { p with sounding := notes }.Remembers c n) :
    p.line.Quiet (p.releaseFrom notes).2.line c n := by
  induction notes generalizing p with
  | nil => rfl
  | cons x rest ih =>
    rw [remembers_cons, not_or] at absent
    cases fails : p.line.fails p.line.count with
    | true =>
      simp only [releaseFrom_cons, fails, if_true]
      rfl
    | false =>
      simp only [releaseFrom_cons, fails, Bool.false_eq_true, if_false]
      rw [(p.later_recorded .noteOff x.1 x.2).quiet_iff (later_releaseFrom _ _)]
      exact ⟨(Line.quiet_record _).2 absent.1, ih absent.2⟩

theorem later_releaseAll (p : Player) : p.line.Later p.releaseAll.2.line := later_releaseFrom _ _

theorem remembers_reverse :
    { p with sounding := p.sounding.reverse }.Remembers c n ↔ p.Remembers c n := by
  simp [Remembers]

theorem forgotten_releaseAll :
    p.releaseAll.2.Forgotten c n ↔
      p.StuckOn c n ∧ p.releaseAll.2.Forgotten c n ∨
        p.Forgotten c n ∧ p.line.Quiet p.releaseAll.2.line c n := by
  constructor
  · intro forgotten
    obtain stuck | ⟨before, quiet⟩ := forgotten_of_releaseFrom forgotten
    · exact .inl ⟨stuck, forgotten⟩
    · exact .inr ⟨⟨before.1, before.2 ∘ remembers_reverse.2⟩, quiet⟩
  · rintro (⟨_, forgotten⟩ | ⟨before, quiet⟩)
    · exact forgotten
    · exact ⟨quiet.hangs_iff.2 before.1,
        before.2 ∘ remembers_reverse.1 ∘ remembers_of_releaseFrom⟩

theorem releaseFrom_through {notes : List (Voice × Note)}
    (through : ∀ i, p.line.count ≤ i → i < (p.releaseFrom notes).2.line.count →
      p.line.fails i = false) :
    p.stuckAt notes = none ∧ (p.releaseFrom notes).2.sounding = [] := by
  induction notes generalizing p with
  | nil => exact ⟨rfl, rfl⟩
  | cons x rest ih =>
    cases fails : p.line.fails p.line.count with
    | true =>
      simp only [releaseFrom_cons, fails, if_true] at through
      have sent := through p.line.count (Nat.le_refl _) (Nat.lt_succ_self _)
      exact absurd fails (by simp [sent])
    | false =>
      simp only [releaseFrom_cons, stuckAt_cons, fails, Bool.false_eq_true, if_false] at through ⊢
      apply ih
      intro i late early
      exact through i (Nat.le_of_succ_le late) early

end

/-! ### Steps and runs -/

def releasing? (p : Player) : Step → Option Player
  | .play s =>
    match s.cues with
    | .error _ => some p
    | .ok cues =>
      match (p.perform cues).ending with
      | .failed _ => some (p.perform cues).player
      | .completed | .crashed => none
  | .release => some p

theorem step_cases (p : Player) (a : Step) :
    ∃ q, p.Onward q ∧ (p.releasing? a = some q ∧ p.step a = q.releaseAll.2 ∨
      p.releasing? a = none ∧ p.step a = q) := by
  cases a with
  | release => exact ⟨p, .refl p, .inl ⟨rfl, rfl⟩⟩
  | play s =>
    cases cued : s.cues with
    | error e => exact ⟨p, .refl p, .inl ⟨by simp [releasing?, cued], by simp [step, play, cued]⟩⟩
    | ok cues =>
      refine ⟨(p.perform cues).player, p.onward_perform cues, ?_⟩
      cases ending : (p.perform cues).ending with
      | failed e =>
        exact .inl ⟨by simp [releasing?, cued, ending], by simp [step, play, cued, ending]⟩
      | completed | crashed =>
        exact .inr ⟨by simp [releasing?, cued, ending], by simp [step, play, cued, ending]⟩

/-- In a step the message that ends a note fails, and the note hangs and is forgotten. -/
def Loses (p : Player) (a : Step) (c : Channel) (n : Note) : Prop :=
  (∃ q, p.releasing? a = some q ∧ q.StuckOn c n) ∧ (p.step a).Forgotten c n

theorem later_step (p : Player) (a : Step) : p.line.Later (p.step a).line := by
  obtain ⟨q, onward, ⟨-, released⟩ | ⟨-, performed⟩⟩ := p.step_cases a
  · rw [released]
    exact onward.later.trans (later_releaseAll _)
  · rw [performed]
    exact onward.later

theorem later_run (p : Player) (steps : List Step) : p.line.Later (p.run steps).line := by
  induction steps generalizing p with
  | nil => exact .refl _
  | cons a rest ih => exact (p.later_step a).trans (ih (p.step a))

theorem forgotten_step (p : Player) (a : Step) :
    (p.step a).Forgotten c n ↔
      p.Loses a c n ∨ p.Forgotten c n ∧ p.line.Quiet (p.step a).line c n := by
  obtain ⟨q, onward, ⟨releasing, released⟩ | ⟨releasing, performed⟩⟩ := p.step_cases a
  · have loses : p.Loses a c n ↔ q.StuckOn c n ∧ q.releaseAll.2.Forgotten c n := by
      simp [Loses, releasing, released]
    rw [released, forgotten_releaseAll, ← loses, onward.forgotten, and_assoc,
      ← onward.later.quiet_iff (later_releaseAll _)]
  · have keeps : ¬ p.Loses a c n := by simp [Loses, releasing]
    rw [or_iff_right keeps, performed, onward.forgotten]

def LosesForGood (p : Player) (steps : List Step) (c : Channel) (n : Note) : Prop :=
  ∃ before a after, steps = before ++ a :: after ∧ (p.run before).Loses a c n ∧
    ((p.run before).step a).line.Quiet (p.run steps).line c n

theorem losesForGood_cons (p : Player) (a : Step) (rest : List Step) :
    p.LosesForGood (a :: rest) c n ↔
      p.Loses a c n ∧ (p.step a).line.Quiet ((p.step a).run rest).line c n ∨
        (p.step a).LosesForGood rest c n := by
  constructor
  · rintro ⟨before, b, after, split, loses, quiet⟩
    cases before with
    | nil =>
      obtain ⟨rfl, rfl⟩ := List.cons.inj split
      exact .inl ⟨loses, quiet⟩
    | cons d before =>
      obtain ⟨rfl, rfl⟩ := List.cons.inj split
      exact .inr ⟨before, b, after, rfl, loses, quiet⟩
  · rintro (⟨loses, quiet⟩ | ⟨before, b, after, rfl, loses, quiet⟩)
    · exact ⟨[], a, rest, rfl, loses, quiet⟩
    · exact ⟨a :: before, b, after, rfl, loses, quiet⟩

theorem forgotten_run (p : Player) (steps : List Step) :
    (p.run steps).Forgotten c n ↔
      p.LosesForGood steps c n ∨ p.Forgotten c n ∧ p.line.Quiet (p.run steps).line c n := by
  induction steps generalizing p with
  | nil =>
    have keeps : ¬ p.LosesForGood [] c n := by simp [LosesForGood]
    rw [or_iff_right keeps]
    exact (and_iff_left rfl).symm
  | cons a rest ih =>
    have quiet : p.line.Quiet (p.run (a :: rest)).line c n ↔
        p.line.Quiet (p.step a).line c n ∧
          (p.step a).line.Quiet ((p.step a).run rest).line c n :=
      (p.later_step a).quiet_iff (later_run _ _)
    have run : p.run (a :: rest) = (p.step a).run rest := rfl
    rw [losesForGood_cons, quiet, run, ih, forgotten_step]
    tauto

theorem hangs_close (through : ∀ i, p.line.count ≤ i → i < p.close.2.line.count →
    p.line.fails i = false) : p.close.2.line.Hangs c n ↔ p.Forgotten c n := by
  obtain ⟨free, silent⟩ := releaseFrom_through through
  have unremembered : ¬ p.close.2.Remembers c n := by simp [Remembers, close, releaseAll, silent]
  have forgotten : p.close.2.line.Hangs c n ↔ p.close.2.Forgotten c n :=
    (and_iff_left unremembered).symm
  have stays : p.Forgotten c n → p.line.Quiet p.releaseAll.2.line c n := fun lost =>
    quiet_releaseFrom (lost.2 ∘ remembers_reverse.1)
  have unstuck : ¬ p.StuckOn c n := by simp [StuckOn, free]
  rw [forgotten, close, forgotten_releaseAll, or_iff_right fun stuck => unstuck stuck.1]
  exact and_iff_left_of_imp stays

end Player

/-- After a player is put away a note hangs just if it was lost for good before. -/
theorem hangs_close_iff_losesForGood {voicing : Voicing} {fails : Nat → Bool} {delay : Float}
    {clock : Clock} {steps : List Step}
    (through : ∀ i, ((Player.ofLine voicing { fails } delay clock).run steps).line.count ≤ i →
      i < ((Player.ofLine voicing { fails } delay clock).run steps).close.2.line.count →
      fails i = false) (c : Channel) (n : Note) :
    ((Player.ofLine voicing { fails } delay clock).run steps).close.2.line.Hangs c n ↔
      (Player.ofLine voicing { fails } delay clock).LosesForGood steps c n := by
  have unchanged := (Player.later_run (Player.ofLine voicing { fails } delay clock) steps).fails
  have silent : ¬ (Player.ofLine voicing { fails } delay clock).Forgotten c n := fun lost =>
    absurd lost.1 (by simp [Player.ofLine, Line.Hangs, Line.messagesOn])
  rw [Player.hangs_close, Player.forgotten_run, or_iff_left fun forgotten => silent forgotten.1]
  rw [unchanged]
  exact through

namespace Teardown

def fails (i : Nat) : Bool := i == 3 || i == 4

def steps : List Step :=
  [.play ((Program.read "setTempo 240000\nchord G4 major 1m").place .standard .measureAligned)]

theorem through_close (i : Nat)
    (late : ((Player.ofLine {} { fails } 0).run steps).line.count ≤ i)
    (_ : i < ((Player.ofLine {} { fails } 0).run steps).close.2.line.count) : fails i = false := by
  have count : ((Player.ofLine {} { fails } 0).run steps).line.count = 5 := by decide +kernel
  have three : i ≠ 3 := by omega
  have four : i ≠ 4 := by omega
  simp [fails, three, four]

theorem hangs_after : ((Player.ofLine {} { fails } 0).run steps).close.2.line.Hangs 0 74 := by
  decide +kernel

theorem losesForGood_fails :
    (∀ i, ((Player.ofLine {} { fails } 0).run steps).line.count ≤ i →
      i < ((Player.ofLine {} { fails } 0).run steps).close.2.line.count → fails i = false) ∧
      (Player.ofLine {} { fails } 0).LosesForGood steps 0 74 :=
  ⟨through_close, (hangs_close_iff_losesForGood through_close 0 74).1 hangs_after⟩

theorem not_forall_not_hangs_close :
    ¬ ∀ (voicing : Voicing) (fails : Nat → Bool) (delay : Float) (steps : List Step),
      (∀ i, ((Player.ofLine voicing { fails } delay).run steps).line.count ≤ i →
        i < ((Player.ofLine voicing { fails } delay).run steps).close.2.line.count →
        fails i = false) →
      ∀ c n, ¬ ((Player.ofLine voicing { fails } delay).run steps).close.2.line.Hangs c n := by
  intro safe
  exact safe {} fails 0 steps through_close 0 74 hangs_after

end Teardown

end ChordScript.Midi
