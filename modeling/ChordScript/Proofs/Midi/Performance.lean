import ChordScript.Proofs.Cue.Balance
import ChordScript.Proofs.Midi.Clock
import ChordScript.Proofs.Midi.Teardown
import ChordScript.Proofs.Midi.Wire

/-!
# Performances

As long as messages get through and the clock has an instant for every cue, a performance sends one
message for each of them and remembers what they leave sounding. Main statements: `run_plays_cues`
for performances that come to their end and `play_of_failed_send` for one that does not.
-/

namespace ChordScript.Midi

open Binary

namespace Line

variable {l : Line} {m n : Nat}

def Clear (l : Line) (n : Nat) : Prop := ∀ i, l.count ≤ i → i < l.count + n → l.fails i = false

def recordAll (l : Line) (messages : List Message) : Line :=
  { l with count := l.count + messages.length, sent := l.sent ++ messages }

@[simp] theorem recordAll_nil (l : Line) : l.recordAll [] = l := by
  simp [recordAll]

theorem recordAll_cons (l : Line) (m : Message) (rest : List Message) :
    l.recordAll (m :: rest) = (l.record m).recordAll rest := by
  simp [recordAll, record, Nat.add_comm, Nat.add_left_comm]

theorem recordAll_append (l : Line) (a b : List Message) :
    l.recordAll (a ++ b) = (l.recordAll a).recordAll b := by
  simp [recordAll, Nat.add_assoc]

theorem Clear.head (clear : l.Clear (n + 1)) : l.fails l.count = false :=
  clear _ (Nat.le_refl _) (by omega)

theorem clear_add {messages : List Message} (length : messages.length = m) :
    l.Clear (m + n) ↔ l.Clear m ∧ (l.recordAll messages).Clear n := by
  simp only [Clear, recordAll, length]
  constructor
  · intro clear
    exact ⟨fun i lo hi => clear i lo (by omega), fun i lo hi => clear i (by omega) (by omega)⟩
  · intro ⟨first, second⟩ i lo hi
    rcases Nat.lt_or_ge i (l.count + m) with before | after
    · exact first i lo before
    · exact second i after (by omega)

theorem Clear.tail (clear : l.Clear (n + 1)) (message : Message) : (l.record message).Clear n := by
  have one : [message].length = 1 := rfl
  exact ((clear_add one).1 (Nat.add_comm n 1 ▸ clear)).2

end Line

namespace Sounding

theorem coe_apply (s : Sounding) (c : Cue Float) :
    (s.apply c : Multiset (Voice × Note)) = Cue.balance s c := by
  rw [apply, Cue.balance]
  cases c.action with
  | noteOn => exact Multiset.coe_eq_coe.2 (List.perm_append_singleton _ _)
  | noteOff =>
    have same : (instBEqProd : BEq (Voice × Note)) = instBEqOfDecidableEq :=
      lawful_beq_subsingleton _ _
    exact Multiset.coe_eq_coe.2 (same ▸ stop_perm)

theorem coe_foldl_apply (s : Sounding) (cues : List (Cue Float)) :
    ((cues.foldl apply s : Sounding) : Multiset (Voice × Note)) = cues.foldl Cue.balance s := by
  induction cues generalizing s with
  | nil => rfl
  | cons c cues ih => rw [List.foldl_cons, List.foldl_cons, ih, coe_apply]

end Sounding

def Voicing.ending (v : Voicing) (x : Voice × Note) : Message := v.message .noteOff x.1 x.2

namespace Player

variable {p : Player} {s : Schedule Float}

def afterCues (p : Player) (cues : List (Cue Float)) : Player :=
  { p with
    line := p.line.recordAll (cues.map p.voicing.cueMessage)
    sounding := cues.foldl Sounding.apply p.sounding }

theorem afterCues_append (p : Player) (a b : List (Cue Float)) :
    p.afterCues (a ++ b) = (p.afterCues a).afterCues b := by
  simp [afterCues, Line.recordAll_append]

theorem afterCues_cons (p : Player) (c : Cue Float) (cues : List (Cue Float)) :
    p.afterCues (c :: cues) = (p.afterCue c).afterCues cues := by
  simp only [afterCues, List.map_cons, Line.recordAll_cons]
  rfl

/-! ### How a performance ends -/

section

variable {start : Nat} {a b cues before after : List (Cue Float)} {c : Cue Float}

def Due (p : Player) (start : Nat) (cues : List (Cue Float)) : Prop :=
  ∀ c ∈ cues, p.clock.after? start c.time ≠ none

def OnTime (p : Player) (cues : List (Cue Float)) : Prop :=
  ∃ start, p.start? = some start ∧ p.Due start cues

/-- The message for the cue is sent, and it is the first that fails. -/
structure FirstToFail (p : Player) (before : List (Cue Float)) (c : Cue Float) : Prop where
  onTime : p.OnTime (before ++ [c])
  clear : p.line.Clear before.length
  fails : p.line.fails (p.line.count + before.length) = true

/-- The clock has no instant to begin at, or none for a cue that the performance gets to. -/
def Stranded (p : Player) (cues : List (Cue Float)) : Prop :=
  ¬ p.OnTime [] ∨ ∃ before c after, cues = before ++ c :: after ∧ p.OnTime before ∧
    ¬ p.OnTime (before ++ [c]) ∧ p.line.Clear before.length

theorem onTime_nil : p.OnTime [] ↔ p.start? ≠ none := by
  simp [OnTime, Due, Option.ne_none_iff_exists']

theorem onTime_iff_due (started : p.start? = some start) : p.OnTime cues ↔ p.Due start cues := by
  simp [OnTime, started]

theorem due_iff : p.Due start cues ↔ ∀ c ∈ cues,
    Waitable c.time ∧ start + halfEven (value c.time * 10 ^ 9) ≤ p.clock.last :=
  forall₂_congr fun _ _ => Clock.after?_ne_none_iff

theorem onTime_iff : p.OnTime cues ↔ ∃ start : Nat, (Waitable p.delay ∧
    (start : Int) = p.clock.now + halfEven (value p.delay * 10 ^ 9) ∧ start ≤ p.clock.last) ∧
      ∀ c ∈ cues, Waitable c.time ∧ start + halfEven (value c.time * 10 ^ 9) ≤ p.clock.last := by
  simp only [OnTime, start?, Clock.after?_eq_some_iff, due_iff]

theorem due_append : p.Due start (a ++ b) ↔ p.Due start a ∧ p.Due start b := List.forall_mem_append

theorem OnTime.of_append (onTime : p.OnTime (a ++ b)) : p.OnTime a := by
  obtain ⟨start, started, due⟩ := onTime
  exact ⟨start, started, (due_append.1 due).1⟩

theorem performFrom_append (due : p.Due start a) (clear : p.line.Clear a.length)
    (b : List (Cue Float)) :
    p.performFrom start (a ++ b) =
      { (p.afterCues a).performFrom start b with
        begun := ((p.afterCues a).performFrom start b).begun + a.length } := by
  induction a generalizing p with
  | nil => simp [afterCues]
  | cons c a ih =>
    obtain ⟨head, due⟩ := List.forall_mem_cons.1 due
    rw [List.cons_append, performFrom_cons, if_neg head, if_neg (by simp [clear.head]),
      ih (p := p.afterCue c) due (clear.tail _), afterCues_cons]
    rfl

theorem perform_of_clear (onTime : p.OnTime cues) (clear : p.line.Clear cues.length) :
    p.perform cues = ⟨cues.length, .completed, p.tick.afterCues cues⟩ := by
  obtain ⟨start, started, due⟩ := onTime
  have performed := performFrom_append (p := p.tick) due clear []
  rw [List.append_nil] at performed
  simp [perform, started, performed, performFrom]

theorem perform_of_lost (first : p.FirstToFail before c) :
    p.perform (before ++ c :: after) =
      ⟨before.length + 1, .failed .sendFailed, (p.tick.afterCues before).lost⟩ := by
  obtain ⟨⟨start, started, due⟩, clear, fails⟩ := first
  obtain ⟨due, last⟩ := due_append.1 due
  have failed : (p.tick.afterCues before).line.fails (p.tick.afterCues before).line.count = true := by
    simpa [tick, afterCues, Line.recordAll] using fails
  have last : (p.tick.afterCues before).clock.after? start c.time ≠ none :=
    last c (List.mem_singleton_self c)
  have performed := performFrom_append (p := p.tick) due clear (c :: after)
  rw [performFrom_cons, if_neg last, if_pos failed] at performed
  simp [perform, started, performed, Nat.add_comm]

theorem perform_of_late (onTime : p.OnTime before) (late : ¬ p.OnTime (before ++ [c]))
    (clear : p.line.Clear before.length) :
    p.perform (before ++ c :: after) = ⟨before.length, .crashed, p.tick.afterCues before⟩ := by
  obtain ⟨start, started, due⟩ := onTime
  rw [onTime_iff_due started, due_append, and_iff_right due] at late
  have last : (p.tick.afterCues before).clock.after? start c.time = none := by
    by_contra timely
    exact late (List.forall_mem_singleton.2 timely)
  have performed := performFrom_append (p := p.tick) due clear (c :: after)
  rw [performFrom_cons, if_pos last] at performed
  simp [perform, started, performed]

theorem perform_of_not_started (never : ¬ p.OnTime []) (cues : List (Cue Float)) :
    p.perform cues = ⟨0, .crashed, p.tick⟩ := by
  rw [onTime_nil, not_not] at never
  rw [perform, never]

theorem performance_cases (p : Player) (cues : List (Cue Float)) :
    p.OnTime cues ∧ p.line.Clear cues.length ∨ p.Stranded cues ∨
      ∃ before c after, cues = before ++ c :: after ∧ p.FirstToFail before c := by
  induction cues using List.reverseRecOn with
  | nil =>
    by_cases onTime : p.OnTime []
    · exact .inl ⟨onTime, fun i lo hi => absurd hi lo.not_gt⟩
    · exact .inr (.inl (.inl onTime))
  | append_singleton cues c ih =>
    obtain ⟨onTime, clear⟩ | stranded | ⟨before, d, after, rfl, first⟩ := ih
    · by_cases timely : p.OnTime (cues ++ [c])
      · cases fails : p.line.fails (p.line.count + cues.length) with
        | true => exact .inr (.inr ⟨cues, c, [], rfl, timely, clear, fails⟩)
        | false =>
          refine .inl ⟨timely, fun i lo hi => ?_⟩
          rw [List.length_append, List.length_singleton] at hi
          rcases (show i < p.line.count + cues.length ∨ i = p.line.count + cues.length by omega)
            with before | rfl
          · exact clear i lo before
          · exact fails
      · exact .inr (.inl (.inr ⟨cues, c, [], rfl, onTime, timely, clear⟩))
    · refine .inr (.inl (stranded.imp_right ?_))
      rintro ⟨before, d, after, rfl, late⟩
      exact ⟨before, d, after ++ [c], by simp, late⟩
    · exact .inr (.inr ⟨before, d, after ++ [c], by simp, first⟩)

theorem play_of_clear (cued : s.cues = .ok cues) (onTime : p.OnTime cues)
    (clear : p.line.Clear cues.length) :
    p.play s = ⟨.completed, cues, false, p.tick.afterCues cues⟩ := by
  simp [play, cued, perform_of_clear onTime clear]

theorem play_of_lost (cued : s.cues = .ok (before ++ c :: after)) (first : p.FirstToFail before c) :
    p.play s =
      ⟨.failed .sendFailed, before ++ [c], !(p.tick.afterCues before).lost.releaseAll.1,
        (p.tick.afterCues before).lost.releaseAll.2⟩ := by
  simp [play, cued, perform_of_lost first, List.take_length_add_append]

theorem play_of_stranded (cued : s.cues = .ok cues) (stranded : p.Stranded cues) :
    ∃ before, before <+: cues ∧ p.play s = ⟨.crashed, before, false, p.tick.afterCues before⟩ := by
  obtain never | ⟨before, c, after, rfl, onTime, late, clear⟩ := stranded
  · exact ⟨[], List.nil_prefix, by simp [play, cued, perform_of_not_started never, afterCues]⟩
  · exact ⟨before, List.prefix_append _ _, by simp [play, cued, perform_of_late onTime late clear]⟩

theorem play_completed_iff (cued : s.cues = .ok cues) :
    (p.play s).ending = .completed ↔ p.OnTime cues ∧ p.line.Clear cues.length := by
  constructor
  · intro completed
    obtain fine | stranded | ⟨before, c, after, rfl, first⟩ := p.performance_cases cues
    · exact fine
    · obtain ⟨before, -, played⟩ := play_of_stranded cued stranded
      simp [played] at completed
    · simp [play_of_lost cued first] at completed
  · rintro ⟨onTime, clear⟩
    rw [play_of_clear cued onTime clear]

theorem play_crashed_iff (cued : s.cues = .ok cues) :
    (p.play s).ending = .crashed ↔ p.Stranded cues := by
  constructor
  · intro crashed
    obtain ⟨onTime, clear⟩ | stranded | ⟨before, c, after, rfl, first⟩ := p.performance_cases cues
    · simp [play_of_clear cued onTime clear] at crashed
    · exact stranded
    · simp [play_of_lost cued first] at crashed
  · intro stranded
    obtain ⟨before, -, played⟩ := play_of_stranded cued stranded
    rw [played]

end

theorem close_of_silent (silent : p.sounding = []) : p.close = (true, p) := by
  cases p
  cases silent
  rfl

def playAll (p : Player) : List (Schedule Float) → List Played
  | [] => []
  | s :: rest => p.play s :: (p.play s).player.playAll rest

/-- The instants at which the clock lets the next performances begin. -/
def BeginsAt (p : Player) : List Nat → Prop
  | [] => True
  | start :: starts => p.start? = some start ∧ p.tick.BeginsAt starts

theorem beginsAt_afterCues (p : Player) (a : List (Cue Float)) (starts : List Nat) :
    (p.afterCues a).BeginsAt starts ↔ p.BeginsAt starts := by
  induction starts generalizing p with
  | nil => exact Iff.rfl
  | cons start starts ih => exact and_congr Iff.rfl (ih p.tick)

section

variable {schedules : List (Schedule Float)} {cues : List (List (Cue Float))} {starts : List Nat}
  (cued : List.Forall₂ (fun s c => s.cues = .ok c) schedules cues)

include cued

theorem completed_playAll_iff (begins : p.BeginsAt starts)
    (each : starts.length = schedules.length) (clear : p.line.Clear cues.flatten.length) :
    (∀ played ∈ p.playAll schedules, played.ending = .completed) ↔
      List.Forall₂ p.Due starts cues := by
  induction cued generalizing p starts with
  | nil => simp [playAll, List.length_eq_zero_iff.1 each]
  | @cons s c schedules cues head rest ih =>
    obtain ⟨start, starts, rfl⟩ := List.exists_cons_of_length_eq_add_one each
    obtain ⟨started, begins⟩ := begins
    rw [List.flatten_cons, List.length_append] at clear
    obtain ⟨first, others⟩ := (Line.clear_add (List.length_map _)).1 clear
    rw [playAll, List.forall_mem_cons, play_completed_iff head, and_iff_left first,
      onTime_iff_due started, List.forall₂_cons]
    refine and_congr_right fun due => ?_
    rw [play_of_clear head ((onTime_iff_due started).2 due) first]
    exact ih (p := p.tick.afterCues c) ((beginsAt_afterCues _ _ _).2 begins)
      (Nat.succ.inj each) others

theorem run_plays_of_clear (begins : p.BeginsAt starts) (clear : p.line.Clear cues.flatten.length)
    (timely : List.Forall₂ p.Due starts cues) :
    ∃ clock, p.run (schedules.map .play) = { p.afterCues cues.flatten with clock } := by
  induction cued generalizing p starts with
  | nil => exact ⟨p.clock, by simp [run, afterCues]⟩
  | @cons s c schedules cues head rest ih =>
    obtain _ | ⟨due, timely⟩ := timely
    obtain ⟨started, begins⟩ := begins
    rw [List.flatten_cons, List.length_append] at clear
    obtain ⟨first, others⟩ := (Line.clear_add (List.length_map _)).1 clear
    obtain ⟨clock, ran⟩ :=
      ih (p := p.tick.afterCues c) ((beginsAt_afterCues _ _ _).2 begins) others timely
    refine ⟨clock, ?_⟩
    have played : p.step (.play s) = p.tick.afterCues c := by
      rw [step, play_of_clear head ((onTime_iff_due started).2 due) first]
    rw [List.map_cons, List.flatten_cons, afterCues_append]
    exact (congrArg (run · (schedules.map .play)) played).trans ran

theorem foldl_balance_flatten (timed : ∀ s ∈ schedules, s.IsTimed)
    (lasting : ∀ s ∈ schedules, s.Lasting) (sounding : Multiset (Voice × Note)) :
    cues.flatten.foldl Cue.balance sounding = sounding := by
  induction cued with
  | nil => rfl
  | cons head rest ih =>
    obtain ⟨timed_head, timed⟩ := List.forall_mem_cons.1 timed
    obtain ⟨lasting_head, lasting⟩ := List.forall_mem_cons.1 lasting
    rw [List.flatten_cons, List.foldl_append,
      Schedule.foldl_balance_cues timed_head lasting_head head, ih timed lasting]

/-- Performances that begin, and whose messages get through, are completed just if the clock has an
instant for each of their cues. Then they send their cues, three bytes each, which can be read back.
If every audible event lasts, what sounds in the end is what sounded before, and where nothing did
there is nothing to release. -/
theorem run_plays_cues {channel : Voice → Nat} {velocity : Nat}
    (configured : Configured p.voicing channel velocity) (begins : p.BeginsAt starts)
    (each : starts.length = schedules.length) (clear : p.line.Clear cues.flatten.length) :
    ((∀ played ∈ p.playAll schedules, played.ending = .completed) ↔
        List.Forall₂ p.Due starts cues) ∧
      (List.Forall₂ p.Due starts cues →
        (p.run (schedules.map .play)).line.sent.map Message.bytes =
            p.line.sent.map Message.bytes ++ cues.flatten.map (cueBytes channel velocity) ∧
          ((∀ s ∈ schedules, s.IsTimed ∧ s.Lasting) →
            (p.run (schedules.map .play)).sounding.Perm p.sounding ∧
              (p.sounding = [] →
                (p.run (schedules.map .play)).close = (true, p.run (schedules.map .play))))) ∧
      ∀ c ∈ cues.flatten,
        Message.ofBytes? (cueBytes channel velocity c) = some (p.voicing.cueMessage c) ∧
          ∀ byte ∈ (cueBytes channel velocity c).tail, byte < 128 := by
  refine ⟨completed_playAll_iff cued begins each clear, fun timely => ?_, fun c _ => ?_⟩
  · obtain ⟨clock, ran⟩ := run_plays_of_clear cued begins clear timely
    constructor
    · simp [ran, afterCues, Line.recordAll, Function.comp_def, Voicing.bytes_cueMessage configured]
    · intro good
      have kept : (p.run (schedules.map .play)).sounding.Perm p.sounding := by
        rw [← Multiset.coe_eq_coe, ran, afterCues, Sounding.coe_foldl_apply]
        exact foldl_balance_flatten cued (fun s hs => (good s hs).1) (fun s hs => (good s hs).2) _
      refine ⟨kept, fun silent => close_of_silent ?_⟩
      rw [silent] at kept
      exact kept.eq_nil
  · rw [← Voicing.bytes_cueMessage configured]
    exact ⟨Message.ofBytes?_bytes _, Message.data_lt _⟩

end

def refrain : Schedule Float :=
  (Program.read "chord A2 minor 2m\nchord A2 minor 1m").place .standard .measureAligned

def refrainCues : List (Cue Float) := refrain.cues.toOption.getD []

def countedFromOne : Voice → Nat
  | .lead => 1
  | .bass => 2

def soundless : Player := ofLine Settings.standard.midi.voicing { fails := fun _ => false } 0

theorem run_plays_cues_refrain :
    List.Forall₂ (fun s c => s.cues = .ok c) [refrain, refrain] [refrainCues, refrainCues] ∧
      refrainCues.length = 16 ∧ Configured soundless.voicing countedFromOne 100 ∧
      soundless.BeginsAt [0, 0] ∧ soundless.line.Clear [refrainCues, refrainCues].flatten.length ∧
      (∀ s ∈ [refrain, refrain], s.IsTimed ∧ s.Lasting) ∧
      (∀ played ∈ soundless.playAll [refrain, refrain], played.ending = .completed) ∧
      (soundless.run ([refrain, refrain].map .play)).line.sent.map Message.bytes =
        soundless.line.sent.map Message.bytes ++
          [refrainCues, refrainCues].flatten.map (cueBytes countedFromOne 100) ∧
      (soundless.run ([refrain, refrain].map .play)).close =
        (true, soundless.run ([refrain, refrain].map .play)) := by
  have cued : refrain.cues = .ok refrainCues := by decide +kernel
  have both : List.Forall₂ (fun s c => s.cues = .ok c) [refrain, refrain]
      [refrainCues, refrainCues] := .cons cued (.cons cued .nil)
  have configured : Configured soundless.voicing countedFromOne 100 :=
    ⟨fun voice => by cases voice <;> rfl, rfl⟩
  have good : refrain.IsTimed ∧ refrain.Lasting := by
    unfold Schedule.IsTimed Schedule.Lasting
    decide +kernel
  have all : ∀ s ∈ [refrain, refrain], s.IsTimed ∧ s.Lasting := by simp [good]
  have clear : soundless.line.Clear [refrainCues, refrainCues].flatten.length :=
    fun _ _ _ => rfl
  have begins : soundless.BeginsAt [0, 0] := ⟨by decide +kernel, by decide +kernel, trivial⟩
  have due : soundless.Due 0 refrainCues := by
    unfold Due
    decide +kernel
  have timely : List.Forall₂ soundless.Due [0, 0] [refrainCues, refrainCues] :=
    .cons due (.cons due .nil)
  obtain ⟨completed, played, -⟩ := run_plays_cues both configured begins rfl clear
  obtain ⟨sent, kept⟩ := played timely
  exact ⟨both, by decide +kernel, configured, begins, clear, all, completed.2 timely, sent,
    (kept all).2 rfl⟩

/-- Its note begins one second before the performance. -/
def upbeat : Schedule Float where
  discipline := .sequential
  events := [.note .lead ⟨.c, 4⟩ (-1) 0.5]
  finalCursor := 0
  diagnostics := []

theorem not_forall_completed :
    ¬ ∀ (p : Player) (s : Schedule Float) (cues : List (Cue Float)), s.IsTimed → s.cues = .ok cues →
      p.line.Clear cues.length → (p.play s).ending = .completed := by
  intro completed
  have timed : upbeat.IsTimed := by
    unfold Schedule.IsTimed
    decide +kernel
  have cued : upbeat.cues = .ok [⟨-1, .noteOn, .lead, 60⟩, ⟨-0.5, .noteOff, .lead, 60⟩] := by
    decide +kernel
  have crashed : (soundless.play upbeat).ending = .crashed := by decide +kernel
  have fine := completed soundless upbeat _ timed cued fun _ _ _ => rfl
  rw [crashed] at fine
  cases fine

def interrupted : Player :=
  { soundless with line := { fails := (· == 4) }, sounding := [(.lead, ⟨60, by decide⟩)] }

end Player

end ChordScript.Midi
