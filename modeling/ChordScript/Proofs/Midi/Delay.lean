import ChordScript.Proofs.Midi.Clock
import ChordScript.Proofs.Midi.Teardown
import ChordScript.Proofs.Settings.Reading

namespace ChordScript

open Binary

def Overlong (x : Float) : Prop := x.isFinite = true ∧ 2 ^ 64 ≤ value x

namespace Midi.Player

variable {x : Float}

theorem usableDelay_of_not_finite (h : x.isFinite = false) : usableDelay x = 0 := by
  rw [usableDelay, h]
  rfl

theorem usableDelay_of_finite (h : x.isFinite = true) :
    usableDelay x = if 0 < value x then x else 0 := by
  have number : Seconds.isNaN (0 : Float) = false := rfl
  simp only [usableDelay, h, if_true, Seconds.later, number, Seconds.lt_float, (sign_iff h).2,
    Bool.false_or, decide_eq_true_eq]

theorem isFinite_usableDelay (x : Float) : (usableDelay x).isFinite = true := by
  cases h : x.isFinite with
  | false =>
    rw [usableDelay_of_not_finite h]
    rfl
  | true =>
    rw [usableDelay_of_finite h]
    split
    · exact h
    · rfl

theorem value_zero : value 0 = 0 := by decide +kernel

theorem value_usableDelay (h : x.isFinite = true) : value (usableDelay x) = max (value x) 0 := by
  rw [usableDelay_of_finite h]
  split
  · rename_i pos
    exact (max_eq_left pos.le).symm
  · rename_i nonpos
    rw [value_zero, max_eq_right (not_lt.1 nonpos)]

theorem usableDelay_beq (h : x.isFinite = true) (nonneg : 0 ≤ value x) :
    (usableDelay x == x) = true := by
  have number := isNaN_of_isFinite h
  rw [usableDelay_of_finite h]
  split
  · exact (beq_iff number number).2 rfl
  · rename_i past
    have zero : (0 : Float).isNaN = false := by decide +kernel
    have above : ¬ x < 0 := (sign_iff h).1.not.2 nonneg.not_gt
    have below : ¬ 0 < x := (sign_iff h).2.not.2 past
    rw [lt_iff number zero, not_lt] at above
    rw [lt_iff zero number, not_lt] at below
    exact (beq_iff zero number).2 (le_antisymm above below)

theorem nonneg_usableDelay (x : Float) : 0 ≤ value (usableDelay x) := by
  cases h : x.isFinite with
  | false =>
    rw [usableDelay_of_not_finite h, value_zero]
  | true =>
    rw [value_usableDelay h]
    exact le_max_right _ _

theorem waitable_usableDelay_iff : Waitable (usableDelay x) ↔ ¬ Overlong x := by
  cases h : x.isFinite with
  | false =>
    have short : value (usableDelay x) < 2 ^ 64 := by
      rw [usableDelay_of_not_finite h, value_zero]
      exact pow_pos two_pos 64
    refine iff_of_true ⟨isFinite_usableDelay x, nonneg_usableDelay x, short⟩ fun long => ?_
    rw [long.1] at h
    cases h
  | true =>
    have kept := value_usableDelay h
    constructor
    · rintro ⟨-, -, counted⟩ ⟨-, long⟩
      rw [kept] at counted
      exact ((le_max_left _ _).trans_lt counted).not_ge long
    · intro short
      refine ⟨isFinite_usableDelay x, nonneg_usableDelay x, ?_⟩
      rw [kept]
      exact max_lt (not_le.1 fun long => short ⟨h, long⟩) (pow_pos two_pos 64)

theorem Onward.delay {p q : Player} (onward : p.Onward q) : q.delay = p.delay := by
  induction onward with
  | refl p => rfl
  | tick _ ih => exact ih
  | sent cue _ ih => exact ih
  | lost _ ih => exact ih

theorem delay_releaseFrom (p : Player) (notes : List (Voice × Note)) :
    (p.releaseFrom notes).2.delay = p.delay := by
  induction notes generalizing p with
  | nil => rfl
  | cons x rest ih =>
    rw [releaseFrom_cons]
    split
    · rfl
    · exact ih (p.recorded .noteOff x.1 x.2)

theorem delay_step (p : Player) (a : Step) : (p.step a).delay = p.delay := by
  obtain ⟨q, onward, ⟨-, released⟩ | ⟨-, performed⟩⟩ := p.step_cases a
  · rw [released, releaseAll, delay_releaseFrom, onward.delay]
  · rw [performed, onward.delay]

theorem delay_run (p : Player) (steps : List Step) : (p.run steps).delay = p.delay := by
  induction steps generalizing p with
  | nil => rfl
  | cons a rest ih =>
    change ((p.step a).run rest).delay = p.delay
    rw [ih, delay_step]

end Midi.Player

namespace Midi

open Player

/-- A player that is given a delay keeps one that is finite and not negative, through all that it
does, and it can be waited for unless the given one is finite and too long. What settings give is
kept with its value, and can be waited for if it is not too long. -/
theorem waitable_delay_iff (voicing : Voicing) (line : Line) (clock : Clock) (steps : List Step) :
    (∀ x : Float,
      let kept := ((ofLine voicing line x clock).run steps).delay
      kept.isFinite = true ∧ 0 ≤ value kept ∧ (Waitable kept ↔ ¬ Overlong x)) ∧
    ∀ (yaml : String) (settings : Settings), Settings.read yaml = .ok settings →
      let given := settings.playback.startDelay
      let kept := ((ofLine voicing line given clock).run steps).delay
      given.isFinite = true ∧ value kept = value given ∧
        (Waitable kept ↔ value given < 2 ^ 64) := by
  have kept (x : Float) : ((ofLine voicing line x clock).run steps).delay = usableDelay x :=
    delay_run (ofLine voicing line x clock) steps
  simp only [kept]
  refine ⟨fun x => ?_, fun yaml settings read => ?_⟩
  · exact ⟨isFinite_usableDelay x, nonneg_usableDelay x, waitable_usableDelay_iff⟩
  · obtain ⟨finite, nonneg⟩ := Settings.startDelay_of_read read
    refine ⟨finite, ?_, ?_⟩
    · rw [value_usableDelay finite, max_eq_left nonneg]
    · rw [waitable_usableDelay_iff, Overlong, and_iff_right finite, not_le]

namespace Delay

def delayed (x : Float) : Settings := { Settings.standard with playback := ⟨x⟩ }

def quarter : Settings := delayed 0.25

def line : Line := { fails := fun _ => false }

theorem waitable_delay_quarter :
    Settings.read "playback: {start_delay: 0.25}" = .ok quarter ∧
      Waitable ((ofLine quarter.midi.voicing line quarter.playback.startDelay).run [.release]).delay := by
  have accepted : Settings.read "playback: {start_delay: 0.25}" = .ok quarter := by decide +kernel
  have short : value quarter.playback.startDelay < 2 ^ 64 := by decide +kernel
  obtain ⟨-, -, waitable⟩ :=
    (waitable_delay_iff quarter.midi.voicing line {} [.release]).2 _ quarter accepted
  exact ⟨accepted, waitable.2 short⟩

def endless : Settings := delayed 1e20

theorem not_forall_waitable :
    ¬ ∀ (yaml : String) (settings : Settings), Settings.read yaml = .ok settings →
      ∀ line : Line,
        Waitable (ofLine settings.midi.voicing line settings.playback.startDelay).delay := by
  intro waitable
  have accepted : Settings.read "playback: {start_delay: 1e20}" = .ok endless := by decide +kernel
  have long : ¬ value (usableDelay endless.playback.startDelay) < 2 ^ 64 := by decide +kernel
  exact long (waitable _ endless accepted line).counted

end Delay

end Midi

end ChordScript
