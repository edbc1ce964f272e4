import ChordScript.Proofs.Midi.Performance
import ChordScript.Proofs.Schedule.Magnitude

namespace ChordScript

open Binary

theorem placed_of_compile {text : String} {context : Context} {s : Schedule Float}
    (h : compile text context = .ok s) {e : Event Float} (he : e ∈ s.events) : e.Placed := by
  obtain ⟨placed, scheduled, rfl⟩ := compile_eq_ok.1 h
  exact Schedule.placed_of_schedule scheduled he

/-- In a schedule that comes about an event lasts unless its length goes under, which a length of
more than `2 ^ -53` of the start never does. Just then its notes are started before they are ended,
and if all audible events last, a performance leaves nothing sounding. -/
theorem compile_lasting {text : String} {context : Context} {s : Schedule Float}
    (compiled : compile text context = .ok s) :
    (∀ e ∈ s.events, ¬ e.finish < e.start ∧ (e.start < e.finish ↔ ¬ e.Vanishes) ∧
      (value e.start < 2 ^ 53 * value e.duration → ¬ e.Vanishes)) ∧
      ∀ cues, s.cues = .ok cues →
        (∀ e ∈ s.events, ∀ n ∈ e.notes,
          (Cue.Precedes cues ⟨e.start, .noteOn, e.voice, n⟩ ⟨e.finish, .noteOff, e.voice, n⟩ ↔
            ¬ e.Vanishes)) ∧
        ((∀ e ∈ s.events, e.isAudible → ¬ e.Vanishes) →
          ∀ p : Midi.Player, p.sounding = [] →
            ((p.play s).ending = .completed ↔ p.OnTime cues ∧ p.line.Clear cues.length) ∧
              ((p.play s).ending = .completed → (p.play s).player.sounding = [])) := by
  have placed : ∀ e ∈ s.events, e.Placed := fun e he => placed_of_compile compiled he
  have timed := Schedule.isTimed_of_placed placed
  refine ⟨?_, ?_⟩
  · intro e he
    exact ⟨(placed e he).not_finish_lt_start, (placed e he).start_lt_finish_iff,
      (placed e he).not_vanishes_of_lt⟩
  · intro cues cued
    refine ⟨?_, ?_⟩
    · intro e he n hn
      obtain ⟨on, off⟩ := Schedule.cues_of_mem_notes cued he hn
      rw [(Schedule.precedes_iff timed cued off on rfl rfl).2]
      exact (placed e he).start_lt_finish_iff
    · intro lasting p silent
      refine ⟨Midi.Player.play_completed_iff cued, fun completed => ?_⟩
      obtain ⟨onTime, clear⟩ := (Midi.Player.play_completed_iff cued).1 completed
      have lasts : s.Lasting := fun e he audible =>
        (placed e he).start_lt_finish_iff.2 (lasting e he audible)
      have kept := Schedule.foldl_balance_cues timed lasts cued p.sounding
      rw [← Midi.Sounding.coe_foldl_apply, silent, Multiset.coe_nil, Multiset.coe_eq_zero] at kept
      rw [Midi.Player.play_of_clear cued onTime clear]
      simpa only [Midi.Player.afterCues, Midi.Player.tick, silent] using kept

namespace Absorption

open Midi.Player (soundless)

def twice : Schedule Float := (Program.read "play C4 1/4\nplay C4 1/4").place .standard .sequential

theorem compile_lasting_twice :
    compile "play C4 1/4\nplay C4 1/4" {} = .ok twice ∧
      (∀ e ∈ twice.events, e.start < e.finish) ∧
      twice.cues = .ok (twice.cues.toOption.getD []) ∧
      (soundless.play twice).ending = .completed ∧ (soundless.play twice).player.sounding = [] := by
  have compiled : compile "play C4 1/4\nplay C4 1/4" {} = .ok twice := by decide +kernel
  have cued : twice.cues = .ok (twice.cues.toOption.getD []) := by decide +kernel
  have long : ∀ e ∈ twice.events, value e.start < 2 ^ 53 * value e.duration := by decide +kernel
  obtain ⟨events, played⟩ := compile_lasting compiled
  have lasting : ∀ e ∈ twice.events, ¬ e.Vanishes := fun e he => (events e he).2.2 (long e he)
  refine ⟨compiled, fun e he => (events e he).2.1.2 (lasting e he), cued, ?_⟩
  have completed : (soundless.play twice).ending = .completed := by decide +kernel
  exact ⟨completed, ((played _ cued).2 (fun e he _ => lasting e he) soundless rfl).2 completed⟩

def tiny : Schedule Float :=
  (Program.read "rest 1/16\nsetTempo 4294967295\nplay C4 1/4294967295").place .standard .sequential

theorem compile_tiny :
    compile "rest 1/16\nsetTempo 4294967295\nplay C4 1/4294967295" {} = .ok tiny ∧
      (∃ e ∈ tiny.events, e.isAudible ∧ ¬ e.start < e.finish) ∧
      tiny.cues = .ok [⟨0.125, .noteOff, .lead, 60⟩, ⟨0.125, .noteOn, .lead, 60⟩] ∧
      (soundless.play tiny).ending = .completed ∧
      (soundless.play tiny).player.sounding = [(.lead, 60)] := by
  decide +kernel

end Absorption

end ChordScript
