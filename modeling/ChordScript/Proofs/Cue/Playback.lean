import ChordScript.Proofs.Cue.Expansion
import ChordScript.Proofs.Cue.Sounding
import ChordScript.Proofs.Schedule.Timeline
import Mathlib.Data.Finset.Max
import Mathlib.Tactic.Linarith

/-!
# What sounds during playback

The notes that sound are always called for by an event; the converse fails exactly where one event
ends a note in the middle of another one. Main statement: `compile_playback`.
-/

namespace ChordScript

def soundingAt (cues : List (Cue Rat)) (t : Rat) : Finset (Voice × Note) :=
  (cues.filter (·.time ≤ t)).foldl Cue.sound ∅

def Event.HasNote (e : Event Rat) (x : Voice × Note) : Prop := e.voice = x.1 ∧ x.2 ∈ e.notes

instance (e : Event Rat) (x : Voice × Note) : Decidable (e.HasNote x) :=
  inferInstanceAs (Decidable (_ ∧ _))

namespace Schedule

def Calls (s : Schedule Rat) (x : Voice × Note) (t : Rat) : Prop :=
  ∃ e ∈ s.events, e.HasNote x ∧ e.start ≤ t ∧ t < e.finish

instance (s : Schedule Rat) (x : Voice × Note) (t : Rat) : Decidable (s.Calls x t) :=
  inferInstanceAs (Decidable (∃ e ∈ s.events, _))

/-- In the middle of `e` the event `f` ends, with the same note, and no event strikes it again. -/
def CutsShort (s : Schedule Rat) (x : Voice × Note) (f e : Event Rat) : Prop :=
  f.HasNote x ∧ e.HasNote x ∧ e.start < f.finish ∧ f.finish < e.finish ∧
    ∀ g ∈ s.events, g.HasNote x → g.start ≠ f.finish

theorem exists_cue {s : Schedule Rat} {cues : List (Cue Rat)} (h : s.cues = .ok cues)
    {e : Event Rat} (he : e ∈ s.events) {x : Voice × Note} (note : e.HasNote x) :
    ⟨e.start, .noteOn, x.1, x.2⟩ ∈ cues ∧ ⟨e.finish, .noteOff, x.1, x.2⟩ ∈ cues := by
  obtain ⟨voice, n⟩ := x
  obtain ⟨rfl, n_mem⟩ := note
  exact cues_of_mem_notes h he n_mem

theorem event_of_cue {s : Schedule Rat} {cues : List (Cue Rat)} (h : s.cues = .ok cues)
    {c : Cue Rat} (hc : c ∈ cues) :
    ∃ e ∈ s.events, e.HasNote c.target ∧
      (c.action = .noteOn ∧ c.time = e.start ∨ c.action = .noteOff ∧ c.time = e.finish) := by
  obtain ⟨e, he, n, n_mem, cue⟩ := (mem_cues h).1 hc
  refine ⟨e, he, ?_⟩
  rcases List.mem_cons.1 cue with rfl | cue
  · exact ⟨⟨rfl, n_mem⟩, .inl ⟨rfl, rfl⟩⟩
  · obtain rfl := List.mem_singleton.1 cue
    exact ⟨⟨rfl, n_mem⟩, .inr ⟨rfl, rfl⟩⟩

theorem mem_soundingAt {s : Schedule Rat} {cues : List (Cue Rat)} (h : s.cues = .ok cues)
    (x : Voice × Note) (t : Rat) :
    x ∈ soundingAt cues t ↔
      ∃ e ∈ s.events, e.HasNote x ∧ e.start ≤ t ∧ ∀ f ∈ s.events, f.HasNote x →
        (f.start ≤ t → f.start ≤ e.start) ∧ (f.finish ≤ t → f.finish ≤ e.start) := by
  have sorted : StableSort.Sorted Cue.before (cues.filter (·.time ≤ t)) := by
    rw [cues_eq h]
    exact (StableSort.sort_sorted Cue.strictWeakOn_rat fun _ _ => trivial).filter _
  have upTo (c : Cue Rat) : c ∈ cues.filter (·.time ≤ t) ↔ c ∈ cues ∧ c.time ≤ t := by
    simp
  rw [soundingAt, Cue.mem_foldl_sound_of_sorted sorted]
  simp only [upTo]
  constructor
  · rintro ⟨c, ⟨hc, early⟩, rfl, starts, latest⟩
    obtain ⟨e, he, note, ⟨-, time⟩ | ⟨ends, -⟩⟩ := event_of_cue h hc
    · rw [time] at early latest
      refine ⟨e, he, note, early, ?_⟩
      intro f hf f_note
      obtain ⟨on, off⟩ := exists_cue h hf f_note
      exact ⟨fun le => latest _ ⟨on, le⟩ rfl, fun le => latest _ ⟨off, le⟩ rfl⟩
    · rw [starts] at ends
      cases ends
  · rintro ⟨e, he, note, early, latest⟩
    refine ⟨_, ⟨(exists_cue h he note).1, early⟩, rfl, rfl, ?_⟩
    rintro d ⟨hd, d_early⟩ rfl
    obtain ⟨f, hf, f_note, ⟨-, time⟩ | ⟨-, time⟩⟩ := event_of_cue h hd
    · rw [time] at d_early ⊢
      exact (latest f hf f_note).1 d_early
    · rw [time] at d_early ⊢
      exact (latest f hf f_note).2 d_early

section

variable {s : Schedule Rat} {cues : List (Cue Rat)} (h : s.cues = .ok cues)

include h

theorem calls_of_mem_soundingAt (lasting : ∀ e ∈ s.events, e.start < e.finish)
    {x : Voice × Note} {t : Rat} (sounds : x ∈ soundingAt cues t) : s.Calls x t := by
  obtain ⟨e, he, note, early, latest⟩ := (mem_soundingAt h x t).1 sounds
  refine ⟨e, he, note, early, ?_⟩
  by_contra ended
  exact absurd ((latest e he note).2 (not_lt.1 ended)) (not_le.2 (lasting e he))

theorem mem_soundingAt_of_calls {x : Voice × Note} {t : Rat}
    (whole : ∀ f ∈ s.events, ∀ e ∈ s.events, ¬ s.CutsShort x f e) (calls : s.Calls x t) :
    x ∈ soundingAt cues t := by
  obtain ⟨e, he, note, early, lasts⟩ := calls
  -- Of the events with the note, the one that starts last keeps it sounding.
  let started := s.events.toFinset.filter fun g => g.HasNote x ∧ g.start ≤ t
  have mem_started (g : Event Rat) : g ∈ started ↔ g ∈ s.events ∧ g.HasNote x ∧ g.start ≤ t := by
    simp [started]
  obtain ⟨m, hm, last⟩ :=
    started.exists_max_image Event.start ⟨e, (mem_started e).2 ⟨he, note, early⟩⟩
  obtain ⟨m_mem, m_note, m_early⟩ := (mem_started m).1 hm
  have e_le_m := last e ((mem_started e).2 ⟨he, note, early⟩)
  refine (mem_soundingAt h x t).2 ⟨m, m_mem, m_note, m_early, ?_⟩
  intro f hf f_note
  refine ⟨fun f_early => last f ((mem_started f).2 ⟨hf, f_note, f_early⟩), ?_⟩
  intro f_over
  by_contra inside
  apply whole f hf e he
  refine ⟨f_note, note, by linarith, by linarith, ?_⟩
  intro g hg g_note again
  have g_le_m := last g ((mem_started g).2 ⟨hg, g_note, by linarith⟩)
  linarith

theorem not_mem_soundingAt_of_cutsShort {x : Voice × Note} {e f : Event Rat} (hf : f ∈ s.events)
    (cut : s.CutsShort x f e) : x ∉ soundingAt cues f.finish := by
  obtain ⟨f_note, -, -, -, alone⟩ := cut
  intro sounds
  obtain ⟨m, hm, m_note, m_early, latest⟩ := (mem_soundingAt h x _).1 sounds
  have m_late := (latest f hf f_note).2 le_rfl
  exact alone m hm m_note (le_antisymm m_early m_late)

theorem soundingAt_iff_calls (lasting : ∀ e ∈ s.events, e.start < e.finish) :
    (∀ x t, x ∈ soundingAt cues t ↔ s.Calls x t) ↔
      ∀ x, ∀ f ∈ s.events, ∀ e ∈ s.events, ¬ s.CutsShort x f e := by
  constructor
  · intro faithful x f hf e he cut
    have silent := not_mem_soundingAt_of_cutsShort h hf cut
    obtain ⟨-, note, begun, lasts, -⟩ := cut
    exact silent ((faithful x _).2 ⟨e, he, note, begun.le, lasts⟩)
  · intro whole x t
    exact ⟨calls_of_mem_soundingAt h lasting, mem_soundingAt_of_calls h (whole x)⟩

end

theorem not_cutsShort_of_pairwise {s : Schedule Rat} (lasting : ∀ e ∈ s.events, e.start < e.finish)
    (apart : s.events.Pairwise fun e f => e.finish ≤ f.start) {x : Voice × Note} {e f : Event Rat}
    (hf : f ∈ s.events) (he : e ∈ s.events) : ¬ s.CutsShort x f e := by
  rintro ⟨-, -, begun, lasts, -⟩
  have different : f ≠ e := by
    rintro rfl
    exact lt_irrefl _ lasts
  have f_lasts := lasting f hf
  have e_lasts := lasting e he
  have ordered : f.finish ≤ e.start ∨ e.finish ≤ f.start := by
    have symmetric : Std.Symm fun e f : Event Rat =>
        e.finish ≤ f.start ∨ f.finish ≤ e.start :=
      ⟨fun _ _ => .symm⟩
    exact (apart.imp fun {e f} (le : e.finish ≤ f.start) =>
      (Or.inl le : e.finish ≤ f.start ∨ f.finish ≤ e.start)).forall hf he different
  rcases ordered with before | after
  · linarith
  · linarith

end Schedule

/-- A note that sounds is called for by an event, and every note that is called for sounds just if
no event ends a note in the middle of another one. Sequential programs never do that. -/
theorem compile_playback {text : String} {context : Context} {s : Schedule Rat}
    {cues : List (Cue Rat)} (compiled : compile text context = .ok s) (cued : s.cues = .ok cues) :
    (∀ x t, x ∈ soundingAt cues t → s.Calls x t) ∧
      ((∀ x t, x ∈ soundingAt cues t ↔ s.Calls x t) ↔
        ∀ x, ∀ f ∈ s.events, ∀ e ∈ s.events, ¬ s.CutsShort x f e) ∧
      (s.discipline = .sequential → ∀ x t, x ∈ soundingAt cues t ↔ s.Calls x t) := by
  obtain ⟨placed, scheduled, rfl⟩ := compile_eq_ok.1 compiled
  obtain ⟨d, chosen, rfl, -⟩ := Program.schedule_eq_ok.1 scheduled
  have lasting : ∀ e ∈ ((Program.read text).place context.tempo d).events, e.start < e.finish :=
    fun e he => Program.start_lt_finish he
  refine ⟨fun x t => Schedule.calls_of_mem_soundingAt cued lasting,
    Schedule.soundingAt_iff_calls cued lasting, ?_⟩
  intro sequential
  obtain rfl : d = .sequential := sequential
  have apart := Program.place_sequential context.tempo chosen
  exact (Schedule.soundingAt_iff_calls cued lasting).2 fun x f hf e he =>
    Schedule.not_cutsShort_of_pairwise lasting apart hf he

namespace Playback

def repeated : Schedule Rat :=
  (Program.read "play C4 1/4\nplay C4 1/4").place .standard .sequential

theorem compile_playback_repeated :
    compile "play C4 1/4\nplay C4 1/4" {} = .ok repeated ∧
      repeated.cues = .ok (repeated.cues.toOption.getD []) ∧
      ∀ x t, x ∈ soundingAt (repeated.cues.toOption.getD []) t ↔ repeated.Calls x t := by
  have compiled : compile "play C4 1/4\nplay C4 1/4" {} = .ok repeated := by decide +kernel
  have cued : repeated.cues = .ok (repeated.cues.toOption.getD []) := by decide +kernel
  exact ⟨compiled, cued, (compile_playback compiled cued).2.2 (by decide +kernel)⟩

def overlapping : Schedule Rat :=
  (Program.read "chord G2 major 2m\nchord G2 major 2m").place .standard .measureAligned

theorem not_soundingAt_iff_calls :
    ¬ ∀ (text : String) (context : Context) (s : Schedule Rat) (cues : List (Cue Rat)),
      compile text context = .ok s → s.cues = .ok cues →
      ∀ x t, x ∈ soundingAt cues t ↔ s.Calls x t := by
  intro faithful
  have calls : overlapping.Calls (.lead, 43) 5 := by decide +kernel
  have sounds := (faithful "chord G2 major 2m\nchord G2 major 2m" {} overlapping
    (overlapping.cues.toOption.getD []) (by decide +kernel) (by decide +kernel)
    (.lead, 43) 5).2 calls
  have silent : (.lead, 43) ∉ soundingAt (overlapping.cues.toOption.getD []) 5 := by decide +kernel
  exact silent sounds

end Playback

end ChordScript
