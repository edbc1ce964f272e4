import ChordScript.Cue
import ChordScript.Proofs.Schedule.Outcome
import ChordScript.Proofs.StableSort.Sorted

namespace ChordScript

section

variable {α β ε : Type}

theorem Except.eq_filterMap_of_mapM {f : α → Except ε β} {g : α → Option β}
    (agree : ∀ a b, f a = .ok b → g a = some b) {xs : List α} {ys : List β}
    (h : xs.mapM f = .ok ys) : ys = xs.filterMap g := by
  induction xs generalizing ys with
  | nil =>
    cases h
    rfl
  | cons x xs ih =>
    rw [List.mapM_cons] at h
    obtain ⟨y, first, h⟩ := Except.exists_of_bind h
    obtain ⟨others, rest, h⟩ := Except.exists_of_bind h
    cases h
    rw [List.filterMap_cons, agree x y first, ih rest]

theorem Except.mapM_eq_error_iff {f : α → Except ε β} {p : α → Bool} {g : α → ε}
    (fails : ∀ a e, f a = .error e ↔ p a = true ∧ g a = e) {xs : List α} {e : ε} :
    xs.mapM f = .error e ↔ (xs.find? p).map g = some e := by
  induction xs with
  | nil => simp [pure, Except.pure]
  | cons x xs ih =>
    rw [List.mapM_cons, List.find?_cons]
    cases first : f x with
    | error d =>
      obtain ⟨bad, rfl⟩ := (fails x d).1 first
      simp [bad, bind, Except.bind]
    | ok y =>
      have good : p x = false := by
        rw [← Bool.not_eq_true]
        intro bad
        cases first.symm.trans ((fails x (g x)).2 ⟨bad, rfl⟩)
      rw [good]
      refine Iff.trans ?_ ih
      cases xs.mapM f <;> simp [bind, Except.bind, pure, Except.pure]

end

namespace Pitch

variable {p : Pitch} {n : Note}

theorem note?_eq_some_iff : p.note? = some n ↔ (n : Int) = p.midi := by
  have range := n.isLt
  rw [note?]
  split
  · rw [Option.some_inj, Fin.ext_iff]
    change p.midi.toNat = n ↔ _
    omega
  · simp
    omega

theorem note?_eq_none_iff : p.note? = none ↔ p.midi < 0 ∨ 127 < p.midi := by
  rw [note?]
  split
  · simp
    omega
  · simp
    omega

theorem exists_note?_iff : (∃ n, p.note? = some n) ↔ 0 ≤ p.midi ∧ p.midi ≤ 127 := by
  rw [← Option.ne_none_iff_exists', ne_eq, note?_eq_none_iff]
  omega

end Pitch

variable {τ : Type}

def Event.notes (e : Event τ) : List Note := e.pitches.filterMap Pitch.note?

variable [Seconds τ]

def Cue.ofNote (e : Event τ) (n : Note) : List (Cue τ) :=
  [⟨e.start, .noteOn, e.voice, n⟩, ⟨e.finish, .noteOff, e.voice, n⟩]

theorem Cue.note_of_ofPitch (e : Event τ) (p : Pitch) (cues : List (Cue τ))
    (h : ofPitch e p = .ok cues) : p.note?.map (ofNote e) = some cues := by
  rw [ofPitch] at h
  cases note : p.note? with
  | none =>
    rw [note] at h
    cases h
  | some n =>
    rw [note] at h
    cases h
    rfl

theorem Cue.ofPitch_eq_error_iff (e : Event τ) (p : Pitch) (fault : OutOfRange) :
    ofPitch e p = .error fault ↔ (p.midi < 0 ∨ 127 < p.midi) ∧ ⟨p⟩ = fault := by
  rw [← Pitch.note?_eq_none_iff, ofPitch]
  cases p.note? <;> simp

namespace Schedule

variable {s : Schedule τ}

theorem unsortedCues_eq {cues : List (Cue τ)} (h : s.unsortedCues = .ok cues) :
    cues = s.events.flatMap fun e => e.notes.flatMap (Cue.ofNote e) := by
  obtain ⟨pairs, made, flat⟩ := Except.exists_of_bind h
  cases flat
  have noted := Except.eq_filterMap_of_mapM (g := fun ep => ep.2.note?.map (Cue.ofNote ep.1))
    (fun ep => Cue.note_of_ofPitch ep.1 ep.2) made
  rw [noted, List.filterMap_flatMap, ← List.flatMap_id, List.flatMap_assoc]
  simp [Event.notes, List.flatMap, List.map_filterMap]

theorem cues_eq {cues : List (Cue τ)} (h : s.cues = .ok cues) :
    cues = StableSort.sort Cue.before
      (s.events.flatMap fun e => e.notes.flatMap (Cue.ofNote e)) := by
  rw [Schedule.cues] at h
  cases made : s.unsortedCues with
  | error fault =>
    rw [made] at h
    cases h
  | ok unsorted =>
    rw [made] at h
    cases h
    rw [unsortedCues_eq made]

theorem mem_cues {cues : List (Cue τ)} (h : s.cues = .ok cues) {c : Cue τ} :
    c ∈ cues ↔ ∃ e ∈ s.events, ∃ n ∈ e.notes, c ∈ Cue.ofNote e n := by
  rw [cues_eq h, StableSort.mem_sort]
  simp only [List.mem_flatMap]

theorem cues_of_mem_notes {cues : List (Cue τ)} (h : s.cues = .ok cues) {e : Event τ}
    (he : e ∈ s.events) {n : Note} (hn : n ∈ e.notes) :
    ⟨e.start, .noteOn, e.voice, n⟩ ∈ cues ∧ ⟨e.finish, .noteOff, e.voice, n⟩ ∈ cues := by
  refine ⟨(mem_cues h).2 ⟨e, he, n, hn, ?_⟩, (mem_cues h).2 ⟨e, he, n, hn, ?_⟩⟩
  · exact List.mem_cons_self
  · exact List.mem_cons_of_mem _ List.mem_cons_self

theorem cues_eq_error_iff {fault : OutOfRange} :
    s.cues = .error fault ↔
      (s.events.flatMap (·.pitches)).find? (fun p => p.midi < 0 ∨ 127 < p.midi) =
        some fault.pitch := by
  let pairs := s.events.flatMap fun e => e.pitches.map fun p => (e, p)
  have unflattened : s.cues = .error fault ↔
      pairs.mapM (fun x => Cue.ofPitch x.1 x.2) = .error fault := by
    change ((pairs.mapM fun x => Cue.ofPitch x.1 x.2).bind fun cues => .ok cues.flatten).map _ =
      .error fault ↔ _
    cases pairs.mapM fun x => Cue.ofPitch x.1 x.2 <;> simp [Except.map, Except.bind]
  have pitches : s.events.flatMap (·.pitches) = pairs.map Prod.snd := by
    simp [pairs, List.map_flatMap, Function.comp_def]
  let outside (p : Pitch) : Bool := p.midi < 0 ∨ 127 < p.midi
  have fails (x : Event τ × Pitch) (fault : OutOfRange) :
      Cue.ofPitch x.1 x.2 = .error fault ↔ (outside ∘ Prod.snd) x ∧ ⟨x.2⟩ = fault := by
    simp [Cue.ofPitch_eq_error_iff, outside]
  obtain ⟨q⟩ := fault
  rw [unflattened, pitches, List.find?_map, Except.mapM_eq_error_iff fails]
  cases pairs.find? (outside ∘ Prod.snd) <;> simp

theorem exists_fault_iff :
    (∃ fault, s.cues = .error fault) ↔
      ∃ e ∈ s.events, ∃ p ∈ e.pitches, p.midi < 0 ∨ 127 < p.midi := by
  have first : (∃ fault, s.cues = .error fault) ↔
      ((s.events.flatMap (·.pitches)).find? fun p => p.midi < 0 ∨ 127 < p.midi).isSome := by
    simp only [cues_eq_error_iff, Option.isSome_iff_exists]
    exact ⟨fun ⟨fault, found⟩ => ⟨fault.pitch, found⟩, fun ⟨p, found⟩ => ⟨⟨p⟩, found⟩⟩
  rw [first, List.find?_isSome]
  simp only [List.mem_flatMap, decide_eq_true_eq]
  exact ⟨fun ⟨p, ⟨e, he, hp⟩, outside⟩ => ⟨e, he, p, hp, outside⟩,
    fun ⟨e, he, p, hp, outside⟩ => ⟨p, ⟨e, he, hp⟩, outside⟩⟩

theorem exists_cues_iff :
    (∃ cues, s.cues = .ok cues) ↔ ∀ e ∈ s.events, ∀ p ∈ e.pitches, 0 ≤ p.midi ∧ p.midi ≤ 127 := by
  have accepted : (∃ cues, s.cues = .ok cues) ↔ ¬ ∃ fault, s.cues = .error fault := by
    cases s.cues <;> simp
  rw [accepted, exists_fault_iff]
  simp only [not_exists, not_and, not_or, Int.not_lt]

section

variable {cues : List (Cue τ)} {e : Event τ}

theorem exists_note (h : s.unsortedCues = .ok cues) (he : e ∈ s.events) {p : Pitch}
    (hp : p ∈ e.pitches) : ∃ n, p.note? = some n := by
  have cued : s.cues = .ok (StableSort.sort Cue.before cues) := by
    rw [Schedule.cues, h]
    rfl
  exact Pitch.exists_note?_iff.2 (exists_cues_iff.1 ⟨_, cued⟩ e he p hp)

theorem map_notes (h : s.cues = .ok cues) (he : e ∈ s.events) :
    e.notes.map (fun n : Note => (n : Int)) = e.pitches.map Pitch.midi := by
  rw [Event.notes, List.map_filterMap, ← List.filterMap_eq_map]
  refine List.filterMap_congr fun p hp => ?_
  obtain ⟨n, note⟩ := Pitch.exists_note?_iff.2 (exists_cues_iff.1 ⟨cues, h⟩ e he p hp)
  rw [note, Option.map_some, Pitch.note?_eq_some_iff.1 note, Function.comp_apply]

end

end Schedule

end ChordScript
