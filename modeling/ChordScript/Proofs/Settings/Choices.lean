import ChordScript.Proofs.Settings.Document

namespace ChordScript.Settings

def channelOf (n : Nat) : Midi.Channel := ⟨(n - 1) % 16, Nat.mod_lt _ (by decide)⟩

def velocityOf (n : Nat) : Midi.Velocity := ⟨n % 128, Nat.mod_lt _ (by decide)⟩

theorem channel_eq (n : Nat) :
    channel n = if 1 ≤ n ∧ n ≤ 16 then .ok (channelOf n) else .error (.channel n) := by
  rw [channel]
  split
  · rename_i range
    have small : n - 1 < 16 := by omega
    simp only [channelOf, Nat.mod_eq_of_lt small]
  · rfl

theorem velocity_eq (n : Nat) :
    velocity n = if n ≤ 127 then .ok (velocityOf n) else .error (.velocity n) := by
  rw [velocity]
  split
  · rename_i range
    have small : n < 128 := by omega
    simp only [velocityOf, Nat.mod_eq_of_lt small]
  · rfl

namespace Choice

instance : DecidablePred InRange
  | .leadChannel _ | .bassChannel _ => inferInstanceAs (Decidable (_ ∧ _))
  | .velocity _ => inferInstanceAs (Decidable (_ ≤ _))
  | .startDelay _ => inferInstanceAs (Decidable (_ ∧ _))
  | .port _ | .discipline _ => .isTrue trivial

def set (s : Settings) : Choice → Settings
  | .port text => { s with midi := { s.midi with port := text } }
  | .leadChannel n =>
    { s with midi := { s.midi with voicing := { s.midi.voicing with lead := channelOf n } } }
  | .bassChannel n =>
    { s with midi := { s.midi with voicing := { s.midi.voicing with bass := channelOf n } } }
  | .velocity n =>
    { s with midi := { s.midi with voicing := { s.midi.voicing with velocity := velocityOf n } } }
  | .startDelay x => { s with playback := ⟨x⟩ }
  | .discipline d => { s with scheduling := ⟨d⟩ }

def put (s : Settings) (c : Choice) : Except SettingsError Settings :=
  if c.InRange then .ok (c.set s) else .error c.error

theorem heldBy_set {c : Choice} (range : c.InRange) (s : Settings) : c.HeldBy (c.set s) := by
  cases c with
  | port | startDelay | discipline => rfl
  | leadChannel n | bassChannel n =>
    obtain ⟨low, high⟩ := range
    simp only [HeldBy, set, channelOf]
    omega
  | velocity n =>
    have high : n ≤ 127 := range
    simp only [HeldBy, set, velocityOf]
    omega

theorem heldBy_set_of_ne {c other : Choice} (apart : other.name ≠ c.name) (s : Settings) :
    other.HeldBy (c.set s) ↔ other.HeldBy s := by
  cases c <;> cases other <;> first | exact absurd rfl apart | exact Iff.rfl

theorem heldBy_iff_eq {c c' : Choice} {s : Settings} (same : c.name = c'.name)
    (held : c'.HeldBy s) : c.HeldBy s ↔ c = c' := by
  cases c <;> cases c' <;> simp_all [HeldBy, name, eq_comm]

end Choice

theorem eq_of_heldBy_iff {s s' : Settings} (h : ∀ c : Choice, c.HeldBy s ↔ c.HeldBy s') :
    s = s' := by
  obtain ⟨⟨port, lead, bass, velocity⟩, ⟨startDelay⟩, ⟨discipline⟩⟩ := s
  have port := (h (.port port)).1 rfl
  have lead := (h (.leadChannel (lead + 1))).1 rfl
  have bass := (h (.bassChannel (bass + 1))).1 rfl
  have velocity := (h (.velocity velocity)).1 rfl
  have startDelay := (h (.startDelay startDelay)).1 rfl
  have discipline := (h (.discipline discipline)).1 rfl
  simp only [Choice.HeldBy, Nat.add_right_cancel_iff, Fin.val_inj]
    at port lead bass velocity startDelay discipline
  subst port lead bass velocity startDelay discipline
  rfl

/-- What the choices ask for is there, and where they ask for nothing the standard is. -/
structure Obeys (choices : List Choice) (s : Settings) : Prop where
  given : ∀ c ∈ choices, c.HeldBy s
  absent : ∀ c : Choice, c.name ∉ choices.map Choice.name → (c.HeldBy s ↔ c.HeldBy standard)

theorem Obeys.unique {choices : List Choice} {s s' : Settings} (h : Obeys choices s)
    (h' : Obeys choices s') : s = s' := by
  apply eq_of_heldBy_iff
  intro c
  by_cases given : c.name ∈ choices.map Choice.name
  · obtain ⟨c', mem, same⟩ := List.mem_map.1 given
    rw [Choice.heldBy_iff_eq same.symm (h.given c' mem),
      Choice.heldBy_iff_eq same.symm (h'.given c' mem)]
  · rw [h.absent c given, h'.absent c given]

theorem Obeys.perm {choices choices' : List Choice} (perm : choices.Perm choices') {s : Settings} :
    Obeys choices s ↔ Obeys choices' s := by
  have names (name : String) : name ∈ choices.map Choice.name ↔ name ∈ choices'.map Choice.name :=
    (perm.map _).mem_iff
  constructor
  · rintro ⟨given, absent⟩
    exact ⟨fun c mem => given c (perm.mem_iff.2 mem), fun c h => absent c (mt (names _).1 h)⟩
  · rintro ⟨given, absent⟩
    exact ⟨fun c mem => given c (perm.mem_iff.1 mem), fun c h => absent c (mt (names _).2 h)⟩

section

variable {choices : List Choice}

theorem foldlM_put (choices : List Choice) (s : Settings) :
    choices.foldlM Choice.put s =
      match choices.find? (fun c => ¬ c.InRange) with
      | some c => .error c.error
      | none => .ok (choices.foldl Choice.set s) := by
  induction choices generalizing s with
  | nil => rfl
  | cons c rest ih =>
    rw [List.foldlM_cons, Choice.put]
    by_cases range : c.InRange
    · rw [if_pos range, List.find?_cons_of_neg (by simpa using range), List.foldl_cons]
      exact ih (c.set s)
    · rw [if_neg range, List.find?_cons_of_pos (by simpa using range)]
      rfl

theorem obeys_foldl_set (range : ∀ c ∈ choices, c.InRange)
    (nodup : (choices.map Choice.name).Nodup) (s : Settings) :
    (∀ c ∈ choices, c.HeldBy (choices.foldl Choice.set s)) ∧
      ∀ c : Choice, c.name ∉ choices.map Choice.name →
        (c.HeldBy (choices.foldl Choice.set s) ↔ c.HeldBy s) := by
  induction choices generalizing s with
  | nil => simp
  | cons c rest ih =>
    obtain ⟨later, nodup⟩ := List.nodup_cons.1 nodup
    obtain ⟨here, range⟩ := List.forall_mem_cons.1 range
    obtain ⟨given, absent⟩ := ih range nodup (c.set s)
    refine ⟨List.forall_mem_cons.2 ⟨?_, given⟩, fun other apart => ?_⟩
    · exact (absent c later).2 (Choice.heldBy_set here s)
    · obtain ⟨first, others⟩ := not_or.1 (mt List.mem_cons.2 apart)
      exact (absent other others).trans (Choice.heldBy_set_of_ne first s)

def FirstFault (choices : List Choice) (c : Choice) : Prop :=
  ∃ before after, choices = before ++ c :: after ∧ (∀ b ∈ before, b.InRange) ∧ ¬ c.InRange

theorem find?_eq_some_iff_firstFault {c : Choice} :
    choices.find? (fun c => ¬ c.InRange) = some c ↔ FirstFault choices c := by
  rw [List.find?_eq_some_iff_append]
  simp [FirstFault, and_comm, and_left_comm]

theorem find?_eq_none_iff_inRange :
    choices.find? (fun c => ¬ c.InRange) = none ↔ ∀ c ∈ choices, c.InRange := by
  simp [List.find?_eq_none]

end

end ChordScript.Settings
