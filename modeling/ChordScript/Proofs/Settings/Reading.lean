import ChordScript.Proofs.Binary.Value
import ChordScript.Proofs.Schedule.Outcome
import ChordScript.Settings.Reader

namespace ChordScript.Settings

open Yaml

deriving instance DecidableEq for Output, Playback, Scheduling, Settings, SettingsError

def Keeps {σ : Type} (P : σ → Prop) (field : σ → Field σ) : Prop :=
  ∀ s stream node s', P s → field s stream node = .ok s' → P s'

section

variable {σ : Type} {P : σ → Prop} {fields : Section σ} {stream : Stream}

theorem byName_cons_of_unknown {key value : Node} {name : String}
    (named : readText stream key = .ok name) (unknown : fields.lookup name = none)
    (given : List String) (s : σ) (entries : List (Node × Node)) :
    byName fields stream given s ((key, value) :: entries) = byName fields stream given s entries := by
  simp [byName, named, unknown, bind, Except.bind]

theorem byName_cons_of_known {key value : Node} {name : String} {field : σ → Field σ}
    (named : readText stream key = .ok name) (known : fields.lookup name = some field)
    {given : List String} (fresh : name ∉ given) (s : σ) (entries : List (Node × Node)) :
    byName fields stream given s ((key, value) :: entries) =
      field s stream value >>= fun s => byName fields stream (name :: given) s entries := by
  simp [byName, named, known, fresh, bind, Except.bind]

theorem keeps_byName (keeps : ∀ x ∈ fields, Keeps P x.2) {given : List String} {s s' : σ}
    {entries : List (Node × Node)} (start : P s)
    (read : byName fields stream given s entries = .ok s') : P s' := by
  -- The names that were given and the section change from entry to entry, the fields do not.
  induction entries generalizing given s with
  | nil =>
    cases read
    exact start
  | cons entry rest ih =>
    obtain ⟨key, value⟩ := entry
    obtain ⟨name, -, read⟩ := Except.exists_of_bind read
    cases found : fields.lookup name with
    | none =>
      simp only [found] at read
      exact ih start read
    | some field =>
      obtain ⟨before, after, split, -⟩ := List.lookup_eq_some_iff.1 found
      have field_keeps : Keeps P field := keeps (name, field) (by simp [split])
      simp only [found] at read
      split at read
      · cases read
      · obtain ⟨next, taken, read⟩ := Except.exists_of_bind read
        exact ih (field_keeps s stream value next start taken) read

theorem keeps_byPosition (keeps : ∀ x ∈ fields, Keeps P x.2) {s s' : σ} {nodes : List Node}
    (start : P s) (read : byPosition stream s fields nodes = .ok s') : P s' := by
  induction fields generalizing s nodes with
  | nil =>
    cases nodes <;> cases read
    exact start
  | cons x rest ih =>
    obtain ⟨first, others⟩ := List.forall_mem_cons.1 keeps
    cases nodes with
    | nil =>
      cases read
      exact start
    | cons node nodes =>
      obtain ⟨next, taken, read⟩ := Except.exists_of_bind read
      exact ih others (first s stream node next start taken) read

theorem keeps_readSection (keeps : ∀ x ∈ fields, Keeps P x.2) {default s : σ} {node : Node}
    (start : P default) (read : readSection fields default stream node = .ok s) : P s := by
  rw [readSection] at read
  split at read
  · exact keeps_byName keeps start read
  · exact keeps_byPosition keeps start read
  · cases read

end

theorem delay_eq (x : Float) : delay x =
    if x.isFinite = true ∧ 0 ≤ Binary.value x then .ok x else .error (.startDelay x) := by
  rw [delay]
  cases finite : x.isFinite with
  | false => simp
  | true =>
    have negative : x < 0 ↔ ¬ 0 ≤ Binary.value x := (Binary.sign_iff finite).1.trans not_le.symm
    by_cases nonneg : 0 ≤ Binary.value x <;> simp [negative, nonneg]

theorem delay_eq_ok_iff {x y : Float} :
    delay x = .ok y ↔ y = x ∧ x.isFinite = true ∧ 0 ≤ Binary.value x := by
  rw [delay_eq]
  split
  · rename_i range
    rw [Except.ok.injEq, and_iff_left range, eq_comm]
  · rename_i range
    exact iff_of_false (fun same => nomatch same) fun h => range h.2

def Playback.InRange (p : Playback) : Prop :=
  p.startDelay.isFinite = true ∧ 0 ≤ Binary.value p.startDelay

theorem inRange_standard : standard.playback.InRange :=
  (delay_eq_ok_iff (x := 0.1)).1 rfl |>.2

theorem keeps_playbackFields : ∀ x ∈ Playback.fields, Keeps Playback.InRange x.2 := by
  simp only [Playback.fields, List.forall_mem_singleton]
  -- The field checks what it takes, so that nothing has to be known of the section before.
  intro s stream node s' _ read
  obtain ⟨seconds, -, read⟩ := Except.exists_of_bind read
  obtain ⟨kept, checked, read⟩ := Except.exists_of_bind read
  cases read
  obtain ⟨rfl, range⟩ := delay_eq_ok_iff.1 checked
  exact range

theorem keeps_fields : ∀ x ∈ fields, Keeps (fun s => s.playback.InRange) x.2 := by
  simp only [fields, List.forall_mem_cons]
  refine ⟨?_, ?_, ?_, List.forall_mem_nil _⟩
  · intro s stream node s' range read
    obtain ⟨midi, -, read⟩ := Except.exists_of_bind read
    cases read
    exact range
  · intro s stream node s' _ read
    obtain ⟨playback, taken, read⟩ := Except.exists_of_bind read
    cases read
    exact keeps_readSection keeps_playbackFields inRange_standard taken
  · intro s stream node s' range read
    obtain ⟨scheduling, -, read⟩ := Except.exists_of_bind read
    cases read
    exact range

theorem startDelay_of_read {yaml : String} {settings : Settings}
    (accepted : read yaml = .ok settings) : settings.playback.InRange := by
  rw [read] at accepted
  split at accepted
  · cases accepted
  · split at accepted
    · cases accepted
    · obtain ⟨first, taken, accepted⟩ := Except.exists_of_bind accepted
      split at accepted
      · cases accepted
        exact keeps_readSection keeps_fields inRange_standard taken
      · cases accepted

end ChordScript.Settings
