import ChordScript.Midi.Message
import ChordScript.Settings

namespace ChordScript.Midi

namespace Message

def actionOf? : Nat → Option Action
  | 0x9 => some .noteOn
  | 0x8 => some .noteOff
  | _ => none

def ofBytes? : List UInt8 → Option Message
  | [first, note, velocity] =>
    if h : note.toNat < 128 ∧ velocity.toNat < 128 then
      (actionOf? (first.toNat / 16)).map fun action =>
        ⟨action, ⟨first.toNat % 16, Nat.mod_lt _ (by decide)⟩, ⟨note.toNat, h.1⟩,
          ⟨velocity.toNat, h.2⟩⟩
    else none
  | _ => none

theorem toNat_ofNat_fin (n : Fin 128) : (UInt8.ofNat n).toNat = n :=
  UInt8.toNat_ofNat_of_lt (Nat.lt_trans n.isLt (by decide))

theorem toNat_status (action : Action) (channel : Channel) :
    (UInt8.ofNat (status action + channel)).toNat = status action + channel := by
  apply UInt8.toNat_ofNat_of_lt
  cases action <;> revert channel <;> decide

theorem ofBytes?_bytes (m : Message) : ofBytes? m.bytes = some m := by
  obtain ⟨action, channel, note, velocity⟩ := m
  have read : actionOf? ((status action + channel) / 16) = some action := by
    cases action <;> revert channel <;> decide
  have low : (status action + channel) % 16 = channel := by
    cases action <;> revert channel <;> decide
  simp only [bytes, ofBytes?, toNat_ofNat_fin, toNat_status, note.isLt, velocity.isLt, and_self,
    dite_true, read, low, Option.map_some, Fin.eta]

theorem data_lt (m : Message) : ∀ byte ∈ m.bytes.tail, byte < 128 := by
  intro byte h
  simp only [bytes, List.tail_cons, List.mem_cons, List.not_mem_nil, or_false] at h
  rcases h with rfl | rfl
  · rw [UInt8.lt_iff_toNat_lt, toNat_ofNat_fin]
    exact m.note.isLt
  · rw [UInt8.lt_iff_toNat_lt, toNat_ofNat_fin]
    exact m.velocity.isLt

end Message

/-- A voicing as a settings file gives it, with channels counted from one. -/
structure Configured (v : Voicing) (channel : Voice → Nat) (velocity : Nat) : Prop where
  channel_eq : ∀ voice, Settings.channel (channel voice) = .ok (v.channel voice)
  velocity_eq : Settings.velocity velocity = .ok v.velocity

theorem val_of_settingsChannel {n : Nat} {channel : Channel}
    (h : Settings.channel n = .ok channel) : (channel : Nat) = n - 1 := by
  unfold Settings.channel at h
  split at h
  · cases h
    rfl
  · cases h

theorem val_of_settingsVelocity {n : Nat} {velocity : Velocity}
    (h : Settings.velocity n = .ok velocity) : (velocity : Nat) = n := by
  unfold Settings.velocity at h
  split at h
  · cases h
    rfl
  · cases h

def cueBytes (channel : Voice → Nat) (velocity : Nat) (c : Cue Float) : List UInt8 :=
  [.ofNat (Message.status c.action ||| (channel c.voice - 1)), .ofNat c.note, .ofNat velocity]

namespace Voicing

def cueMessage (v : Voicing) (c : Cue Float) : Message := v.message c.action c.voice c.note

theorem bytes_cueMessage {v : Voicing} {channel : Voice → Nat} {velocity : Nat}
    (configured : Configured v channel velocity) (c : Cue Float) :
    (v.cueMessage c).bytes = cueBytes channel velocity c := by
  have joined (action : Action) (channel : Channel) :
      Message.status action + channel = Message.status action ||| channel := by
    cases action <;> revert channel <;> decide
  rw [cueBytes, ← val_of_settingsChannel (configured.channel_eq c.voice), ← joined,
    ← val_of_settingsVelocity configured.velocity_eq]
  rfl

end Voicing

end ChordScript.Midi
