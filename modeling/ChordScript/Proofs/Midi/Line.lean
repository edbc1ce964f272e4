import ChordScript.Midi.Player
import Mathlib.Data.List.Induction

namespace ChordScript.Midi

namespace Line

variable {l m r : Line} {c : Channel} {n : Note}

def messagesOn (l : Line) (c : Channel) (n : Note) : List Message :=
  l.sent.filter fun m => m.channel = c ∧ m.note = n

def Hangs (l : Line) (c : Channel) (n : Note) : Prop :=
  (l.messagesOn c n).getLast?.map Message.action = some .noteOn

instance : Decidable (l.Hangs c n) := inferInstanceAs (Decidable (_ = _))

/-- No message for the channel and the note got through from one line to a later one. -/
def Quiet (l m : Line) (c : Channel) (n : Note) : Prop := m.messagesOn c n = l.messagesOn c n

instance : Decidable (Quiet l m c n) := inferInstanceAs (Decidable (_ = _))

def lose (l : Line) : Line := { l with count := l.count + 1 }

def record (l : Line) (m : Message) : Line :=
  { l with count := l.count + 1, sent := l.sent ++ [m] }

theorem send_eq (l : Line) (m : Message) :
    l.send m = if l.fails l.count then (false, l.lose) else (true, l.record m) := rfl

@[simp] theorem messagesOn_lose : l.lose.messagesOn c n = l.messagesOn c n := rfl

theorem messagesOn_record (m : Message) :
    (l.record m).messagesOn c n =
      l.messagesOn c n ++ if m.channel = c ∧ m.note = n then [m] else [] := by
  simp only [messagesOn, record, List.filter_append, List.filter_cons, List.filter_nil,
    decide_eq_true_eq]

theorem quiet_record (m : Message) :
    l.Quiet (l.record m) c n ↔ ¬ (m.channel = c ∧ m.note = n) := by
  simp only [Quiet, messagesOn_record]
  split <;> simp_all

theorem hangs_record (m : Message) :
    (l.record m).Hangs c n ↔
      if m.channel = c ∧ m.note = n then m.action = .noteOn else l.Hangs c n := by
  simp only [Hangs, messagesOn_record]
  split <;> simp

theorem Quiet.hangs_iff (quiet : l.Quiet m c n) : m.Hangs c n ↔ l.Hangs c n := by
  rw [Hangs, Hangs, quiet]

structure Later (l m : Line) : Prop where
  fails : m.fails = l.fails
  sent : l.sent <+: m.sent

namespace Later

theorem refl (l : Line) : l.Later l := ⟨rfl, List.prefix_rfl⟩

theorem trans (first : l.Later m) (second : m.Later r) : l.Later r :=
  ⟨second.fails.trans first.fails, first.sent.trans second.sent⟩

theorem lose (l : Line) : l.Later l.lose := ⟨rfl, List.prefix_rfl⟩

theorem record (l : Line) (m : Message) : l.Later (l.record m) := ⟨rfl, List.prefix_append _ _⟩

theorem messagesOn_prefix (later : l.Later m) : l.messagesOn c n <+: m.messagesOn c n :=
  later.sent.filter _

theorem quiet_iff (first : l.Later m) (second : m.Later r) :
    l.Quiet r c n ↔ l.Quiet m c n ∧ m.Quiet r c n := by
  have early := (first.messagesOn_prefix (c := c) (n := n)).length_le
  have late := (second.messagesOn_prefix (c := c) (n := n)).length_le
  constructor
  · intro quiet
    have equal := congrArg List.length quiet
    have still : m.messagesOn c n = l.messagesOn c n :=
      (first.messagesOn_prefix.eq_of_length (by omega)).symm
    exact ⟨still, quiet.trans still.symm⟩
  · intro ⟨quiet, still⟩
    exact still.trans quiet

end Later

end Line

namespace Sounding

variable {s : Sounding} {voice : Voice} {note : Note}

theorem stop_eq_self (absent : (voice, note) ∉ s) : s.stop voice note = s := by
  have nowhere : s.idxOf? (voice, note) = none := List.idxOf?_eq_none_iff.2 absent
  simp only [stop, nowhere]

theorem stop_append_cons {front back : Sounding} (fresh : (voice, note) ∉ front) :
    stop (front ++ (voice, note) :: back) voice note =
      (front ++ (back.getLast?.getD (voice, note)) :: back).dropLast := by
  have found : (front ++ (voice, note) :: back).idxOf? (voice, note) = some front.length := by
    rw [List.idxOf?_eq_some_iff]
    refine ⟨by simp, by simp, ?_⟩
    intro j before
    rw [List.getElem_append_left before]
    exact fun same => fresh (same ▸ List.getElem_mem before)
  have last : (front ++ (voice, note) :: back).getLast? =
      some (back.getLast?.getD (voice, note)) := by
    rw [List.getLast?_append, List.getLast?_cons]
    rfl
  simp only [stop, found, last, List.set_append_right _ _ (Nat.le_refl _), Nat.sub_self,
    List.set_cons_zero]

theorem stop_perm : (s.stop voice note).Perm (s.erase (voice, note)) := by
  by_cases held : (voice, note) ∈ s
  · obtain ⟨front, back, rfl, fresh⟩ := List.eq_append_cons_of_mem held
    rw [stop_append_cons fresh, List.erase_append_right _ fresh, List.erase_cons_head]
    cases back using List.reverseRecOn with
    | nil => simp
    | append_singleton middle last =>
      rw [List.getLast?_concat, Option.getD_some, ← List.cons_append, ← List.append_assoc,
        List.dropLast_concat]
      have swapped : (last :: middle).Perm (middle ++ [last]) :=
        (List.perm_append_singleton last middle).symm
      exact swapped.append_left front
  · rw [stop_eq_self held, List.erase_of_not_mem held]

theorem mem_apply_of_ne {cue : Cue Float} {x : Voice × Note} (other : x ≠ (cue.voice, cue.note)) :
    x ∈ s.apply cue ↔ x ∈ s := by
  cases action : cue.action with
  | noteOff =>
    simp only [apply, action]
    rw [stop_perm.mem_iff, List.mem_erase_of_ne other]
  | noteOn => simp [apply, action, start, other]

theorem mem_apply_of_noteOn {cue : Cue Float} (starts : cue.action = .noteOn) :
    (cue.voice, cue.note) ∈ s.apply cue := by
  simp [apply, starts, start]

end Sounding

end ChordScript.Midi
