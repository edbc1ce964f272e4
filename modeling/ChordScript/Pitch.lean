namespace ChordScript

inductive PitchClass
  | c
  | cSharp
  | d
  | dSharp
  | e
  | f
  | fSharp
  | g
  | gSharp
  | a
  | aSharp
  | b
  deriving DecidableEq, Repr

namespace PitchClass

def all : List PitchClass :=
  [.c, .cSharp, .d, .dSharp, .e, .f, .fSharp, .g, .gSharp, .a, .aSharp, .b]

def index : PitchClass → Nat
  | .c => 0
  | .cSharp => 1
  | .d => 2
  | .dSharp => 3
  | .e => 4
  | .f => 5
  | .fSharp => 6
  | .g => 7
  | .gSharp => 8
  | .a => 9
  | .aSharp => 10
  | .b => 11

def ofIndex (i : Int) : PitchClass :=
  match (i % 12).toNat with
  | 0 => .c
  | 1 => .cSharp
  | 2 => .d
  | 3 => .dSharp
  | 4 => .e
  | 5 => .f
  | 6 => .fSharp
  | 7 => .g
  | 8 => .gSharp
  | 9 => .a
  | 10 => .aSharp
  | _ => .b

theorem index_lt (p : PitchClass) : p.index < 12 := by
  cases p <;> decide

@[simp] theorem ofIndex_index (p : PitchClass) : ofIndex p.index = p := by
  cases p <;> rfl

theorem index_ofIndex (i : Int) : ((ofIndex i).index : Int) = i % 12 := by
  have lower := Int.emod_nonneg i (b := 12) (by decide)
  have upper := Int.emod_lt_of_pos i (b := 12) (by decide)
  obtain ⟨n, hn⟩ := Int.eq_ofNat_of_zero_le lower
  unfold ofIndex
  rw [hn] at upper ⊢
  have : n < 12 := by omega
  simp only [Int.toNat_natCast]
  match n, this with
  | 0, _ | 1, _ | 2, _ | 3, _ | 4, _ | 5, _ | 6, _ | 7, _ | 8, _ | 9, _ | 10, _ | 11, _ => rfl

end PitchClass

structure Pitch where
  pitchClass : PitchClass
  octave : Int
  deriving DecidableEq, Repr

namespace Pitch

def transpose (p : Pitch) (semitones : Int) : Pitch :=
  let position := p.pitchClass.index + semitones
  ⟨.ofIndex position, p.octave + position / 12⟩

def midi (p : Pitch) : Int := (p.octave + 1) * 12 + p.pitchClass.index

theorem midi_transpose (p : Pitch) (k : Int) : (p.transpose k).midi = p.midi + k := by
  simp only [midi, transpose, PitchClass.index_ofIndex]
  omega

def inOctave (octave : Int) : List Pitch := PitchClass.all.map (⟨·, octave⟩)

end Pitch

end ChordScript
