import ChordScript.Session
import Mathlib.Data.List.Flatten
import Mathlib.Data.List.Pairwise

namespace ChordScript

inductive Stage
  | compiling
  | warning
  | dump
  | listing
  | playing
  | failure
  deriving DecidableEq

namespace Stage

def rank : Stage → Nat
  | compiling => 0
  | warning => 1
  | dump => 2
  | listing => 3
  | playing => 4
  | failure => 5

def all : List Stage := [compiling, warning, dump, listing, playing, failure]

end Stage

def Journal.Entry.stage (e : Journal.Entry) : Stage :=
  match e.origin with
  | .reader | .scheduler => .compiling
  | .listing => .listing
  | .player | .ports => .playing
  | .main => if e.level = .warn then .warning else .failure

def Output.stage : Output → Stage
  | .entry e => e.stage
  | .text _ => .dump

namespace Session

open Journal

def on (x : Session) (t : Stage) : List Output := x.outputs.filter (·.stage = t)

structure Parts where
  on : Stage → List Output
  stage_of_mem : ∀ t, ∀ y ∈ on t, y.stage = t

namespace Parts

variable (p : Parts)

def outputs : List Output := Stage.all.flatMap p.on

theorem filter_outputs (t : Stage) : p.outputs.filter (·.stage = t) = p.on t := by
  have picked (u : Stage) : (p.on u).filter (·.stage = t) = if u = t then p.on u else [] := by
    split
    · rename_i same
      exact List.filter_eq_self.2 fun y hy => by simp [p.stage_of_mem u y hy, same]
    · rename_i other
      exact List.filter_eq_nil_iff.2 fun y hy => by simp [p.stage_of_mem u y hy, other]
  rw [outputs, List.filter_flatMap]
  simp only [picked]
  cases t <;> simp [Stage.all]

theorem pairwise_outputs : p.outputs.Pairwise fun a b => a.stage.rank ≤ b.stage.rank := by
  rw [outputs, List.pairwise_flatMap]
  constructor
  · intro t _
    refine List.pairwise_of_forall_mem_list fun a ha b hb => Nat.le_of_eq ?_
    rw [p.stage_of_mem t a ha, p.stage_of_mem t b hb]
  · have ranks : Stage.all.Pairwise fun t u => t.rank ≤ u.rank := by decide
    refine ranks.imp fun {t u} le a ha b hb => ?_
    rwa [p.stage_of_mem t a ha, p.stage_of_mem u b hb]

def shown (level : Level) : Parts where
  on t := (p.on t).filter (isShown level)
  stage_of_mem t y hy := p.stage_of_mem t y (List.mem_filter.1 hy).1

theorem outputs_shown (level : Level) :
    (p.shown level).outputs = p.outputs.filter (isShown level) :=
  (List.filter_flatMap ..).symm

end Parts

theorem stage_entries (s : Statement) (outcome : Outcome Float) :
    ∀ e ∈ outcome.entries s, e.stage = .compiling := by
  cases outcome with
  | tempo t => exact List.forall_mem_singleton.2 rfl
  | placed events => exact List.forall_mem_map.2 fun _ _ => rfl
  | dropped error => exact List.forall_mem_singleton.2 rfl

theorem stage_compileJournal (text : String) (context : Context) :
    ∀ e ∈ compileJournal text context, e.stage = .compiling := by
  rw [compileJournal, List.forall_mem_append]
  refine ⟨List.forall_mem_map.2 fun _ _ => rfl, ?_⟩
  rw [Program.scheduleJournal]
  split
  · exact List.forall_mem_nil _
  · refine List.forall_mem_append.2 ⟨List.forall_mem_cons.2 ⟨rfl, ?_⟩, ?_⟩
    · exact List.forall_mem_flatMap.2 fun x _ => stage_entries x.1 x.2
    · split
      · exact List.forall_mem_singleton.2 rfl
      · exact List.forall_mem_nil _

theorem stage_listing (s : Schedule Float) : ∀ e ∈ s.listing, e.stage = .listing :=
  List.forall_mem_append.2
    ⟨List.forall_mem_map.2 fun _ _ => rfl, List.forall_mem_singleton.2 rfl⟩

theorem stage_opening (ports : Midi.Ports) (port : Option String) :
    ∀ e ∈ ports.journal port, e.stage = .playing := by
  cases port with
  | none => exact List.forall_mem_singleton.2 rfl
  | some name =>
    rw [Midi.Ports.journal]
    split
    · exact List.forall_mem_singleton.2 rfl
    · exact List.forall_mem_nil _

theorem stage_playJournal (player : Midi.Player) (s : Schedule Float) :
    ∀ e ∈ player.playJournal s, e.stage = .playing := by
  refine List.forall_mem_append.2
    ⟨List.forall_mem_cons.2 ⟨rfl, List.forall_mem_map.2 fun _ _ => rfl⟩, ?_⟩
  split
  · exact List.forall_mem_singleton.2 rfl
  · exact List.forall_mem_nil _

theorem stage_closeJournal (player : Midi.Player) :
    ∀ e ∈ player.closeJournal, e.stage = .playing := by
  rw [Midi.Player.closeJournal]
  split
  · exact List.forall_mem_nil _
  · exact List.forall_mem_singleton.2 rfl

theorem grave_warnings (found : List Diagnostic) :
    ∀ e ∈ found.map warning, e.level.rank ≤ 2 :=
  List.forall_mem_map.2 fun _ _ => Nat.le_succ 1

theorem grave_errors (messages : List String) :
    ∀ e ∈ messages.map errorEntry, e.level.rank ≤ 2 :=
  List.forall_mem_map.2 fun _ _ => Nat.zero_le 2

theorem grave_listing (s : Schedule Float) : ∀ e ∈ s.listing, e.level.rank ≤ 2 :=
  List.forall_mem_append.2
    ⟨List.forall_mem_map.2 fun _ _ => Nat.le_refl 2, List.forall_mem_singleton.2 (Nat.le_refl 2)⟩

theorem stage_of_mem_entries {es : List Entry} {t : Stage} (h : ∀ e ∈ es, e.stage = t) :
    ∀ y ∈ entries es, y.stage = t :=
  List.forall_mem_map.2 h

def Parts.ofEntries (compiling : List Entry) (found : List Diagnostic) (dumps : List String)
    (listing playing : List Entry) (failure : Option String)
    (hcompiling : ∀ e ∈ compiling, e.stage = .compiling)
    (hlisting : ∀ e ∈ listing, e.stage = .listing)
    (hplaying : ∀ e ∈ playing, e.stage = .playing) : Parts where
  on
    | .compiling => entries compiling
    | .warning => entries (found.map warning)
    | .dump => dumps.map .text
    | .listing => entries listing
    | .playing => entries playing
    | .failure => entries (failure.toList.map errorEntry)
  stage_of_mem
    | .compiling => stage_of_mem_entries hcompiling
    | .warning => stage_of_mem_entries (List.forall_mem_map.2 fun _ _ => rfl)
    | .dump => List.forall_mem_map.2 fun _ _ => rfl
    | .listing => stage_of_mem_entries hlisting
    | .playing => stage_of_mem_entries hplaying
    | .failure => stage_of_mem_entries (List.forall_mem_map.2 fun _ _ => rfl)

variable {o : Options} {w : Surroundings} {p : Parts} {status : Status}

theorem rank_level (o : Options) : 2 ≤ o.level.rank := by
  rw [Options.level]
  split <;> decide

theorem filter_isShown {ys : List Output}
    (grave : ∀ e, Output.entry e ∈ ys → e.level.rank ≤ 2) :
    ys.filter (isShown o.level) = ys := by
  refine List.filter_eq_self.2 fun y hy => ?_
  cases y with
  | entry e => exact decide_eq_true (Nat.le_trans (grave e hy) (rank_level o))
  | text t => rfl

section

variable (h : runAll o w = ⟨p.outputs, status⟩)

include h

theorem status_run : (run o w).status = status := by
  rw [run, h]

theorem pairwise_run : (run o w).outputs.Pairwise fun a b => a.stage.rank ≤ b.stage.rank := by
  rw [run, h]
  exact p.outputs_shown o.level ▸ (p.shown o.level).pairwise_outputs

theorem on_run {t : Stage} (grave : ∀ e, Output.entry e ∈ p.on t → e.level.rank ≤ 2) :
    (run o w).on t = p.on t := by
  rw [run, h, on, ← p.outputs_shown o.level, Parts.filter_outputs]
  exact filter_isShown grave

theorem on_run_entries {t : Stage} {es : List Entry} (same : p.on t = entries es)
    (grave : ∀ e ∈ es, e.level.rank ≤ 2) : (run o w).on t = entries es := by
  rw [on_run h, same]
  intro e he
  rw [same] at he
  obtain ⟨_, mem, same⟩ := List.mem_map.1 he
  cases same
  exact grave e mem

theorem getLast?_run {e : Entry} (last : p.on .failure = [.entry e]) (grave : e.level.rank ≤ 2) :
    (run o w).outputs.getLast? = some (.entry e) := by
  have kept : (p.on .failure).filter (isShown o.level) = [.entry e] := by
    rw [last]
    exact filter_isShown fun d hd => by cases List.mem_singleton.1 hd; exact grave
  rw [run, h, ← p.outputs_shown o.level, Parts.outputs, Stage.all]
  simp [Parts.shown, kept]

end

end Session

end ChordScript
