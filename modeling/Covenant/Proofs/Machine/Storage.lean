/-
**Reading what was written.**

A path reads only what it has written if every load on it comes behind a store to the same offset.
The property is followed along the path by the list of the offsets that were written so far.  To
show it of all paths from a state, the state is called *safe*; where the next steps are forced, it
is enough that they are guarded and lead to a safe state.

Main definitions:

* `Covenant.Machine.LoadsStored` — every load of a trace comes behind a store to the same offset;
* `Covenant.Machine.Guarded`, `Covenant.Machine.record` — the same with offsets that were written
  before, and the offsets that are written behind a trace;
* `Covenant.Machine.Safe` — every path from a state is guarded.

Main results:

* `Machine.guarded_nil_iff` — the two ways of saying it agree;
* `Machine.safe_of_forced`, `Machine.safe_of_step`, `Machine.safe_of_stopped` — a state is safe if
  its steps lead to safe states.
-/

import Covenant.Proofs.Machine.Execution

set_option relaxedAutoImplicit false
set_option autoImplicit false

namespace Covenant.Machine

/-! ### Traces -/

/-- Every load of a trace comes behind a store to the same offset. -/
def LoadsStored (trace : List Access) : Prop :=
  ∀ before size offset after, trace = before ++ .load size offset :: after →
    ∃ size, Access.store size offset ∈ before

/-- The offsets that are written behind a trace, if these were written before it. -/
def record (stored : List Word) : List Access → List Word
  | [] => stored
  | .load _ _ :: rest => record stored rest
  | .store _ offset :: rest => record (offset :: stored) rest

/-- Every load of a trace is at an offset that was written before. -/
def Guarded (stored : List Word) : List Access → Prop
  | [] => True
  | .load _ offset :: rest => offset ∈ stored ∧ Guarded stored rest
  | .store _ offset :: rest => Guarded (offset :: stored) rest

theorem record_append (stored : List Word) (trace more : List Access) :
    record stored (trace ++ more) = record (record stored trace) more := by
  induction trace generalizing stored with
  | nil => rfl
  | cons access rest ih => cases access <;> exact ih _

theorem guarded_append {stored : List Word} {trace more : List Access} :
    Guarded stored (trace ++ more) ↔ Guarded stored trace ∧ Guarded (record stored trace) more := by
  induction trace generalizing stored with
  | nil => simp [Guarded, record]
  | cons access rest ih =>
      cases access with
      | load size offset => simp only [List.cons_append, Guarded, record, ih, and_assoc]
      | store size offset => exact ih

theorem mem_record_iff {stored : List Word} {trace : List Access} {offset : Word} :
    offset ∈ record stored trace ↔ offset ∈ stored ∨ ∃ size, Access.store size offset ∈ trace := by
  induction trace generalizing stored with
  | nil => simp [record]
  | cons access rest ih =>
      cases access with
      | load size other => simp [record, ih]
      | store size other =>
          rw [record, ih, List.mem_cons]
          constructor
          · rintro ((rfl | old) | ⟨size, new⟩)
            · exact .inr ⟨_, .head _⟩
            · exact .inl old
            · exact .inr ⟨size, .tail _ new⟩
          · rintro (old | ⟨size, new⟩)
            · exact .inl (.inr old)
            · cases new with
              | head => exact .inl (.inl rfl)
              | tail _ new => exact .inr ⟨size, new⟩

/-- The two ways of saying that a path reads only what it has written agree. -/
theorem guarded_nil_iff {trace : List Access} : Guarded [] trace ↔ LoadsStored trace := by
  constructor
  · rintro guarded before size offset after rfl
    have later := (guarded_append.1 guarded).2
    simpa [mem_record_iff] using later.1
  · intro stored
    -- the front of the trace that is guarded grows until it is all of the trace
    suffices ∀ before after, trace = before ++ after → Guarded [] before → Guarded [] trace from
      this [] trace rfl trivial
    intro before after same guarded
    induction after generalizing before with
    | nil => rwa [same, List.append_nil]
    | cons access rest ih =>
        refine ih (before ++ [access]) (by simp [same]) (guarded_append.2 ⟨guarded, ?_⟩)
        cases access with
        | load size offset =>
            exact ⟨mem_record_iff.2 (.inr (stored before size offset rest same)), trivial⟩
        | store size offset => trivial

/-! ### Safe states -/

/-- Every path from a state is guarded, if these offsets were written before. -/
def Safe (world : World) (code : List UInt8) (stored : List Word) (state : State) : Prop :=
  ∀ trace last, Path (Free world code) code state trace last → Guarded stored trace

variable {world : World} {code : List UInt8} {stored : List Word} {state : State}

/-- A state where execution stops is safe. -/
theorem safe_of_stopped {outcome : Outcome}
    (h : ∀ taken, step world taken code state = some (.stopped outcome)) :
    Safe world code stored state := by
  intro trace last path
  cases path with
  | refl => trivial
  | head move _ =>
      obtain ⟨taken, moved⟩ := move
      rw [h taken] at moved
      cases moved

/-- A state is safe if its step is guarded and leads to safe states. -/
theorem safe_of_step (guarded : Guarded stored (accesses code state))
    (safe : ∀ next, Free world code state next →
      Safe world code (record stored (accesses code state)) next) :
    Safe world code stored state := by
  intro trace last path
  cases path with
  | refl => trivial
  | head move rest => exact guarded_append.2 ⟨guarded, safe _ move _ _ rest⟩

/-- A state is safe if the steps that no decision changes are guarded and lead to a safe state. -/
theorem safe_of_forced {trace : List Access} {next : State}
    (path : Path (Forced world code) code state trace next) (guarded : Guarded stored trace)
    (safe : Safe world code (record stored trace) next) : Safe world code stored state := by
  induction path generalizing stored with
  | refl => exact safe
  | head move _ ih =>
      obtain ⟨now, later⟩ := guarded_append.1 guarded
      rw [record_append] at safe
      refine safe_of_step now fun next free => ?_
      obtain ⟨taken, moved⟩ := free
      rw [move taken] at moved
      cases moved
      exact ih later safe

end Covenant.Machine
