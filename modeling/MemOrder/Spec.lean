/-
# Atomic versioned objects

The purpose of every recorder in one machine: a call is made, takes effect at one point, and
returns.  The point is an internal step; it appends the access to the order and must be legal
there (`Enabled`): a read returns the current version and value, a write at version `v` sets its
word and makes the version `v + 2`.  Calls and returns are the visible labels, so a recorder that
refines this machine has every access happen between its call and its return.
-/
import MemOrder.Atomic
import MemOrder.Lib.Trans

namespace MemOrder.Spec

variable {Addr : Type} [DecidableEq Addr]

/-- What a caller can see. -/
inductive Label (Addr : Type)
  | call (tid : Nat) (acc : Acc Addr)
  | ret (e : Event Addr)

/-- Where a thread is with its call. -/
inductive Call (Addr : Type)
  | idle
  | pending (acc : Acc Addr)
  /-- It has taken effect and not returned. -/
  | done (e : Event Addr)

/-- The order so far and the threads' calls. -/
structure State (Addr : Type) where
  trace : List (Event Addr)
  call : Nat → Call Addr

inductive Step (L : Layout Addr) (nthr : Nat) (m₀ : Addr → Val) :
    State Addr → Option (Label Addr) → State Addr → Prop
  | call {s : State Addr} {t : Nat} {acc : Acc Addr} : t < nthr → s.call t = .idle →
      Step L nthr m₀ s (some (.call t acc)) { s with call := Function.update s.call t (.pending acc) }
  | perform {s : State Addr} {e : Event Addr} : e.tid < nthr → s.call e.tid = .pending e.acc →
      Enabled L m₀ s.trace e →
      Step L nthr m₀ s none ⟨s.trace ++ [e], Function.update s.call e.tid (.done e)⟩
  | ret {s : State Addr} {e : Event Addr} : e.tid < nthr → s.call e.tid = .done e →
      Step L nthr m₀ s (some (.ret e)) { s with call := Function.update s.call e.tid .idle }

def sys (L : Layout Addr) (nthr : Nat) (m₀ : Addr → Val) :
    Trans.Sys (State Addr) (Label Addr) where
  init s := s = ⟨[], fun _ => .idle⟩
  step := Step L nthr m₀

/-- The order is legal in every reachable state. -/
theorem reach_legal {L : Layout Addr} {nthr : Nat} {m₀ : Addr → Val} {s : State Addr}
    (h : (sys L nthr m₀).Reach s) : Legal L m₀ s.trace := by
  refine Trans.Sys.reach_of_inductive (I := fun s => Legal L m₀ s.trace) ?_ ?_ h
  · rintro s rfl
    exact .nil
  · rintro s l s' - hl hst
    cases hst with
    | call => exact hl
    | perform _ _ hen => exact hl.snoc hen
    | ret => exact hl

end MemOrder.Spec
