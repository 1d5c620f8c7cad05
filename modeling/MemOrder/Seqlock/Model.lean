/-
# The seqlock recorder on x86-TSO

Any number of threads make any accesses: `call` starts one, `instr` runs the next instruction of
the code, `drain` writes the oldest buffered store of a thread to memory, and these interleave in
any order.

`done t` are the accesses thread `t` has completed, each with its version and value.  The
thread-local half of `mem_read` and `mem_write` turns exactly this list into the thread's logs
(`record L (done t)`), and its `memop` is the length of the list; so the state carries the list.
-/
import MemOrder.Seqlock.Code
import MemOrder.Lib.Trans

namespace MemOrder.Seqlock

open Tso

variable {Addr : Type} [DecidableEq Addr]

/-- Shared memory, and for each thread its store buffer, its place and its completed accesses. -/
structure State (Addr : Type) where
  mem : Mem Addr
  buf : Nat → List (Store Addr)
  pc : Nat → Pc Addr
  done : Nat → List (Event Addr)

namespace State

variable (L : Layout Addr) (s : State Addr) (t : Nat)

/-- Memory as thread `t` sees it. -/
def view : Mem Addr := Tso.view Mem.store s.mem (s.buf t)

/-- The `memop`-th access of thread `t`, not yet counted. -/
def event (op : Op) (a : Addr) (version : Int) (val : Val) : Event Addr :=
  ⟨t, (s.done t).length, op, a, version, val⟩

/-- Thread `t` goes on to what follows an instruction. -/
def advance : Next Addr → State Addr
  | .goto pc => { s with pc := Function.update s.pc t pc }
  | .ret op a v x =>
    { s with
      pc := Function.update s.pc t .idle
      done := Function.update s.done t (s.done t ++ [s.event t op a v x]) }

/-- Thread `t` calls `mem_read` or `mem_write`. -/
def call (acc : Acc Addr) : Option (State Addr) :=
  if s.pc t = .idle then some { s with pc := Function.update s.pc t (.start acc) } else none

/-- Thread `t` executes the instruction it is at. -/
def instr : Option (State Addr) :=
  (code L (s.pc t)).bind fun i =>
    (i.tso Mem.store s.mem (s.buf t)).map fun r =>
      { s with mem := r.1, buf := Function.update s.buf t r.2.1 }.advance t r.2.2

/-- The oldest store of thread `t` reaches memory. -/
def drain : Option (State Addr) :=
  match s.buf t with
  | [] => none
  | st :: b => some { s with mem := s.mem.store st, buf := Function.update s.buf t b }

/-- The accesses of thread `t` that have taken effect: the completed ones, and a write that is
past its fence. -/
def effected : List (Event Addr) :=
  s.done t ++
    match s.pc t with
    | .write a x (.inc2Load v) => [s.event t .W a v x]
    | .write a x (.inc2Store v _) => [s.event t .W a v x]
    | .write a x (.unlock v) => [s.event t .W a v x]
    | _ => []

/-- The access that takes effect with the next instruction of thread `t`: a write at its fence, a
read when its check succeeds. -/
def enters : List (Event Addr) :=
  match s.pc t with
  | .write a x (.fence v) => [s.event t .W a v x]
  | .read a (.check v x) =>
    if v = (s.view t).version (L.calcObjid a) then [s.event t .R a v x] else []
  | _ => []

end State

/-- The state before the run. -/
def State.initial (m₀ : Addr → Val) : State Addr :=
  ⟨.initial m₀, fun _ => [], fun _ => .idle, fun _ => []⟩

/-- The recorder: `nthr` threads, any calls, any interleaving of instructions and drains. -/
def sys (L : Layout Addr) (nthr : Nat) (m₀ : Addr → Val) : Trans.Sys (State Addr) Unit where
  init s := s = .initial m₀
  step s _ s' := ∃ t < nthr, (∃ acc, s.call t acc = some s') ∨ s.instr L t = some s' ∨
    s.drain t = some s'

end MemOrder.Seqlock
