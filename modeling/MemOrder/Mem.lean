/-
# The data of `mem.h`, and the programs that use it

Threads make 32-bit accesses through `mem_read` and `mem_write`; `calc_objid`, supplied by the
test program, maps the accessed address to the shared object whose version orders it.  Several
addresses may belong to one object, and the model keeps that: memory is indexed by address,
versions by object.

A thread's program is deterministic: its next access is a function of the results of its
accesses so far (a read's value; nothing for a write).  `memop_t` counters are natural numbers
here; the log entries, where -1 is a marker, carry integers.
-/
import Mathlib.Logic.Function.Basic
import Mathlib.Algebra.Order.Ring.Int
import Mathlib.Data.List.Induction
import MemOrder.Lib.Trace

namespace MemOrder

/-! ## Machine integers

Conversions and increments wrap around.  For the signed types the C standard says so of neither; the
compilers the code is written for do it. -/

/-- Conversion to `tid_t`, an `int8_t`. -/
def tidT (i : Int) : Int := i.bmod 256

/-- Conversion to `int`. -/
def int32 (i : Int) : Int := i.bmod (2 ^ 32)

theorem tidT_of_lt {i : Nat} (h : i < 128) : tidT i = i := by
  rw [tidT, Int.bmod_def]
  omega

theorem int32_of_lt {i : Int} (h0 : 0 ≤ i) (h : i < 2 ^ 31) : int32 i = i := by
  rw [int32, Int.bmod_def]
  omega

theorem int32_bounds (i : Int) : -2 ^ 31 ≤ int32 i ∧ int32 i < 2 ^ 31 := by
  rw [int32, Int.bmod_def]
  omega

theorem int32_succ {i : Int} (hlo : -2 ^ 31 ≤ i) (hhi : i < 2 ^ 31) :
    int32 (i + 1) = if i = 2 ^ 31 - 1 then -2 ^ 31 else i + 1 := by
  rw [int32, Int.bmod_def]
  split <;> omega

/-! ## Accesses -/

/-- The values stored in shared memory, `uint32_t`. -/
abbrev Val := UInt32

/-- `RTM_BATCH_N`, the accesses of a simulated basic block. -/
def rtmBatchN : Nat := 7

/-- The access kind, `'R'` or `'W'` in `struct mem_acc`. -/
inductive Op
  | R
  | W
deriving DecidableEq, Repr

/-- One call of `mem_read` or `mem_write` by a thread. -/
inductive Acc (Addr : Type)
  | read (addr : Addr)
  | write (addr : Addr) (val : Val)
deriving DecidableEq, Repr

/-- The address a call is about. -/
def Acc.addr {Addr : Type} : Acc Addr → Addr
  | .read a => a
  | .write a _ => a

def Acc.op {Addr : Type} : Acc Addr → Op
  | .read _ => .R
  | .write _ _ => .W

/-- One place in `mem_read`, for a read, and one in `mem_write`, for a write. -/
@[simp] def Acc.place {Addr P : Type} (read : Addr → P) (write : Addr → Val → P) : Acc Addr → P
  | .read a => read a
  | .write a v => write a v

/-- An access that has taken effect: the `memop`-th of thread `tid`, at version `version` of its
object, having read or written `val`.  (`struct mem_acc` with its thread.) -/
structure Event (Addr : Type) where
  tid : Nat
  memop : Nat
  op : Op
  addr : Addr
  version : Int
  val : Val
deriving DecidableEq, Repr

/-- The call an event answers. -/
def Event.acc {Addr : Type} (e : Event Addr) : Acc Addr :=
  match e.op with
  | .R => .read e.addr
  | .W => .write e.addr e.val

/-- What the calling thread gets back: a read's value, nothing from a write. -/
def Event.result {Addr : Type} (e : Event Addr) : Option Val :=
  match e.op with
  | .R => some e.val
  | .W => none

/-- A deterministic thread program: the results so far determine the next call, or the end. -/
abbrev Prog (Addr : Type) := List (Option Val) → Option (Acc Addr)

/-- The shared objects: `g_nobj` of them, and the test program's `calc_objid`, whose result is
an index of the object arrays. -/
structure Layout (Addr : Type) where
  nobj : Nat
  calcObjid : Addr → Nat
  calcObjid_lt : ∀ a, calcObjid a < nobj

/-- The object an event is on. -/
def Layout.obj {Addr : Type} (L : Layout Addr) (e : Event Addr) : Nat := L.calcObjid e.addr

/-- Two objects of one word each. -/
def pairLayout : Layout Bool := ⟨2, Bool.toNat, Bool.toNat_lt⟩

/-- `struct wait_version`: access `memop` waits until its object reaches `version`. -/
structure WaitVersion where
  memop : Int
  version : Int
deriving DecidableEq, Repr

/-- `struct wait_memop`: the writer of version `version` of `objid` waits for access `memop`. -/
structure WaitMemop where
  objid : Int
  version : Int
  memop : Int
deriving DecidableEq, Repr

/-- `struct replay_wait_memop`: a `wait_memop` entry of one object's merged log. -/
structure ReplayWaitMemop where
  version : Int
  memop : Int
  tid : Nat
deriving DecidableEq, Repr

/-! ## A thread's part of a trace -/

section Thread

variable {Addr : Type}

/-- The events of thread `t`, in order. -/
def thread (t : Nat) (tr : List (Event Addr)) : List (Event Addr) :=
  tr.filter (fun e => e.tid == t)

/-- The results thread `t`'s program has seen. -/
def results (es : List (Event Addr)) : List (Option Val) := es.map Event.result

@[simp] theorem thread_nil (t : Nat) : thread t ([] : List (Event Addr)) = [] := rfl

@[simp] theorem thread_append (t : Nat) (a b : List (Event Addr)) :
    thread t (a ++ b) = thread t a ++ thread t b := List.filter_append ..

theorem thread_singleton (t : Nat) (e : Event Addr) :
    thread t [e] = if e.tid = t then [e] else [] := by
  by_cases h : e.tid = t <;> simp [thread, h]

theorem thread_cons (t : Nat) (e : Event Addr) (tr : List (Event Addr)) :
    thread t (e :: tr) = (if e.tid = t then [e] else []) ++ thread t tr := by
  rw [← thread_singleton, ← thread_append]; rfl

@[simp] theorem mem_thread {t : Nat} {e : Event Addr} {tr : List (Event Addr)} :
    e ∈ thread t tr ↔ e ∈ tr ∧ e.tid = t := by
  simp [thread]

@[simp] theorem results_append (a b : List (Event Addr)) :
    results (a ++ b) = results a ++ results b := List.map_append ..

end Thread

end MemOrder
