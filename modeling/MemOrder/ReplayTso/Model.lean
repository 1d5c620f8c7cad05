/-
# The version-log replayer on x86-TSO

`mem-replay.c` has no fence and no volatile: a replaying thread learns what the others have done
from plain loads of `obj_version` and of their `memop`, and tells them with plain stores.  The
other model of the replayer lets every store reach memory at once.  Here a store goes to the
thread's buffer first and drains later, and every load is a step of its own: `obj_version += 2`,
`memop++` and `n++` are a load and a store, and `next_reader_memop` loads the version and the
cursor separately.

The mutex operations are locked instructions, so they take place with an empty buffer.  That is
once or more for each write, in `wait_reader`, and never for a read.

The thread keeps what its program has seen (`Made`); versions are not part of it.
-/
import MemOrder.Replay.Faithful
import MemOrder.Commit.Serial
import MemOrder.Lib.Tso

namespace MemOrder.ReplayTso

open Tso
open Commit (Made)
open Replay (Failure)

variable {Addr : Type} [DecidableEq Addr]

/-! ## 1. Shared memory -/

/-- What more than one thread looks at: the data words, `obj_version`, the `memop` of each thread
(through `memop_cnt`), and the cursor and mutex of each reader log. -/
structure Mem (Addr : Type) where
  val : Addr → Val
  objVersion : Nat → Int
  memop : Nat → Nat
  n : Nat → Nat
  mutex : Nat → Bool

inductive Store (Addr : Type)
  | val (addr : Addr) (x : Val)
  | objVersion (objid : Nat) (version : Int)
  | memop (tid : Nat) (k : Nat)
  | n (objid : Nat) (k : Nat)
  | mutex (objid : Nat) (busy : Bool)
deriving DecidableEq, Repr

def Mem.store (m : Mem Addr) : Store Addr → Mem Addr
  | .val addr x => { m with val := Function.update m.val addr x }
  | .objVersion objid v => { m with objVersion := Function.update m.objVersion objid v }
  | .memop tid k => { m with memop := Function.update m.memop tid k }
  | .n objid k => { m with n := Function.update m.n objid k }
  | .mutex objid busy => { m with mutex := Function.update m.mutex objid busy }

/-! ## 2. Places in the code -/

/-- Where a thread is inside `mem_write`, from `wait_reader` on. -/
inductive WPc
  /-- `pthread_mutex_trylock`. -/
  | trylock
  /-- `if (n >= size)`. -/
  | checkSize
  /-- `version = obj_version[objid]`. -/
  | loadVersion
  /-- `logid = n`, and the comparison with the entry there. -/
  | loadN (version : Int)
  /-- The load of `n++`. -/
  | advanceLoad (ent : ReplayWaitMemop)
  /-- The store of `n++`. -/
  | advanceStore (ent : ReplayWaitMemop) (n : Nat)
  /-- `pthread_mutex_unlock`, then return the entry or `NULL`. -/
  | unlock (ret : Option ReplayWaitMemop)
  /-- `while (*memop_cnt[log->tid] <= log->memop)`. -/
  | waitMemop (ent : ReplayWaitMemop)
  /-- `*addr = val`. -/
  | store
  /-- The load of `obj_version[objid] += 2`. -/
  | incLoad
  /-- The store of `obj_version[objid] += 2`. -/
  | incStore (version : Int)
deriving DecidableEq, Repr

/-- Where a replaying thread is. -/
inductive Pc (Addr : Type)
  /-- Between accesses; `memop == wait_version.memop` comes first. -/
  | start
  /-- `while (obj_version[objid] < wait_version.version)`. -/
  | waitVersion (acc : Acc Addr)
  /-- `assert(obj_version[objid] == wait_version.version)`, then `next_wait_version_log`. -/
  | checkVersion (acc : Acc Addr)
  /-- `val = *addr` in `mem_read`. -/
  | load (addr : Addr)
  | write (addr : Addr) (val : Val) (w : WPc)
  /-- The load of `memop++`. -/
  | incMemopLoad
  /-- The store of `memop++`. -/
  | incMemopStore (k : Nat)
deriving DecidableEq, Repr

/-- What a thread has to itself. -/
structure Thr (Addr : Type) where
  pc : Pc Addr
  waitVersion : WaitVersion
  waitVersionLog : List WaitVersion
  done : List (Made Addr)

/-- `next_wait_version_log`, which looks at nothing shared. -/
def Thr.nextWaitVersionLog (th : Thr Addr) : Option (Thr Addr) :=
  (Replay.nextWaitVersionLog th.waitVersion th.waitVersionLog).map fun r =>
    { th with waitVersion := r.1, waitVersionLog := r.2 }

/-- Where `wait_object_version` returns to. -/
def afterWait : Acc Addr → Pc Addr := Acc.place .load fun a x => .write a x .trylock

/-- What follows an instruction. -/
inductive Next (Addr : Type)
  | goto (th : Thr Addr)
  /-- One more turn of a wait loop. -/
  | spin
  | fail (f : Failure)

/-! ## 3. The code -/

/-- `size` of a reader log, as `load_wait_reader_log` leaves it. -/
def logSize (log : List ReplayWaitMemop) : Int := if log = [] then -1 else log.length

/-- `wait_reader` and the rest of `mem_write`. -/
def writeCode (L : Layout Addr) (logs : Nat → List ReplayWaitMemop) (th : Thr Addr) (a : Addr)
    (x : Val) : WPc → Instr (Mem Addr) (Store Addr) (Next Addr)
  | .trylock => .xchg (.mutex (L.calcObjid a) true) fun m =>
    if m.mutex (L.calcObjid a) then .fail .concurrentAccess
    else .goto { th with pc := .write a x .checkSize }
  | .checkSize => .load fun m =>
    if logSize (logs (L.calcObjid a)) ≤ m.n (L.calcObjid a) then
      .goto { th with pc := .write a x (.unlock none) }
    else .goto { th with pc := .write a x .loadVersion }
  | .loadVersion => .load fun m =>
    .goto { th with pc := .write a x (.loadN (m.objVersion (L.calcObjid a))) }
  | .loadN version => .load fun m =>
    match (logs (L.calcObjid a))[m.n (L.calcObjid a)]? with
    | none => .fail .logOverrun
    | some ent =>
      if ¬ version ≤ ent.version then .fail .readerAssert
      else if m.n (L.calcObjid a) < logSize (logs (L.calcObjid a)) ∧ version = ent.version then
        .goto { th with pc := .write a x (.advanceLoad ent) }
      else .goto { th with pc := .write a x (.unlock none) }
  | .advanceLoad ent => .load fun m =>
    .goto { th with pc := .write a x (.advanceStore ent (m.n (L.calcObjid a))) }
  | .advanceStore ent n => .store (.n (L.calcObjid a) (n + 1))
    (.goto { th with pc := .write a x (.unlock (some ent)) })
  | .unlock ret => .xchg (.mutex (L.calcObjid a) false) fun _ =>
    match ret with
    | none => .goto { th with pc := .write a x .store }
    | some ent => .goto { th with pc := .write a x (.waitMemop ent) }
  | .waitMemop ent => .load fun m =>
    if (m.memop ent.tid : Int) ≤ ent.memop then .spin
    else .goto { th with pc := .write a x .trylock }
  | .store => .store (.val a x)
    (.goto { th with pc := .write a x .incLoad, done := th.done ++ [⟨.write a x, none⟩] })
  | .incLoad => .load fun m =>
    .goto { th with pc := .write a x (.incStore (m.objVersion (L.calcObjid a))) }
  | .incStore v => .store (.objVersion (L.calcObjid a) (v + 2)) (.goto { th with pc := .incMemopLoad })

/-- The instruction a thread is at; none when its program is over. -/
def code (L : Layout Addr) (prog : Nat → Prog Addr) (logs : Nat → List ReplayWaitMemop) (t : Nat)
    (th : Thr Addr) : Option (Instr (Mem Addr) (Store Addr) (Next Addr)) :=
  match th.pc with
  | .start => (prog t (th.done.map Made.res)).map fun acc => .load fun m =>
    if (m.memop t : Int) = th.waitVersion.memop then .goto { th with pc := .waitVersion acc }
    else .goto { th with pc := afterWait acc }
  | .waitVersion acc => some <| .load fun m =>
    if m.objVersion (L.calcObjid acc.addr) < th.waitVersion.version then .spin
    else .goto { th with pc := .checkVersion acc }
  | .checkVersion acc => some <| .load fun m =>
    if m.objVersion (L.calcObjid acc.addr) ≠ th.waitVersion.version then .fail .versionAssert
    else
      match th.nextWaitVersionLog with
      | none => .fail .logOverrun
      | some th' => .goto { th' with pc := afterWait acc }
  | .load a => some <| .load fun m =>
    .goto { th with pc := .incMemopLoad, done := th.done ++ [⟨.read a, some (m.val a)⟩] }
  | .write a x w => some (writeCode L logs th a x w)
  | .incMemopLoad => some <| .load fun m => .goto { th with pc := .incMemopStore (m.memop t) }
  | .incMemopStore k => some <| .store (.memop t (k + 1)) (.goto { th with pc := .start })

/-! ## 4. The system -/

/-- Shared memory, and of each thread its store buffer and what it has to itself. -/
structure State (Addr : Type) where
  mem : Mem Addr
  buf : Nat → List (Store Addr)
  thr : Nat → Thr Addr

/-- What a thread does when it is scheduled. -/
inductive Outcome (Addr : Type)
  | next (s : State Addr)
  | spin
  /-- A locked instruction waits for the buffer to drain. -/
  | undrained
  | finished
  | fail (f : Failure)

namespace State

variable (L : Layout Addr) (prog : Nat → Prog Addr) (logs : Nat → List ReplayWaitMemop)
  (s : State Addr) (t : Nat)

/-- Memory as thread `t` sees it. -/
def view : Mem Addr := Tso.view Mem.store s.mem (s.buf t)

/-- Thread `t` executes the instruction it is at. -/
def instr : Outcome Addr :=
  match code L prog logs t (s.thr t) with
  | none => .finished
  | some i =>
    match i.tso Mem.store s.mem (s.buf t) with
    | none => .undrained
    | some (m, b, .goto th) =>
      .next ⟨m, Function.update s.buf t b, Function.update s.thr t th⟩
    | some (_, _, .spin) => .spin
    | some (_, _, .fail f) => .fail f

/-- The oldest store of thread `t` reaches memory. -/
def drain : Option (State Addr) :=
  match s.buf t with
  | [] => none
  | st :: b => some { s with mem := s.mem.store st, buf := Function.update s.buf t b }

end State

/-- `mem_init_thr`. -/
def memInitThr (log : List WaitVersion) : Option (Thr Addr) :=
  Thr.nextWaitVersionLog ⟨.start, ⟨0, 0⟩, log, []⟩

/-- The version logs the threads of a recorded run leave. -/
def versionLogs (L : Layout Addr) (tr : List (Event Addr)) (t : Nat) : List WaitVersion :=
  (recordThr L (thread t tr)).waitVersion

/-- The state after `mem_init` and every thread's `mem_init_thr`, which opens its version log. -/
def Initial (m₀ : Addr → Val) (versions : Nat → List WaitVersion) (s : State Addr) : Prop :=
  s.mem = ⟨m₀, fun _ => 0, fun _ => 0, fun _ => 0, fun _ => false⟩ ∧ s.buf = (fun _ => []) ∧
    ∀ t, memInitThr (versions t) = some (s.thr t)

/-- The replaying process on version logs and reader logs: any interleaving of instructions and
drains. -/
def sys (L : Layout Addr) (nthr : Nat) (prog : Nat → Prog Addr) (m₀ : Addr → Val)
    (versions : Nat → List WaitVersion) (logs : Nat → List ReplayWaitMemop) :
    Trans.Sys (State Addr) Nat where
  init := Initial m₀ versions
  step s l s' := ∃ t < nthr, l = some t ∧
    (s.instr L prog logs t = .next s' ∨ s.drain t = some s')

/-- Thread `t` has finished its program. -/
def Finished (prog : Nat → Prog Addr) (s : State Addr) (t : Nat) : Prop :=
  (s.thr t).pc = .start ∧ prog t ((s.thr t).done.map Made.res) = none

end MemOrder.ReplayTso
