/-
# The seqlock accesses, an instruction at a time

`mem-record-seqlock.c` makes an access and its version atomic with a seqlock, and the fallback
handlers of `mem-record-rtmseq.c` and `mem-record-rtmcluster.c` are the same code.  `code` is
that code: the read retry loop, and the write's critical section with the `spin_lock` of
`spinlock.h`.  Every place has at most one operation on shared memory; `version++` on a volatile
is a load and a store, `while (version & 1)` reloads at the loop head.

Where the last operation of an access is done, the code goes on to its thread-local half: the
access is over, with its version and value (`Next.ret`).
-/
import MemOrder.Record
import MemOrder.Lib.Tso

namespace MemOrder.Seqlock

open Tso

variable {Addr : Type}

/-! ## 1. Shared memory -/

/-- The data words, and `g_objinfo`: the version and the write lock of each object. -/
structure Mem (Addr : Type) where
  val : Addr → Val
  version : Nat → Int
  writeLock : Nat → Bool

/-- A store to shared memory. -/
inductive Store (Addr : Type)
  | val (addr : Addr) (x : Val)
  | version (objid : Nat) (n : Int)
  | writeLock (objid : Nat) (busy : Bool)
deriving DecidableEq, Repr

def Mem.store [DecidableEq Addr] (m : Mem Addr) : Store Addr → Mem Addr
  | .val addr x => { m with val := Function.update m.val addr x }
  | .version objid n => { m with version := Function.update m.version objid n }
  | .writeLock objid busy => { m with writeLock := Function.update m.writeLock objid busy }

/-- Memory before the run: versions 0, locks free. -/
def Mem.initial (m₀ : Addr → Val) : Mem Addr := ⟨m₀, fun _ => 0, fun _ => false⟩

/-! ## 2. Places in the code -/

/-- A place in the retry loop of `mem_read`. -/
inductive RPc
  /-- `version = info->version`, at the loop head and in the inner `while`. -/
  | loadVersion
  /-- `val = *addr`. -/
  | loadVal (version : Int)
  /-- `while (version != info->version)`. -/
  | check (version : Int) (val : Val)
deriving DecidableEq, Repr

/-- A place in `mem_write`. -/
inductive WPc
  /-- The `xchg_8` of `spin_lock`. -/
  | lock
  /-- The inner loop of `spin_lock`, `while (*lock) cpu_relax()`. -/
  | lockSpin
  /-- `version = info->version`. -/
  | loadVersion
  /-- The load of the first `info->version++`. -/
  | inc1Load (version : Int)
  /-- The store of the first `info->version++`, of the loaded `n` plus 1. -/
  | inc1Store (version n : Int)
  /-- `*addr = val`. -/
  | storeVal (version : Int)
  /-- `__sync_synchronize()`. -/
  | fence (version : Int)
  | inc2Load (version : Int)
  | inc2Store (version n : Int)
  /-- The store of `spin_unlock`. -/
  | unlock (version : Int)
deriving DecidableEq, Repr

/-- Where a thread is. -/
inductive Pc (Addr : Type)
  /-- Between two accesses. -/
  | idle
  | read (addr : Addr) (r : RPc)
  | write (addr : Addr) (val : Val) (w : WPc)
deriving DecidableEq, Repr

/-- The first place of a call. -/
def Pc.start : Acc Addr → Pc Addr
  | .read a => .read a .loadVersion
  | .write a x => .write a x .lock

/-- What follows an instruction: another place, or the end of the access. -/
inductive Next (Addr : Type)
  | goto (pc : Pc Addr)
  | ret (op : Op) (addr : Addr) (version : Int) (val : Val)

/-! ## 3. The code -/

/-- The retry loop of `mem_read`. -/
def readCode (L : Layout Addr) (a : Addr) : RPc → Instr (Mem Addr) (Store Addr) (Next Addr)
  | .loadVersion => .load fun m =>
    let version := m.version (L.calcObjid a)
    if version % 2 = 1 then .goto (.read a .loadVersion) else .goto (.read a (.loadVal version))
  | .loadVal version => .load fun m => .goto (.read a (.check version (m.val a)))
  | .check version val => .load fun m =>
    if version ≠ m.version (L.calcObjid a) then .goto (.read a .loadVersion)
    else .ret .R a version val

/-- The critical section of `mem_write`. -/
def writeCode (L : Layout Addr) (a : Addr) (x : Val) :
    WPc → Instr (Mem Addr) (Store Addr) (Next Addr)
  | .lock => .xchg (.writeLock (L.calcObjid a) true) fun m =>
    .goto (.write a x (if m.writeLock (L.calcObjid a) then .lockSpin else .loadVersion))
  | .lockSpin => .load fun m =>
    .goto (.write a x (if m.writeLock (L.calcObjid a) then .lockSpin else .lock))
  | .loadVersion => .load fun m => .goto (.write a x (.inc1Load (m.version (L.calcObjid a))))
  | .inc1Load v => .load fun m => .goto (.write a x (.inc1Store v (m.version (L.calcObjid a))))
  | .inc1Store v n => .store (.version (L.calcObjid a) (n + 1)) (.goto (.write a x (.storeVal v)))
  | .storeVal v => .store (.val a x) (.goto (.write a x (.fence v)))
  | .fence v => .fence (.goto (.write a x (.inc2Load v)))
  | .inc2Load v => .load fun m => .goto (.write a x (.inc2Store v (m.version (L.calcObjid a))))
  | .inc2Store v n => .store (.version (L.calcObjid a) (n + 1)) (.goto (.write a x (.unlock v)))
  | .unlock v => .store (.writeLock (L.calcObjid a) false) (.ret .W a v x)

/-- The instruction at a place; none between accesses. -/
def code (L : Layout Addr) : Pc Addr → Option (Instr (Mem Addr) (Store Addr) (Next Addr))
  | .idle => none
  | .read a r => some (readCode L a r)
  | .write a x w => some (writeCode L a x w)

end MemOrder.Seqlock
