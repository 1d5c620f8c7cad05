/-
# The version-log replayer (`mem-replay.c`), one instruction at a time

Every thread runs its program; `mem_read` and `mem_write` hold it back until the object has
reached the recorded version (`wait_object_version`) and, for a write, until every access logged
at that version is over (`wait_reader`).  The threads share `obj_version`, the memory, the
cursors of the reader logs and, through `memop_cnt`, each other's `memop`; nothing but the
waiting orders their accesses, so the model takes every wait-loop check, every part of
`next_reader_memop`, the value load or store, `obj_version += 2` and `memop++` as a step of its
own, in any interleaving.

`pthread_mutex_trylock` in `next_reader_memop` is there as an assertion, and so are the two
`assert`s: a thread for which one of them does not hold makes a step to `Outcome.fail`, and so
does a thread that would read past the end of a log.

The test programs start the accesses of a thread only after every thread has been through
`mem_init_thr` (the barrier of `sync_thread`), so the initial state has all of them initialised.
-/
import MemOrder.Record
import MemOrder.Lib.Trans

namespace MemOrder.Replay

variable {Addr : Type} [DecidableEq Addr]

/-! ## 1. The state -/

/-- `struct replay_wait_memop_log`: one object's merged reader log, its cursor `n`, its `size`
(-1 when there is no log) and the mutex, held or not. -/
structure ReaderLog where
  log : List ReplayWaitMemop
  n : Nat
  size : Int
  mutex : Bool
deriving DecidableEq, Repr

/-- Where a thread is inside `mem_write`, from `wait_reader` on. -/
inductive WPc
  /-- `pthread_mutex_trylock` at the start of `next_reader_memop`. -/
  | trylock
  /-- `if (n >= size)`. -/
  | checkSize
  /-- The version of the object is read and compared with the next entry's. -/
  | search
  /-- `n++` for the entry found. -/
  | advance (ent : ReplayWaitMemop)
  /-- `pthread_mutex_unlock`, then return the entry or `NULL`. -/
  | unlock (ret : Option ReplayWaitMemop)
  /-- `while (*memop_cnt[log->tid] <= log->memop)`. -/
  | waitMemop (ent : ReplayWaitMemop)
  /-- `*addr = val`. -/
  | store
  /-- `obj_version[objid] += 2`. -/
  | incVersion
deriving DecidableEq, Repr

/-- Where a replaying thread is. -/
inductive Pc (Addr : Type)
  /-- Between accesses. -/
  | start
  /-- `while (obj_version[objid] < wait_version.version)`. -/
  | waitVersion (acc : Acc Addr)
  /-- `assert(obj_version[objid] == wait_version.version)`, then `next_wait_version_log`. -/
  | checkVersion (acc : Acc Addr)
  /-- `val = *addr` in `mem_read`. -/
  | load (addr : Addr)
  /-- In `mem_write`, past `wait_object_version`. -/
  | write (addr : Addr) (val : Val) (w : WPc)
  /-- `memop++`, the access being over. -/
  | incMemop
deriving DecidableEq, Repr

/-- A replaying thread: its place, `memop`, the buffered `wait_version`, the rest of its
version log, and the accesses it has made. -/
structure Thr (Addr : Type) where
  pc : Pc Addr
  memop : Nat
  waitVersion : WaitVersion
  waitVersionLog : List WaitVersion
  done : List (Event Addr)

/-- The state of the replaying process. -/
structure State (Addr : Type) where
  mem : Addr → Val
  objVersion : Nat → Int
  readerLog : Nat → ReaderLog
  thr : Nat → Thr Addr

/-- The run-time checks, and reading past the end of a log. -/
inductive Failure
  /-- "concurrent access to same object's memop log". -/
  | concurrentAccess
  /-- `assert(version <= log[logid].version)`. -/
  | readerAssert
  /-- `assert(obj_version[objid] == wait_version.version)`. -/
  | versionAssert
  /-- A log is read past its end. -/
  | logOverrun
deriving DecidableEq, Repr

/-- What a thread does when it is scheduled: a step, one more turn of a wait loop, nothing
because its program is over, or a failing check. -/
inductive Outcome (Addr : Type)
  | next (s : State Addr)
  | spin
  | finished
  | fail (f : Failure)

/-! ## 2. The steps -/

/-- `next_wait_version_log`, on `wait_version` and what is left of `wait_version_log`; `none` when there
is no entry to look at.  At the end marker `buf` stays, and with it the log. -/
def nextWaitVersionLog (waitVersion : WaitVersion) :
    List WaitVersion → Option (WaitVersion × List WaitVersion)
  | [] => none
  | wv :: rest =>
    if wv.memop = -1 then some ({ waitVersion with memop := -1 }, wv :: rest) else some (wv, rest)

def Thr.nextWaitVersionLog (th : Thr Addr) : Option (Thr Addr) :=
  (Replay.nextWaitVersionLog th.waitVersion th.waitVersionLog).map fun r =>
    { th with waitVersion := r.1, waitVersionLog := r.2 }

/-- `mem_init_thr`. -/
def memInitThr (log : List WaitVersion) : Option (Thr Addr) :=
  Thr.nextWaitVersionLog ⟨.start, 0, ⟨0, 0⟩, log, []⟩

/-- Where `wait_object_version` returns to. -/
def afterWait : Acc Addr → Pc Addr := Acc.place .load fun a v => .write a v .trylock

namespace State

def setThr (s : State Addr) (t : Nat) (th : Thr Addr) : State Addr :=
  { s with thr := Function.update s.thr t th }

def setPc (s : State Addr) (t : Nat) (pc : Pc Addr) : State Addr :=
  s.setThr t { s.thr t with pc := pc }

def setLog (s : State Addr) (o : Nat) (l : ReaderLog) : State Addr :=
  { s with readerLog := Function.update s.readerLog o l }

end State

/-- A step of thread `t` inside `wait_reader` and the rest of `mem_write`. -/
def stepWrite (L : Layout Addr) (s : State Addr) (t : Nat) (addr : Addr) (val : Val) :
    WPc → Outcome Addr
  | .trylock =>
    let l := s.readerLog (L.calcObjid addr)
    if l.mutex then .fail .concurrentAccess
    else .next ((s.setLog (L.calcObjid addr) { l with mutex := true }).setPc t
      (.write addr val .checkSize))
  | .checkSize =>
    let l := s.readerLog (L.calcObjid addr)
    if l.size ≤ l.n then .next (s.setPc t (.write addr val (.unlock none)))
    else .next (s.setPc t (.write addr val .search))
  | .search =>
    let l := s.readerLog (L.calcObjid addr)
    let version := s.objVersion (L.calcObjid addr)
    match l.log[l.n]? with
    | none => .fail .logOverrun
    | some ent =>
      if ¬ version ≤ ent.version then .fail .readerAssert
      else if l.n < l.size ∧ version = ent.version then
        .next (s.setPc t (.write addr val (.advance ent)))
      else .next (s.setPc t (.write addr val (.unlock none)))
  | .advance ent =>
    let l := s.readerLog (L.calcObjid addr)
    .next ((s.setLog (L.calcObjid addr) { l with n := l.n + 1 }).setPc t
      (.write addr val (.unlock (some ent))))
  | .unlock ret =>
    let l := s.readerLog (L.calcObjid addr)
    let pc := match ret with
      | none => WPc.store
      | some ent => WPc.waitMemop ent
    .next ((s.setLog (L.calcObjid addr) { l with mutex := false }).setPc t (.write addr val pc))
  | .waitMemop ent =>
    if ((s.thr ent.tid).memop : Int) ≤ ent.memop then .spin
    else .next (s.setPc t (.write addr val .trylock))
  | .store =>
    let th := s.thr t
    .next (State.setThr { s with mem := Function.update s.mem addr val } t
      { th with
        pc := .write addr val .incVersion
        done := th.done ++
          [{ tid := t, memop := th.memop, op := .W, addr := addr,
             version := s.objVersion (L.calcObjid addr), val := val }] })
  | .incVersion =>
    .next (State.setPc { s with objVersion := Function.update s.objVersion (L.calcObjid addr)
                                  (s.objVersion (L.calcObjid addr) + 2) } t .incMemop)

/-- A step of thread `t`. -/
def step (L : Layout Addr) (prog : Nat → Prog Addr) (s : State Addr) (t : Nat) : Outcome Addr :=
  let th := s.thr t
  match th.pc with
  | .start =>
    match prog t (results th.done) with
    | none => .finished
    | some acc =>
      if (th.memop : Int) = th.waitVersion.memop then .next (s.setPc t (.waitVersion acc))
      else .next (s.setPc t (afterWait acc))
  | .waitVersion acc =>
    if s.objVersion (L.calcObjid acc.addr) < th.waitVersion.version then .spin
    else .next (s.setPc t (.checkVersion acc))
  | .checkVersion acc =>
    if s.objVersion (L.calcObjid acc.addr) ≠ th.waitVersion.version then .fail .versionAssert
    else
      match th.nextWaitVersionLog with
      | none => .fail .logOverrun
      | some th' => .next (s.setThr t { th' with pc := afterWait acc })
  | .load addr =>
    .next (s.setThr t
      { th with
        pc := .incMemop
        done := th.done ++
          [{ tid := t, memop := th.memop, op := .R, addr := addr,
             version := s.objVersion (L.calcObjid addr), val := s.mem addr }] })
  | .write addr val w => stepWrite L s t addr val w
  | .incMemop => .next (s.setThr t { th with pc := .start, memop := th.memop + 1 })

/-! ## 3. The system on the logs of a recorded run -/

/-- The wait_memop entries of all threads for object `o`, tagged with their thread. -/
def objEntries (L : Layout Addr) (nthr : Nat) (tr : List (Event Addr)) (o : Nat) :
    List ReplayWaitMemop :=
  (List.range nthr).flatMap (fun t =>
    ((recordThr L (thread t tr)).waitMemop.filter (fun w => w.objid = (o : Int))).map
      (fun w => ⟨w.version, w.memop, t⟩))

/-- `logs o` is the merged log of object `o`: the entries of all threads for it, in version
order, ties in any order. -/
structure Merged (L : Layout Addr) (nthr : Nat) (tr : List (Event Addr))
    (logs : Nat → List ReplayWaitMemop) : Prop where
  perm : ∀ o, (logs o).Perm (objEntries L nthr tr o)
  sorted : ∀ o, (logs o).Pairwise (fun a b => a.version ≤ b.version)

/-- A reader log as `load_wait_reader_log` leaves it: size -1 when it has no entry. -/
def ReaderLog.loaded (log : List ReplayWaitMemop) : ReaderLog :=
  ⟨log, 0, if log = [] then -1 else log.length, false⟩

/-- The state after `mem_init` and every thread's `mem_init_thr`. -/
def Initial (L : Layout Addr) (m₀ : Addr → Val) (tr : List (Event Addr))
    (logs : Nat → List ReplayWaitMemop) (s : State Addr) : Prop :=
  s.mem = m₀ ∧ s.objVersion = (fun _ => 0) ∧ s.readerLog = (fun o => ReaderLog.loaded (logs o)) ∧
    ∀ t, memInitThr (recordThr L (thread t tr)).waitVersion = some (s.thr t)

/-- The replaying process: any interleaving of the steps of `nthr` threads. -/
def sys (L : Layout Addr) (nthr : Nat) (prog : Nat → Prog Addr) (m₀ : Addr → Val)
    (tr : List (Event Addr)) (logs : Nat → List ReplayWaitMemop) : Trans.Sys (State Addr) Nat where
  init := Initial L m₀ tr logs
  step s l s' := ∃ t < nthr, l = some t ∧ step L prog s t = .next s'

/-- Thread `t` has finished its program. -/
def Finished (prog : Nat → Prog Addr) (s : State Addr) (t : Nat) : Prop :=
  (s.thr t).pc = .start ∧ prog t (results (s.thr t).done) = none

/-! ## 4. Projections of the updates -/

section Simp

variable (s : State Addr) (t u o p : Nat) (th : Thr Addr) (pc : Pc Addr) (l : ReaderLog)

omit [DecidableEq Addr]

@[simp] theorem setThr_mem : (s.setThr t th).mem = s.mem := rfl
@[simp] theorem setThr_objVersion : (s.setThr t th).objVersion = s.objVersion := rfl
@[simp] theorem setThr_readerLog : (s.setThr t th).readerLog = s.readerLog := rfl
@[simp] theorem setThr_self : (s.setThr t th).thr t = th := Function.update_self ..

theorem setThr_ne {t u : Nat} (h : u ≠ t) : (s.setThr t th).thr u = s.thr u :=
  Function.update_of_ne h ..

@[simp] theorem setPc_mem : (s.setPc t pc).mem = s.mem := rfl
@[simp] theorem setPc_objVersion : (s.setPc t pc).objVersion = s.objVersion := rfl
@[simp] theorem setPc_readerLog : (s.setPc t pc).readerLog = s.readerLog := rfl
@[simp] theorem setPc_self : (s.setPc t pc).thr t = { s.thr t with pc := pc } :=
  Function.update_self ..

theorem setPc_ne {t u : Nat} (h : u ≠ t) : (s.setPc t pc).thr u = s.thr u :=
  Function.update_of_ne h ..

@[simp] theorem setPc_memop : ((s.setPc t pc).thr u).memop = (s.thr u).memop := by
  by_cases h : u = t
  · subst h; simp
  · rw [setPc_ne _ _ h]

@[simp] theorem setLog_mem : (s.setLog o l).mem = s.mem := rfl
@[simp] theorem setLog_objVersion : (s.setLog o l).objVersion = s.objVersion := rfl
@[simp] theorem setLog_thr : (s.setLog o l).thr = s.thr := rfl
@[simp] theorem setLog_self : (s.setLog o l).readerLog o = l := Function.update_self ..

theorem setLog_ne {o p : Nat} (h : p ≠ o) : (s.setLog o l).readerLog p = s.readerLog p :=
  Function.update_of_ne h ..

end Simp

end MemOrder.Replay
