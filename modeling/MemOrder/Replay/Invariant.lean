/-
# The invariant of the replay

What couples the replay state to the recorded run, in the form every later result uses.

* `ThrInv`: a thread has made exactly a prefix of its recorded accesses, its buffered
  `wait_version` is the first entry of the log it still needs, and -- once it is past
  `wait_object_version` -- its object is AT the recorded version of its current access.
* `VerInv`: an object's version says which recorded accesses are over.  Everything below the
  version has been passed (`behind`), everything passed is below (`reached`).
* `CursorInv`: the cursor of a reader log separates the entries below the object's version from
  those above, and what it has passed has been waited for.
* `MutexInv`, `MemInv`: a held mutex has a holder inside `next_reader_memop`; memory is the
  recorded memory at the current versions, up to a writer between its store and `+= 2`.

The version of an object moves only in the hands of the recorded writer of that version, and
only when all recorded readers of it are done (`Clear`); that is what keeps every other
thread's `ThrInv` intact.
-/
import MemOrder.Replay.Logs

namespace MemOrder.Replay

open Trace

variable {Addr : Type} [DecidableEq Addr] {L : Layout Addr} {nthr : Nat}
  {prog : Nat → Prog Addr} {m₀ : Addr → Val}

/-! ## 1. What a step can do

`step` is a function with many branches.  Here it is as a list of cases with their guards, once for
all invariants: `Move` for the steps that change only the place of the thread, `Step` for all that
lead to a new state, `Blocked` and `Fails` for the others. -/

/-- The steps that only move the thread, with their guards. -/
inductive Move (L : Layout Addr) (prog : Nat → Prog Addr) (s : State Addr) (t : Nat) :
    Pc Addr → Pc Addr → Prop
  | fetchWait {acc : Acc Addr} : prog t (results (s.thr t).done) = some acc →
      ((s.thr t).memop : Int) = (s.thr t).waitVersion.memop →
      Move L prog s t .start (.waitVersion acc)
  | fetch {acc : Acc Addr} : prog t (results (s.thr t).done) = some acc →
      ((s.thr t).memop : Int) ≠ (s.thr t).waitVersion.memop →
      Move L prog s t .start (afterWait acc)
  | reached {acc : Acc Addr} :
      (s.thr t).waitVersion.version ≤ s.objVersion (L.calcObjid acc.addr) →
      Move L prog s t (.waitVersion acc) (.checkVersion acc)
  | noMore {a : Addr} {v : Val} :
      (s.readerLog (L.calcObjid a)).size ≤ (s.readerLog (L.calcObjid a)).n →
      Move L prog s t (.write a v .checkSize) (.write a v (.unlock none))
  | more {a : Addr} {v : Val} :
      (s.readerLog (L.calcObjid a)).n < (s.readerLog (L.calcObjid a)).size →
      Move L prog s t (.write a v .checkSize) (.write a v .search)
  | found {a : Addr} {v : Val} {ent : ReplayWaitMemop} :
      (s.readerLog (L.calcObjid a)).log[(s.readerLog (L.calcObjid a)).n]? = some ent →
      s.objVersion (L.calcObjid a) = ent.version →
      Move L prog s t (.write a v .search) (.write a v (.advance ent))
  | notFound {a : Addr} {v : Val} {ent : ReplayWaitMemop} :
      (s.readerLog (L.calcObjid a)).log[(s.readerLog (L.calcObjid a)).n]? = some ent →
      s.objVersion (L.calcObjid a) ≤ ent.version →
      ¬ ((s.readerLog (L.calcObjid a)).n < (s.readerLog (L.calcObjid a)).size ∧
        s.objVersion (L.calcObjid a) = ent.version) →
      Move L prog s t (.write a v .search) (.write a v (.unlock none))
  | waited {a : Addr} {v : Val} {ent : ReplayWaitMemop} :
      ent.memop < ((s.thr ent.tid).memop : Int) →
      Move L prog s t (.write a v (.waitMemop ent)) (.write a v .trylock)

/-- Everything a step of thread `t` can do. -/
inductive Step (L : Layout Addr) (prog : Nat → Prog Addr) (s : State Addr) (t : Nat) :
    State Addr → Prop
  | move {pc : Pc Addr} : Move L prog s t (s.thr t).pc pc → Step L prog s t (s.setPc t pc)
  | checked {acc : Acc Addr} {th : Thr Addr} : (s.thr t).pc = .checkVersion acc →
      (s.thr t).nextWaitVersionLog = some th →
      Step L prog s t (s.setThr t { th with pc := afterWait acc })
  | load {a : Addr} : (s.thr t).pc = .load a →
      Step L prog s t (s.setThr t
        { s.thr t with
          pc := .incMemop
          done := (s.thr t).done ++
            [{ tid := t, memop := (s.thr t).memop, op := .R, addr := a,
               version := s.objVersion (L.calcObjid a), val := s.mem a }] })
  | lock {a : Addr} {v : Val} : (s.thr t).pc = .write a v .trylock →
      Step L prog s t ((s.setLog (L.calcObjid a)
        { s.readerLog (L.calcObjid a) with mutex := true }).setPc t (.write a v .checkSize))
  | advance {a : Addr} {v : Val} {ent : ReplayWaitMemop} :
      (s.thr t).pc = .write a v (.advance ent) →
      Step L prog s t ((s.setLog (L.calcObjid a)
        { s.readerLog (L.calcObjid a) with n := (s.readerLog (L.calcObjid a)).n + 1 }).setPc t
          (.write a v (.unlock (some ent))))
  | unlockNone {a : Addr} {v : Val} : (s.thr t).pc = .write a v (.unlock none) →
      Step L prog s t ((s.setLog (L.calcObjid a)
        { s.readerLog (L.calcObjid a) with mutex := false }).setPc t (.write a v .store))
  | unlockSome {a : Addr} {v : Val} {ent : ReplayWaitMemop} :
      (s.thr t).pc = .write a v (.unlock (some ent)) →
      Step L prog s t ((s.setLog (L.calcObjid a)
        { s.readerLog (L.calcObjid a) with mutex := false }).setPc t
          (.write a v (.waitMemop ent)))
  | store {a : Addr} {v : Val} : (s.thr t).pc = .write a v .store →
      Step L prog s t (State.setThr { s with mem := Function.update s.mem a v } t
        { s.thr t with
          pc := .write a v .incVersion
          done := (s.thr t).done ++
            [{ tid := t, memop := (s.thr t).memop, op := .W, addr := a,
               version := s.objVersion (L.calcObjid a), val := v }] })
  | incVersion {a : Addr} {v : Val} : (s.thr t).pc = .write a v .incVersion →
      Step L prog s t (State.setPc
        { s with
          objVersion := Function.update s.objVersion (L.calcObjid a)
            (s.objVersion (L.calcObjid a) + 2) } t .incMemop)
  | incMemop : (s.thr t).pc = .incMemop →
      Step L prog s t (s.setThr t
        { s.thr t with pc := .start, memop := (s.thr t).memop + 1 })

/-- The two wait loops: thread `t` is blocked in `wait_object_version` or in `wait_reader`. -/
def Blocked (L : Layout Addr) (s : State Addr) (t : Nat) : Prop :=
  (∃ acc, (s.thr t).pc = .waitVersion acc ∧
      s.objVersion (L.calcObjid acc.addr) < (s.thr t).waitVersion.version) ∨
    ∃ a v ent, (s.thr t).pc = .write a v (.waitMemop ent) ∧
      ((s.thr ent.tid).memop : Int) ≤ ent.memop

/-- The checks that can fail, and what makes them fail. -/
inductive Fails (L : Layout Addr) (s : State Addr) (t : Nat) : Failure → Prop
  | locked {a : Addr} {v : Val} : (s.thr t).pc = .write a v .trylock →
      (s.readerLog (L.calcObjid a)).mutex = true → Fails L s t .concurrentAccess
  | noEntry {a : Addr} {v : Val} : (s.thr t).pc = .write a v .search →
      (s.readerLog (L.calcObjid a)).log[(s.readerLog (L.calcObjid a)).n]? = none →
      Fails L s t .logOverrun
  | passedBy {a : Addr} {v : Val} {ent : ReplayWaitMemop} : (s.thr t).pc = .write a v .search →
      (s.readerLog (L.calcObjid a)).log[(s.readerLog (L.calcObjid a)).n]? = some ent →
      ¬ s.objVersion (L.calcObjid a) ≤ ent.version → Fails L s t .readerAssert
  | otherVersion {acc : Acc Addr} : (s.thr t).pc = .checkVersion acc →
      s.objVersion (L.calcObjid acc.addr) ≠ (s.thr t).waitVersion.version →
      Fails L s t .versionAssert
  | noVersion {acc : Acc Addr} : (s.thr t).pc = .checkVersion acc →
      (s.thr t).nextWaitVersionLog = none → Fails L s t .logOverrun

/-- What each outcome says about the state the thread was scheduled in. -/
def StepSpec (L : Layout Addr) (prog : Nat → Prog Addr) (s : State Addr) (t : Nat) :
    Outcome Addr → Prop
  | .next s' => Step L prog s t s'
  | .spin => Blocked L s t
  | .finished => Finished prog s t
  | .fail f => Fails L s t f

section Inversion

variable {s s' : State Addr} {t : Nat}

/-- The part of `step` inside `wait_reader` and behind it. -/
theorem stepWrite_spec {a : Addr} {v : Val} {w : WPc} (hpc : (s.thr t).pc = .write a v w) :
    StepSpec L prog s t (stepWrite L s t a v w) := by
  cases w with
  | trylock =>
    simp only [stepWrite]
    split
    · rename_i hm
      exact Fails.locked hpc hm
    · exact Step.lock hpc
  | checkSize =>
    simp only [stepWrite]
    split
    · rename_i hc
      exact Step.move (hpc ▸ .noMore hc)
    · rename_i hc
      exact Step.move (hpc ▸ .more (by omega))
  | search =>
    simp only [stepWrite]
    split
    · rename_i hnone
      exact Fails.noEntry hpc hnone
    · rename_i ent hent
      split
      · rename_i hgt
        exact Fails.passedBy hpc hent hgt
      · rename_i hle
        split
        · rename_i hc
          exact Step.move (hpc ▸ .found hent hc.2)
        · rename_i hc
          exact Step.move (hpc ▸ .notFound hent (not_not.mp hle) hc)
  | advance ent => exact Step.advance hpc
  | unlock ret =>
    cases ret with
    | none => exact Step.unlockNone hpc
    | some ent => exact Step.unlockSome hpc
  | waitMemop ent =>
    simp only [stepWrite]
    split
    · rename_i hle
      exact Or.inr ⟨a, v, ent, hpc, hle⟩
    · rename_i hc
      exact Step.move (hpc ▸ .waited (by omega))
  | store => exact Step.store hpc
  | incVersion => exact Step.incVersion hpc

/-- **The inversion of `step`**, for all its outcomes. -/
theorem step_spec (L : Layout Addr) (prog : Nat → Prog Addr) (s : State Addr) (t : Nat) :
    StepSpec L prog s t (step L prog s t) := by
  cases hpc : (s.thr t).pc with
  | start =>
    simp only [step, hpc]
    split
    · rename_i hp
      exact ⟨hpc, hp⟩
    · rename_i acc hacc
      split
      · rename_i hm
        exact Step.move (hpc ▸ .fetchWait hacc hm)
      · rename_i hm
        exact Step.move (hpc ▸ .fetch hacc hm)
  | waitVersion acc =>
    simp only [step, hpc]
    split
    · rename_i hlt
      exact Or.inl ⟨acc, hpc, hlt⟩
    · rename_i hc
      exact Step.move (hpc ▸ .reached (by omega))
  | checkVersion acc =>
    simp only [step, hpc]
    split
    · rename_i hne
      exact Fails.otherVersion hpc hne
    · split
      · rename_i hnone
        exact Fails.noVersion hpc hnone
      · rename_i th hth
        exact Step.checked hpc hth
  | load a =>
    simp only [step, hpc]
    exact Step.load hpc
  | write a v w =>
    simp only [step, hpc]
    exact stepWrite_spec hpc
  | incMemop =>
    simp only [step, hpc]
    exact Step.incMemop hpc

/-- What a step of a thread has done. -/
theorem step_cases (h : step L prog s t = .next s') : Step L prog s t s' := by
  have hspec := step_spec L prog s t
  rwa [h] at hspec

/-- A scheduled thread does nothing only when its program is over. -/
theorem step_finished (h : step L prog s t = .finished) : Finished prog s t := by
  have hspec := step_spec L prog s t
  rwa [h] at hspec

/-- A scheduled thread spins only in one of the two wait loops. -/
theorem step_spin (h : step L prog s t = .spin) : Blocked L s t := by
  have hspec := step_spec L prog s t
  rwa [h] at hspec

/-- A check fails only for its reason. -/
theorem step_fails {f : Failure} (h : step L prog s t = .fail f) : Fails L s t f := by
  have hspec := step_spec L prog s t
  rwa [h] at hspec

end Inversion

/-! ## 2. The invariant

The clauses are apart because the steps touch them apart: most steps move one thread and leave
`VerInv`, `CursorInv` and `MemInv` as they are.

Beside the `memop` of the source a thread has three counters, `made`, `passed` and `consumed`.  They
are ahead of it by one at the places where the value has been moved, the version raised, or the log
read for the access that is under way. -/

namespace Thr

omit [DecidableEq Addr]

/-- How many accesses have moved their value. -/
def made (th : Thr Addr) : Nat :=
  match th.pc with
  | .incMemop => th.memop + 1
  | .write _ _ .incVersion => th.memop + 1
  | _ => th.memop

/-- How many accesses are over, their version raised. -/
def passed (th : Thr Addr) : Nat :=
  match th.pc with
  | .incMemop => th.memop + 1
  | _ => th.memop

/-- How many accesses have been through `wait_object_version`. -/
def consumed (th : Thr Addr) : Nat :=
  match th.pc with
  | .start => th.memop
  | .waitVersion _ => th.memop
  | .checkVersion _ => th.memop
  | _ => th.memop + 1

theorem memop_le_made (th : Thr Addr) : th.memop ≤ th.made := by
  unfold made; split <;> omega

theorem memop_le_passed (th : Thr Addr) : th.memop ≤ th.passed := by
  unfold passed; split <;> omega

end Thr

section Defs

variable (R : Run L nthr prog m₀)

/-- The buffered `wait_version` and the rest of the log are the entries `ws`, up to the end
marker. -/
def Buffered (th : Thr Addr) : List WaitVersion → Prop
  | [] => th.waitVersion.memop = -1 ∧ th.waitVersionLog = [⟨-1, -1⟩]
  | w :: ws => th.waitVersion = w ∧ th.waitVersionLog = ws ++ [⟨-1, -1⟩]

/-- The wait_version entries of thread `t` from its `k`-th access on. -/
def needed (t k : Nat) : List WaitVersion :=
  versionLogFrom L (record L ((thread t R.trace).take k)) ((thread t R.trace).drop k)

/-- `e` is the recorded access thread `t` is at. -/
def Cur (s : State Addr) (t : Nat) (e : Event Addr) : Prop :=
  (thread t R.trace)[(s.thr t).memop]? = some e

/-- Every recorded read of `e`'s object at `e`'s version is over, and the cursor has passed
every entry for one. -/
structure Clear (s : State Addr) (e : Event Addr) : Prop where
  allRead : ∀ r ∈ R.trace, r.op = .R → L.obj r = L.obj e → r.version = e.version →
    r.memop < (s.thr r.tid).memop
  drained : ∀ i ent, (s.readerLog (L.obj e)).log[i]? = some ent →
    (s.readerLog (L.obj e)).n ≤ i → e.version < ent.version

/-- `ent` is the entry the cursor has just passed, and it is for `e`'s version. -/
def Taken (L : Layout Addr) (s : State Addr) (e : Event Addr) (ent : ReplayWaitMemop) : Prop :=
  0 < (s.readerLog (L.obj e)).n ∧
    (s.readerLog (L.obj e)).log[(s.readerLog (L.obj e)).n - 1]? = some ent ∧
    ent.version = e.version

/-- What a writer has found out on its way through `wait_reader`. -/
def WInv (s : State Addr) (e : Event Addr) : WPc → Prop
  | .search => (s.readerLog (L.obj e)).n < (s.readerLog (L.obj e)).log.length
  | .unlock (some ent) => Taken L s e ent
  | .waitMemop ent => Taken L s e ent
  | .advance ent =>
    (s.readerLog (L.obj e)).log[(s.readerLog (L.obj e)).n]? = some ent ∧ ent.version = e.version
  | .unlock none => Clear R s e
  | .store => Clear R s e
  | .incVersion => Clear R s e
  | .trylock => True
  | .checkSize => True

/-- What a thread's place says about its current access. -/
def PcInv (s : State Addr) (t : Nat) : Prop :=
  match (s.thr t).pc with
  | .start => True
  | .waitVersion acc => ∃ e, Cur R s t e ∧ e.acc = acc ∧
      (s.thr t).waitVersion = ⟨(s.thr t).memop, e.version⟩
  | .checkVersion acc => ∃ e, Cur R s t e ∧ e.acc = acc ∧
      (s.thr t).waitVersion = ⟨(s.thr t).memop, e.version⟩ ∧ s.objVersion (L.obj e) = e.version
  | .load a => ∃ e, Cur R s t e ∧ e.acc = .read a ∧ s.objVersion (L.obj e) = e.version
  | .write a v w => ∃ e, Cur R s t e ∧ e.acc = .write a v ∧
      s.objVersion (L.obj e) = e.version ∧ WInv R s e w
  | .incMemop => True

/-- A thread against its recorded accesses. -/
structure ThrInv (s : State Addr) (t : Nat) : Prop where
  made_le : (s.thr t).made ≤ (thread t R.trace).length
  done_eq : (s.thr t).done = (thread t R.trace).take (s.thr t).made
  buffered : Buffered (s.thr t) (needed R t (s.thr t).consumed)
  pc : PcInv R s t

/-- An object's version against the recorded accesses that are over. -/
structure VerInv (s : State Addr) : Prop where
  nonneg : ∀ o, 0 ≤ s.objVersion o
  even : ∀ o, s.objVersion o % 2 = 0
  behind : ∀ e ∈ R.trace, e.version < s.objVersion (L.obj e) → e.memop < (s.thr e.tid).passed
  reached : ∀ e ∈ R.trace, e.memop < (s.thr e.tid).passed →
    e.version + (if e.op = .W then 2 else 0) ≤ s.objVersion (L.obj e)

/-- The thread is waiting for the entry it has taken from the log of object `o`. -/
def Waiting (L : Layout Addr) (s : State Addr) (o : Nat) (ent : ReplayWaitMemop) : Prop :=
  ∃ t a v, L.calcObjid a = o ∧
    ((s.thr t).pc = .write a v (.unlock (some ent)) ∨ (s.thr t).pc = .write a v (.waitMemop ent))

/-- A reader log and its cursor. -/
structure CursorInv (L : Layout Addr) (logs : Nat → List ReplayWaitMemop) (s : State Addr) :
    Prop where
  log_eq : ∀ o, (s.readerLog o).log = logs o
  size_eq : ∀ o, (s.readerLog o).size = if logs o = [] then -1 else ((logs o).length : Int)
  n_le : ∀ o, (s.readerLog o).n ≤ (logs o).length
  below : ∀ o i ent, (logs o)[i]? = some ent → i < (s.readerLog o).n →
    ent.version ≤ s.objVersion o
  above : ∀ o i ent, (logs o)[i]? = some ent → (s.readerLog o).n ≤ i →
    s.objVersion o ≤ ent.version
  waited : ∀ o i ent, (logs o)[i]? = some ent → i < (s.readerLog o).n →
    ent.memop < ((s.thr ent.tid).memop : Int) ∨ (i + 1 = (s.readerLog o).n ∧ Waiting L s o ent)

/-- The places at which a thread holds the mutex. -/
def WPc.locked : WPc → Prop
  | .checkSize => True
  | .search => True
  | .advance _ => True
  | .unlock _ => True
  | _ => False

/-- A held mutex has a holder. -/
def MutexInv (L : Layout Addr) (s : State Addr) : Prop :=
  ∀ o, (s.readerLog o).mutex = true →
    ∃ t a v w, (s.thr t).pc = .write a v w ∧ L.calcObjid a = o ∧ w.locked

/-- Memory is the recorded memory at the current versions, except where a writer stands between
its store and `obj_version += 2`. -/
structure MemInv (s : State Addr) : Prop where
  stored : ∀ t a v, (s.thr t).pc = .write a v .incVersion → s.mem a = v
  current : ∀ a, (∀ t v, (s.thr t).pc ≠ .write a v .incVersion) →
    s.mem a = valAt m₀ R.trace a (s.objVersion (L.calcObjid a))

/-- The invariant. -/
structure Inv (logs : Nat → List ReplayWaitMemop) (s : State Addr) : Prop where
  thr : ∀ t, ThrInv R s t
  ver : VerInv R s
  cursor : CursorInv L logs s
  mutex : MutexInv L s
  mem : MemInv R s

end Defs

/-! ## 3. What follows from it

Facts about one state that several of the preservation proofs use. -/

section Consequences

variable {R : Run L nthr prog m₀} {logs : Nat → List ReplayWaitMemop} {s : State Addr}
  {t u : Nat} {e : Event Addr}

omit [DecidableEq Addr] in
/-- An access that is a read. -/
theorem acc_eq_read {a : Addr} (h : e.acc = .read a) : e.op = .R ∧ e.addr = a := by
  unfold Event.acc at h
  cases hop : e.op with
  | R => rw [hop] at h; exact ⟨rfl, by simpa using h⟩
  | W => rw [hop] at h; cases h

omit [DecidableEq Addr] in
/-- An access that is a write. -/
theorem acc_eq_write {a : Addr} {v : Val} (h : e.acc = .write a v) :
    e.op = .W ∧ e.addr = a ∧ e.val = v := by
  unfold Event.acc at h
  cases hop : e.op with
  | R => rw [hop] at h; cases h
  | W => rw [hop] at h; exact ⟨rfl, by simpa using h⟩

omit [DecidableEq Addr] in
/-- The object of an access. -/
theorem calcObjid_acc (L : Layout Addr) (e : Event Addr) : L.calcObjid e.acc.addr = L.obj e := by
  unfold Event.acc Layout.obj
  cases e.op <;> rfl

/-- The current access of a thread is one of its recorded accesses. -/
theorem Cur.mem (h : Cur R s t e) : e ∈ R.trace ∧ e.tid = t ∧ e.memop = (s.thr t).memop :=
  R.legal.memop_of_getElem? h

/-- There is one. -/
theorem Cur.unique {e' : Event Addr} (h : Cur R s t e) (h' : Cur R s t e') : e = e' :=
  Option.some.inj (h.symm.trans h')

/-- A thread in `mem_write` past `wait_object_version` is at the recorded write of its object's
current version. -/
theorem Inv.writer (h : Inv R logs s) {a : Addr} {v : Val} {w : WPc}
    (hpc : (s.thr t).pc = .write a v w) :
    ∃ e, Cur R s t e ∧ e.op = .W ∧ e.addr = a ∧ e.val = v ∧
      s.objVersion (L.obj e) = e.version ∧ WInv R s e w := by
  have hp := (h.thr t).pc
  simp only [PcInv, hpc] at hp
  obtain ⟨e, hc, hacc, hver, hw⟩ := hp
  obtain ⟨h1, h2, h3⟩ := acc_eq_write hacc
  exact ⟨e, hc, h1, h2, h3, hver, hw⟩

/-- **At most one thread per object is between entering `wait_reader` and raising the version**:
the version of the object has one recorded writer. -/
theorem Inv.writer_unique (h : Inv R logs s) {a b : Addr} {v v' : Val} {w w' : WPc}
    (ht : (s.thr t).pc = .write a v w) (hu : (s.thr u).pc = .write b v' w')
    (hab : L.calcObjid a = L.calcObjid b) : t = u := by
  obtain ⟨e, hc, hW, ha, -, hver, -⟩ := h.writer ht
  obtain ⟨e', hc', hW', hb, -, hver', -⟩ := h.writer hu
  have ho : L.obj e = L.obj e' := by rw [Layout.obj, Layout.obj, ha, hb, hab]
  have heq : e = e' := R.legal.write_unique hc.mem.1 hc'.mem.1 ho hW hW'
    (by rw [← hver, ← hver', ho])
  rw [← hc.mem.2.1, ← hc'.mem.2.1, heq]

/-- A thread's object is never ahead of the access it is at: the version is raised over an access
only when that access is over. -/
theorem Inv.objVersion_le (h : Inv R logs s) (hc : Cur R s t e) (hpc : (s.thr t).pc ≠ .incMemop) :
    s.objVersion (L.obj e) ≤ e.version := by
  by_contra hlt
  obtain ⟨he, ht, hm⟩ := hc.mem
  have hp := h.ver.behind e he (by omega)
  have hpass : (s.thr t).passed = (s.thr t).memop := by
    unfold Thr.passed
    split
    · contradiction
    · rfl
  rw [ht, hpass, hm] at hp
  omega

/-- The current access of a thread between accesses, from its program.  What the thread has done is
what it did when it was recorded, so the program asks for the recorded access. -/
theorem Inv.cur_of_prog (h : Inv R logs s) (ht : t < nthr) (hpc : (s.thr t).pc = .start)
    {acc : Acc Addr} (hp : prog t (results (s.thr t).done) = some acc) :
    ∃ e, Cur R s t e ∧ e.acc = acc := by
  have hm : (s.thr t).made = (s.thr t).memop := by simp [Thr.made, hpc]
  rw [(h.thr t).done_eq, hm] at hp
  exact R.getElem?_of_prog ht hp

end Consequences

end MemOrder.Replay
