/-
# Every step of the replay keeps the invariant

The replayer (`mem-replay.c`) takes no lock around an access: a thread waits until its object's
version has reached the recorded one (`wait_object_version`), a writer also until the recorded
readers of the old version are done (`wait_reader`), and then it goes ahead.  That nobody gets in
the way is a property of the logs, not of the code, and this file is where it is proved.

The circle is closed as follows.

* **Only the recorded writer moves a version, after the recorded readers.**  A thread that is at
  `obj_version[objid] += 2` has the current access for which the object's version is recorded
  (`Inv.writer`), and its `Clear` says that every recorded reader of that version has gone past its
  access.  So nobody else can be between its wait and the end of its access on this object
  (`Inv.alone_at_incVersion`): a reader would be done, and another writer would be recorded at the
  same version, which only one write is (`Legal.write_unique`).
* **Hence the others are undisturbed.**  A thread's part of the invariant mentions the version and
  the cursor of its own object; neither moves under it (`step_thrInv_ne`).
* **Hence versions say who is over.**  Everything below an object's version has been passed
  (`step_behind`) and everything passed is below it (`step_reached`).
* **Hence an access that was not logged need not wait.**  The recorder writes no `wait_version`
  entry when the thread has last seen the object at the version it finds; that earlier access has
  been passed, so the version has been reached, and it cannot be past it
  (`Inv.objVersion_of_unlogged`).
* **And a writer that finds no entry is clear.**  Every recorded reader of the version on another
  thread has an entry in the object's log; those behind the cursor have been waited for, those ahead
  of it are for later versions, so none is left (`Inv.clear`).

The five parts of `Inv` are kept for different reasons, and the proof is cut along them.  First what
a step can change at all (one lemma per component of the state); then the parts that are not the
stepping thread's own business -- the other threads (`step_thrInv_ne`), the versions
(`step_verInv`), the cursors (`step_cursorInv`), the mutexes (`step_mutexInv`), the memory
(`step_memInv`) -- and last the stepping thread itself (`step_thrInv_self`), where the two waits do
their work.
-/
import MemOrder.Replay.Invariant

namespace MemOrder.Replay

open Trace

variable {Addr : Type} [DecidableEq Addr] {L : Layout Addr} {nthr : Nat}
  {prog : Nat → Prog Addr} {m₀ : Addr → Val} {R : Run L nthr prog m₀}
  {logs : Nat → List ReplayWaitMemop} {s s' : State Addr} {t u : Nat}

/-! ## 1. What a step changes

One lemma per component, read off the inversion `step_cases` of `Invariant.lean`.  A change is
stated with the places before and after it, since it is the place that says in whose hands the
component was.  After this section nothing splits on `Step` but the lemmas about the stepping
thread. -/

/-- A step touches no other thread's variables. -/
theorem step_thr_ne (hst : Step L prog s t s') (hu : u ≠ t) : s'.thr u = s.thr u := by
  cases hst with
  | move h => exact setPc_ne _ _ hu
  | checked _ _ => exact setThr_ne _ _ hu
  | load _ => exact setThr_ne _ _ hu
  | lock _ => rw [setPc_ne _ _ hu, setLog_thr]
  | advance _ => rw [setPc_ne _ _ hu, setLog_thr]
  | unlockNone _ => rw [setPc_ne _ _ hu, setLog_thr]
  | unlockSome _ => rw [setPc_ne _ _ hu, setLog_thr]
  | store _ => rw [setThr_ne _ _ hu]
  | incVersion _ => rw [setPc_ne _ _ hu]
  | incMemop _ => exact setThr_ne _ _ hu

omit [DecidableEq Addr] in
/-- `next_wait_version_log` touches the two version buffers only. -/
theorem nextWaitVersionLog_same {th th' : Thr Addr} (h : th.nextWaitVersionLog = some th') :
    th'.memop = th.memop ∧ th'.done = th.done ∧ th'.pc = th.pc := by
  obtain ⟨r, -, rfl⟩ := Option.map_eq_some_iff.mp h
  exact ⟨rfl, rfl, rfl⟩

/-- `memop` is incremented at the end of an access and nowhere else. -/
theorem step_memop (hst : Step L prog s t s') :
    (s'.thr t).memop = (s.thr t).memop ∨
      ((s.thr t).pc = .incMemop ∧ (s'.thr t).memop = (s.thr t).memop + 1) := by
  cases hst with
  | move h => exact Or.inl (setPc_memop ..)
  | checked _ h => exact Or.inl (by simp [(nextWaitVersionLog_same h).1])
  | incMemop h => exact Or.inr ⟨h, by simp⟩
  | _ => exact Or.inl (by simp)

/-- So it never goes back, on any thread. -/
theorem step_memop_le (hst : Step L prog s t s') (u : Nat) :
    (s.thr u).memop ≤ (s'.thr u).memop := by
  by_cases hu : u = t
  · subst hu
    rcases step_memop hst with h | ⟨-, h⟩ <;> omega
  · exact Nat.le_of_eq (by rw [step_thr_ne hst hu])

omit [DecidableEq Addr] in
/-- A reader log after an update of the log of one object. -/
theorem setLog_cases (s : State Addr) (o p : Nat) (l : ReaderLog) :
    (p = o ∧ (s.setLog o l).readerLog p = l) ∨ (s.setLog o l).readerLog p = s.readerLog p := by
  by_cases hp : p = o
  · exact Or.inl ⟨hp, by rw [hp, setLog_self]⟩
  · exact Or.inr (setLog_ne _ _ hp)

/-- What a step does to a reader log: `next_reader_memop` locks it, moves its cursor and unlocks
it, and nothing else touches it. -/
theorem step_readerLog_cases (hst : Step L prog s t s') (o : Nat) :
    s'.readerLog o = s.readerLog o ∨
      (∃ a v, L.calcObjid a = o ∧ (s'.thr t).pc = .write a v .checkSize ∧
        s'.readerLog o = { s.readerLog o with mutex := true }) ∨
      (∃ a v ent, (s.thr t).pc = .write a v (.advance ent) ∧ L.calcObjid a = o ∧
        (s'.thr t).pc = .write a v (.unlock (some ent)) ∧
        s'.readerLog o = { s.readerLog o with n := (s.readerLog o).n + 1 }) ∨
      s'.readerLog o = { s.readerLog o with mutex := false } := by
  cases hst with
  | @lock a v h =>
    rw [setPc_readerLog]
    rcases setLog_cases s (L.calcObjid a) o _ with ⟨rfl, hl⟩ | hl
    · exact Or.inr (Or.inl ⟨a, v, rfl, by simp, hl⟩)
    · exact Or.inl hl
  | @advance a v ent h =>
    rw [setPc_readerLog]
    rcases setLog_cases s (L.calcObjid a) o _ with ⟨rfl, hl⟩ | hl
    · exact Or.inr (Or.inr (Or.inl ⟨a, v, ent, h, rfl, by simp, hl⟩))
    · exact Or.inl hl
  | @unlockNone a v h =>
    rw [setPc_readerLog]
    rcases setLog_cases s (L.calcObjid a) o _ with ⟨rfl, hl⟩ | hl
    · exact Or.inr (Or.inr (Or.inr hl))
    · exact Or.inl hl
  | @unlockSome a v ent h =>
    rw [setPc_readerLog]
    rcases setLog_cases s (L.calcObjid a) o _ with ⟨rfl, hl⟩ | hl
    · exact Or.inr (Or.inr (Or.inr hl))
    · exact Or.inl hl
  | _ => exact Or.inl rfl

/-- Logs and sizes never change; a cursor moves only in `next_reader_memop`'s `n++`. -/
theorem step_readerLog (hst : Step L prog s t s') (o : Nat) :
    (s'.readerLog o).log = (s.readerLog o).log ∧ (s'.readerLog o).size = (s.readerLog o).size ∧
      ((s'.readerLog o).n = (s.readerLog o).n ∨
        ∃ a v ent, (s.thr t).pc = .write a v (.advance ent) ∧ L.calcObjid a = o ∧
          (s'.thr t).pc = .write a v (.unlock (some ent)) ∧
          (s'.readerLog o).n = (s.readerLog o).n + 1) := by
  rcases step_readerLog_cases hst o with h | ⟨-, -, -, -, h⟩ | ⟨a, v, ent, hpc, ho, hpc', h⟩ | h
  · rw [h]; exact ⟨rfl, rfl, Or.inl rfl⟩
  · rw [h]; exact ⟨rfl, rfl, Or.inl rfl⟩
  · rw [h]; exact ⟨rfl, rfl, Or.inr ⟨a, v, ent, hpc, ho, hpc', rfl⟩⟩
  · rw [h]; exact ⟨rfl, rfl, Or.inl rfl⟩

/-- Versions move only in `obj_version[objid] += 2`. -/
theorem step_objVersion (hst : Step L prog s t s') (o : Nat) :
    s'.objVersion o = s.objVersion o ∨
      ∃ a v, (s.thr t).pc = .write a v .incVersion ∧ L.calcObjid a = o ∧
        (s'.thr t).pc = .incMemop ∧ s'.objVersion o = s.objVersion o + 2 := by
  cases hst with
  | @incVersion a v h =>
    by_cases ho : o = L.calcObjid a
    · subst ho
      exact Or.inr ⟨a, v, h, rfl, by simp, by simp⟩
    · exact Or.inl (Function.update_of_ne ho ..)
  | _ => exact Or.inl rfl

/-- The step at `obj_version[objid] += 2` does it. -/
theorem step_at_incVersion (hst : Step L prog s t s') {a : Addr} {v : Val}
    (hpc : (s.thr t).pc = .write a v .incVersion) :
    s'.objVersion (L.calcObjid a) = s.objVersion (L.calcObjid a) + 2 := by
  cases hst with
  | incVersion h => rw [hpc] at h; cases h; simp
  | _ h => rw [hpc] at h; cases h

/-- So versions never go back. -/
theorem step_objVersion_le (hst : Step L prog s t s') (o : Nat) :
    s.objVersion o ≤ s'.objVersion o := by
  rcases step_objVersion hst o with h | ⟨a, v, -, -, -, h⟩ <;> omega

omit [DecidableEq Addr] in
/-- Past `wait_object_version` the access is still ahead of the thread. -/
theorem passed_afterWait (th : Thr Addr) (acc : Acc Addr) :
    ({ th with pc := afterWait acc } : Thr Addr).passed = th.memop := by
  cases acc <;> rfl

/-- **An access is over for the other threads** at its value load or at `obj_version += 2`, before
its thread increments `memop`.  `VerInv` counts with the earlier point, `wait_reader` waits for the
later one. -/
theorem step_passed (hst : Step L prog s t s') :
    (s'.thr t).passed = (s.thr t).passed ∨
      ((s.thr t).passed = (s.thr t).memop ∧ (s'.thr t).passed = (s.thr t).memop + 1 ∧
        ((∃ a, (s.thr t).pc = .load a) ∨ ∃ a v, (s.thr t).pc = .write a v .incVersion)) := by
  cases hst with
  | @move pc h =>
    refine Or.inl ?_
    rw [setPc_self]
    generalize hp : (s.thr t).pc = p at h
    cases h with
    | fetch _ _ => rw [passed_afterWait]; simp [Thr.passed, hp]
    | _ => simp [Thr.passed, hp]
  | checked h h' =>
    refine Or.inl ?_
    rw [setThr_self, passed_afterWait, (nextWaitVersionLog_same h').1]
    simp [Thr.passed, h]
  | @load a h => exact Or.inr ⟨by simp [Thr.passed, h], by simp [Thr.passed], Or.inl ⟨a, h⟩⟩
  | @incVersion a v h =>
    exact Or.inr ⟨by simp [Thr.passed, h], by simp [Thr.passed], Or.inr ⟨a, v, h⟩⟩
  | _ h => exact Or.inl (by simp [Thr.passed, h])

/-- What is over stays over. -/
theorem step_passed_le (hst : Step L prog s t s') (u : Nat) :
    (s.thr u).passed ≤ (s'.thr u).passed := by
  by_cases hu : u = t
  · subst hu
    rcases step_passed hst with h | ⟨h1, h2, -⟩ <;> omega
  · exact Nat.le_of_eq (by rw [step_thr_ne hst hu])

/-! ## 2. The other threads

What a thread has found out by waiting must not be undone by the others.  `Clear` and `WInv` speak
of `memop`s, which only grow, and of the log and the cursor of the object (`Clear.mono`,
`WInv.mono`); the rest of `PcInv` speaks of the version of the object.  So it is enough that nobody
else moves these two, and that is `Inv.alone_at_incVersion` for the version and `Inv.writer_unique`
for the cursor. -/

/-- Readers that are done stay done, and drained entries stay drained while the cursor stays. -/
theorem Clear.mono {e : Event Addr} (h : Clear R s e)
    (hm : ∀ u, (s.thr u).memop ≤ (s'.thr u).memop)
    (hlog : (s'.readerLog (L.obj e)).log = (s.readerLog (L.obj e)).log)
    (hn : (s'.readerLog (L.obj e)).n = (s.readerLog (L.obj e)).n) : Clear R s' e where
  allRead r hr h1 h2 h3 := Nat.lt_of_lt_of_le (h.allRead r hr h1 h2 h3) (hm _)
  drained i ent h1 h2 := h.drained i ent (hlog ▸ h1) (hn ▸ h2)

/-- The same for each place of `mem_write`. -/
theorem WInv.mono {e : Event Addr} {w : WPc} (h : WInv R s e w)
    (hm : ∀ u, (s.thr u).memop ≤ (s'.thr u).memop)
    (hlog : (s'.readerLog (L.obj e)).log = (s.readerLog (L.obj e)).log)
    (hn : (s'.readerLog (L.obj e)).n = (s.readerLog (L.obj e)).n) : WInv R s' e w := by
  cases w with
  | search => simp only [WInv] at h ⊢; rw [hlog, hn]; exact h
  | advance ent => simp only [WInv] at h ⊢; rw [hlog, hn]; exact h
  | unlock ret =>
    cases ret with
    | none => exact Clear.mono h hm hlog hn
    | some ent => simp only [WInv, Taken] at h ⊢; rw [hlog, hn]; exact h
  | waitMemop ent => simp only [WInv, Taken] at h ⊢; rw [hlog, hn]; exact h
  | store => exact Clear.mono h hm hlog hn
  | incVersion => exact Clear.mono h hm hlog hn
  | _ => trivial

/-- A thread keeps its part of the invariant as long as its object's version and cursor stay.  The
version is asked for only at places past the wait, and the cursor only inside `mem_write`. -/
theorem PcInv.frame (h : PcInv R s u) (hthr : s'.thr u = s.thr u)
    (hm : ∀ u, (s.thr u).memop ≤ (s'.thr u).memop)
    (hver : ∀ e, Cur R s u e → s.objVersion (L.obj e) = e.version →
      s'.objVersion (L.obj e) = e.version)
    (hlog : ∀ o, (s'.readerLog o).log = (s.readerLog o).log)
    (hn : ∀ a v w, (s.thr u).pc = .write a v w →
      (s'.readerLog (L.calcObjid a)).n = (s.readerLog (L.calcObjid a)).n) : PcInv R s' u := by
  have hcur : ∀ e, Cur R s u e → Cur R s' u e := fun e hc => by rw [Cur, hthr]; exact hc
  unfold PcInv at h ⊢
  rw [hthr]
  cases hpc : (s.thr u).pc with
  | start => trivial
  | waitVersion acc =>
    rw [hpc] at h
    obtain ⟨e, hc, h1, h2⟩ := h
    exact ⟨e, hcur e hc, h1, h2⟩
  | checkVersion acc =>
    rw [hpc] at h
    obtain ⟨e, hc, h1, h2, h3⟩ := h
    exact ⟨e, hcur e hc, h1, h2, hver e hc h3⟩
  | load a =>
    rw [hpc] at h
    obtain ⟨e, hc, h1, h3⟩ := h
    exact ⟨e, hcur e hc, h1, hver e hc h3⟩
  | write a v w =>
    rw [hpc] at h
    obtain ⟨e, hc, h1, h3, hw⟩ := h
    have ho : L.obj e = L.calcObjid a := by rw [Layout.obj, (acc_eq_write h1).2.1]
    exact ⟨e, hcur e hc, h1, hver e hc h3, hw.mono hm (hlog _) (by rw [ho]; exact hn a v w hpc)⟩
  | incMemop => trivial

/-- **A version moves only when nobody else is at it**: the recorded readers are over and the
recorded writer is the one that moves it. -/
theorem Inv.alone_at_incVersion (h : Inv R logs s) {a : Addr} {v : Val}
    (hpc : (s.thr t).pc = .write a v .incVersion) {e : Event Addr} (hc : Cur R s u e)
    (ho : L.obj e = L.calcObjid a) (hver : s.objVersion (L.obj e) = e.version) : u = t := by
  obtain ⟨w, hcw, hW, hwa, -, hwver, hclear⟩ := h.writer hpc
  have how : L.obj e = L.obj w := by rw [ho, Layout.obj, hwa]
  have hv : e.version = w.version := by rw [← hver, ← hwver, how]
  obtain ⟨he, het, hem⟩ := hc.mem
  -- `e` and the writer's access `w` are recorded on one object at one version
  cases hop : e.op with
  | R =>
    have := hclear.allRead e he hop how hv
    rw [het, hem] at this
    omega
  | W =>
    have := R.legal.write_unique he hcw.mem.1 how hop hW hv
    rw [← het, this, hcw.mem.2.1]

/-- **The other threads keep their part.**  If the step raises the version of `u`'s object, or moves
the cursor of the object `u` writes, then the stepping thread would have to be `u`. -/
theorem step_thrInv_ne (h : Inv R logs s) (hst : Step L prog s t s') (hu : u ≠ t) :
    ThrInv R s' u := by
  have hthr := step_thr_ne hst hu
  have hold := h.thr u
  refine ⟨by rw [hthr]; exact hold.made_le, by rw [hthr]; exact hold.done_eq,
    by rw [hthr]; exact hold.buffered, ?_⟩
  refine hold.pc.frame hthr (step_memop_le hst) ?_ (fun o => (step_readerLog hst o).1) ?_
  · intro e hc hver
    rcases step_objVersion hst (L.obj e) with h1 | ⟨a, v, hpc, ho, -, -⟩
    · rw [h1, hver]
    · exact absurd (h.alone_at_incVersion hpc hc ho.symm hver) hu
  · intro a v w hpc
    rcases (step_readerLog hst (L.calcObjid a)).2.2 with h1 | ⟨b, v', ent, hpc', ho, -, -⟩
    · exact h1
    · exact absurd (h.writer_unique hpc hpc' ho.symm) hu

/-! ## 3. The versions

`VerInv` ties the version of an object to what is over: `behind` and `reached` are the two
directions of "over exactly when below the version", a write counting as below once it has raised
the version.  Only one step moves a version and two end an access, so each direction has one new
case. -/

/-- An access whose object's version has moved past it is over: the version has moved in the hands
of its writer, after all its readers.  The new case is an access recorded at the very version the
step raises: a read of it is done by `Clear`, and a write of it is the stepping thread's own access.
-/
theorem step_behind (h : Inv R logs s) (hst : Step L prog s t s') {e : Event Addr}
    (he : e ∈ R.trace) (hlt : e.version < s'.objVersion (L.obj e)) :
    e.memop < (s'.thr e.tid).passed := by
  by_cases hold : e.version < s.objVersion (L.obj e)
  · exact Nat.lt_of_lt_of_le (h.ver.behind e he hold) (step_passed_le hst _)
  · rcases step_objVersion hst (L.obj e) with h1 | ⟨a, v, hpc, ho, hpc', h1⟩
    · omega
    · obtain ⟨w, hcw, hW, hwa, -, hwver, hclear⟩ := h.writer hpc
      have how : L.obj e = L.obj w := by rw [← ho, Layout.obj, hwa]
      -- versions are even, so moving by two moves past `e`'s version only when it is there
      have hev := R.legal.version_even he
      have hov := h.ver.even (L.obj e)
      have hv : e.version = w.version := by rw [← hwver, ← how]; omega
      cases hop : e.op with
      | R =>
        exact Nat.lt_of_lt_of_le (hclear.allRead e he hop how hv)
          (Nat.le_trans (step_memop_le hst _) (Thr.memop_le_passed _))
      | W =>
        obtain rfl := R.legal.write_unique he hcw.mem.1 how hop hW hv
        rw [hcw.mem.2.1, hcw.mem.2.2]
        have hm : (s'.thr t).memop = (s.thr t).memop := by
          rcases step_memop hst with hm | ⟨hc, -⟩
          · exact hm
          · rw [hpc] at hc; cases hc
        simp [Thr.passed, hpc', hm]

/-- The access that is over with this step has its object at its version, a write past it: at a
value load the version is the recorded one by `PcInv`, and a write has just raised it. -/
theorem step_passes (h : Inv R logs s) (hst : Step L prog s t s') {e : Event Addr}
    (hc : Cur R s t e)
    (hpc : (∃ a, (s.thr t).pc = .load a) ∨ ∃ a v, (s.thr t).pc = .write a v .incVersion) :
    e.version + (if e.op = .W then 2 else 0) ≤ s'.objVersion (L.obj e) := by
  rcases hpc with ⟨a, hpc⟩ | ⟨a, v, hpc⟩
  · have hp := (h.thr t).pc
    simp only [PcInv, hpc] at hp
    obtain ⟨e', hc', hacc, hver⟩ := hp
    obtain rfl := hc.unique hc'
    rw [if_neg (by rw [(acc_eq_read hacc).1]; simp), ← hver]
    have := step_objVersion_le hst (L.obj e)
    omega
  · obtain ⟨e', hc', hW, ha, -, hver, -⟩ := h.writer hpc
    obtain rfl := hc.unique hc'
    have ho : L.calcObjid a = L.obj e := by rw [Layout.obj, ha]
    rw [if_pos hW, ← ho, step_at_incVersion hst hpc, ho]
    omega

/-- An access that is over has its object's version at least at its own, a write past it. -/
theorem step_reached (h : Inv R logs s) (hst : Step L prog s t s') {e : Event Addr}
    (he : e ∈ R.trace) (hlt : e.memop < (s'.thr e.tid).passed) :
    e.version + (if e.op = .W then 2 else 0) ≤ s'.objVersion (L.obj e) := by
  by_cases hold : e.memop < (s.thr e.tid).passed
  · exact Int.le_trans (h.ver.reached e he hold) (step_objVersion_le hst _)
  · have het : e.tid = t := by
      by_contra het
      rw [step_thr_ne hst het] at hlt
      exact hold hlt
    rw [het] at hlt hold
    rcases step_passed hst with h1 | ⟨h1, h2, hpc⟩
    · omega
    · -- `e` is the access that has just been passed
      have hem : e.memop = (s.thr t).memop := by omega
      have hce : Cur R s t e := by
        have := R.legal.thread_getElem? he
        rwa [het, hem] at this
      exact step_passes h hst hce hpc

/-- **The versions are kept.** -/
theorem step_verInv (h : Inv R logs s) (hst : Step L prog s t s') : VerInv R s' where
  nonneg o := Int.le_trans (h.ver.nonneg o) (step_objVersion_le hst o)
  even o := by
    have := h.ver.even o
    rcases step_objVersion hst o with h1 | ⟨a, v, -, -, -, h1⟩ <;> omega
  behind _ he hlt := step_behind h hst he hlt
  reached _ he hlt := step_reached h hst he hlt

/-! ## 4. The cursors

The cursor `n` of an object's reader log separates the entries that have been handed to a writer
from those that have not.  Below it every entry's reader has been waited for, except for the last
one, which the one writer of the object may still be waiting for (`waited`); above it every entry is
for the current version or a later one (`above`).  The cursor moves when a writer has found an entry
for its own version, and the version moves only when its writer has left no such entry behind. -/

/-- An entry that is being waited for is still, or has just been waited for. -/
theorem step_waiting (hst : Step L prog s t s') {o : Nat} {ent : ReplayWaitMemop}
    (h : Waiting L s o ent) :
    Waiting L s' o ent ∨ ent.memop < ((s.thr ent.tid).memop : Int) := by
  obtain ⟨u, a, v, ho, hpc⟩ := h
  by_cases hu : u = t
  · subst hu
    rcases hpc with hpc | hpc
    · cases hst with
      | unlockSome hp =>
        rw [hpc] at hp
        cases hp
        exact Or.inl ⟨u, a, v, ho, Or.inr (by simp)⟩
      | _ hp => rw [hpc] at hp; cases hp
    · cases hst with
      | move hp =>
        rw [hpc] at hp
        cases hp with
        | waited hlt => exact Or.inr hlt
      | _ hp => rw [hpc] at hp; cases hp
  · refine Or.inl ⟨u, a, v, ho, ?_⟩
    rw [step_thr_ne hst hu]
    exact hpc

/-- An object has one writer: if an entry of its log is being waited for, then by this writer, who
is on its way to `wait_memop` with it or in it. -/
theorem Inv.place_of_waiting (h : Inv R logs s) {o : Nat} {ent : ReplayWaitMemop}
    (hwait : Waiting L s o ent) {a : Addr} {v : Val} {w : WPc}
    (hpc : (s.thr t).pc = .write a v w) (ho : L.calcObjid a = o) :
    w = .unlock (some ent) ∨ w = .waitMemop ent := by
  obtain ⟨u, b, v', hb, hu⟩ := hwait
  have hab : L.calcObjid a = L.calcObjid b := by rw [ho, hb]
  rcases hu with hu | hu
  · obtain rfl := h.writer_unique hpc hu hab
    rw [hpc] at hu
    cases hu
    exact Or.inl rfl
  · obtain rfl := h.writer_unique hpc hu hab
    rw [hpc] at hu
    cases hu
    exact Or.inr rfl

/-- At `n++` the cursor is at the entry found, which is for the object's version. -/
theorem Inv.at_advance (h : Inv R logs s) {a : Addr} {v : Val} {ent : ReplayWaitMemop}
    (hpc : (s.thr t).pc = .write a v (.advance ent)) :
    (logs (L.calcObjid a))[(s.readerLog (L.calcObjid a)).n]? = some ent ∧
      ent.version = s.objVersion (L.calcObjid a) := by
  obtain ⟨e, hc, -, ha, -, hver, hw⟩ := h.writer hpc
  have ho : L.obj e = L.calcObjid a := by rw [Layout.obj, ha]
  simp only [WInv, ho] at hw
  rw [← h.cursor.log_eq, ← ho, hver, ho]
  exact hw

/-- What the cursor has passed after a step, it had passed before, unless it is the entry of this
very `n++`. -/
theorem Inv.passed_or_advance (h : Inv R logs s) (hst : Step L prog s t s') {o i : Nat}
    {ent : ReplayWaitMemop} (hi : (logs o)[i]? = some ent) (hlt : i < (s'.readerLog o).n) :
    i < (s.readerLog o).n ∨
      ∃ a v, (s.thr t).pc = .write a v (.advance ent) ∧ L.calcObjid a = o ∧
        (s'.thr t).pc = .write a v (.unlock (some ent)) ∧ i + 1 = (s'.readerLog o).n := by
  rcases (step_readerLog hst o).2.2 with hn | ⟨a, v, ent', hpc, rfl, hpc', hn⟩
  · exact Or.inl (hn ▸ hlt)
  · by_cases hin : i < (s.readerLog (L.calcObjid a)).n
    · exact Or.inl hin
    · have hii : i = (s.readerLog (L.calcObjid a)).n := by omega
      have h1 := (h.at_advance hpc).1
      rw [← hii, hi] at h1
      cases h1
      exact Or.inr ⟨a, v, hpc, rfl, hpc', by omega⟩

/-- **Entries ahead of the cursor are not behind the version.**  When the version is raised its
writer has drained it: the entries ahead are for larger versions, and by parity for the raised one
at least. -/
theorem step_above (h : Inv R logs s) (hM : Merged L nthr R.trace logs)
    (hst : Step L prog s t s') {o i : Nat} {ent : ReplayWaitMemop}
    (hi : (logs o)[i]? = some ent) (hge : (s'.readerLog o).n ≤ i) :
    s'.objVersion o ≤ ent.version := by
  have hge' : (s.readerLog o).n ≤ i := by
    rcases (step_readerLog hst o).2.2 with hn | ⟨a, v, ent', -, -, -, hn⟩ <;> omega
  have hle := h.cursor.above o i ent hi hge'
  rcases step_objVersion hst o with hv | ⟨a, v, hpc, rfl, -, hv⟩
  · omega
  · -- the writer has drained its version, and versions are even
    obtain ⟨w, -, -, hwa, -, hwver, hclear⟩ := h.writer hpc
    have ho : L.obj w = L.calcObjid a := by rw [Layout.obj, hwa]
    have hd := hclear.drained i ent
    rw [ho, h.cursor.log_eq] at hd
    have hlt := hd hi hge'
    obtain ⟨x, hx, -, -, hxv, -, -⟩ := hM.sound R.legal (List.mem_of_getElem? hi)
    have hev := R.legal.version_even hx
    have hov := h.ver.even (L.calcObjid a)
    rw [← hwver, ho] at hlt
    omega

/-- **Entries behind the cursor have been waited for**, or the last of them is being waited for.  A
new one is in the hands of the writer whose `n++` this is; an old one that is being waited for
cannot be overtaken by another `n++`, since only its own writer could do that, and it is waiting. -/
theorem step_waited (h : Inv R logs s) (hst : Step L prog s t s') {o i : Nat}
    {ent : ReplayWaitMemop} (hi : (logs o)[i]? = some ent) (hlt : i < (s'.readerLog o).n) :
    ent.memop < ((s'.thr ent.tid).memop : Int) ∨
      (i + 1 = (s'.readerLog o).n ∧ Waiting L s' o ent) := by
  have hmono := step_memop_le hst ent.tid
  rcases h.passed_or_advance hst hi hlt with hold | ⟨a, v, -, ho, hpc', hn⟩
  · rcases h.cursor.waited o i ent hi hold with h1 | ⟨h1, h2⟩
    · exact Or.inl (by omega)
    · rcases (step_readerLog hst o).2.2 with hn | ⟨a, v, ent', hpc, ho, -, -⟩
      · rcases step_waiting hst h2 with h3 | h3
        · exact Or.inr ⟨by omega, h3⟩
        · exact Or.inl (by omega)
      · -- the stepping writer is the only one, and it is not waiting
        rcases h.place_of_waiting h2 hpc ho with h3 | h3 <;> cases h3
  · exact Or.inr ⟨hn, t, a, v, ho, Or.inl hpc'⟩

/-- **The cursors are kept.** -/
theorem step_cursorInv (h : Inv R logs s) (hM : Merged L nthr R.trace logs)
    (hst : Step L prog s t s') : CursorInv L logs s' where
  log_eq o := by rw [(step_readerLog hst o).1, h.cursor.log_eq]
  size_eq o := by rw [(step_readerLog hst o).2.1, h.cursor.size_eq]
  n_le o := by
    rcases (step_readerLog hst o).2.2 with hn | ⟨a, v, ent, hpc, rfl, -, hn⟩
    · rw [hn]; exact h.cursor.n_le o
    · have := (List.getElem?_eq_some_iff.mp (h.at_advance hpc).1).1
      omega
  below o i ent hi hlt := by
    have hmono := step_objVersion_le hst o
    rcases h.passed_or_advance hst hi hlt with hold | ⟨a, v, hpc, rfl, -, -⟩
    · exact Int.le_trans (h.cursor.below o i ent hi hold) hmono
    · rw [(h.at_advance hpc).2]
      exact hmono
  above _ _ _ hi hge := step_above h hM hst hi hge
  waited _ _ _ hi hlt := step_waited h hst hi hlt

/-! ## 5. The mutexes

`next_reader_memop` takes the log's mutex by a trylock and treats a failure as concurrent access.
That it never fails needs only this: a held mutex has a writer of that object inside the function,
and an object has one writer. -/

/-- A mutex is taken by the trylock and by nothing else. -/
theorem step_mutex_true (hst : Step L prog s t s') {o : Nat}
    (h : (s'.readerLog o).mutex = true) :
    (s.readerLog o).mutex = true ∨
      ∃ a v, (s'.thr t).pc = .write a v .checkSize ∧ L.calcObjid a = o := by
  rcases step_readerLog_cases hst o with hl | ⟨a, v, ho, hpc, -⟩ | ⟨-, -, -, -, -, -, hl⟩ | hl
  · rw [hl] at h; exact Or.inl h
  · exact Or.inr ⟨a, v, hpc, ho⟩
  · rw [hl] at h; exact Or.inl h
  · rw [hl] at h; cases h

/-- The holder of a mutex keeps it until it unlocks. -/
theorem step_locked (hst : Step L prog s t s') {a : Addr} {v : Val} {w : WPc}
    (hpc : (s.thr t).pc = .write a v w) (hw : w.locked) :
    (∃ w', (s'.thr t).pc = .write a v w' ∧ w'.locked) ∨
      (s'.readerLog (L.calcObjid a)).mutex = false := by
  cases hst with
  | move hp =>
    rw [hpc] at hp
    refine Or.inl ?_
    cases hp with
    | noMore _ => exact ⟨.unlock none, by simp, trivial⟩
    | more _ => exact ⟨.search, by simp, trivial⟩
    | @found _ _ ent _ _ => exact ⟨.advance ent, by simp, trivial⟩
    | notFound _ _ _ => exact ⟨.unlock none, by simp, trivial⟩
    | waited _ => exact absurd hw id
  | @advance b v' ent hp =>
    rw [hpc] at hp
    cases hp
    exact Or.inl ⟨.unlock (some ent), by simp, trivial⟩
  | unlockNone hp => rw [hpc] at hp; cases hp; exact Or.inr (by simp)
  | unlockSome hp => rw [hpc] at hp; cases hp; exact Or.inr (by simp)
  | lock hp => rw [hpc] at hp; cases hp; exact absurd hw id
  | store hp => rw [hpc] at hp; cases hp; exact absurd hw id
  | incVersion hp => rw [hpc] at hp; cases hp; exact absurd hw id
  | _ hp => rw [hpc] at hp; cases hp

/-- **The mutexes are kept.** -/
theorem step_mutexInv (h : Inv R logs s) (hst : Step L prog s t s') : MutexInv L s' := by
  intro o hmu
  rcases step_mutex_true hst hmu with hold | ⟨a, v, hpc, ho⟩
  · obtain ⟨u, a, v, w, hpc, rfl, hw⟩ := h.mutex o hold
    by_cases hu : u = t
    · subst hu
      rcases step_locked hst hpc hw with ⟨w', hpc', hw'⟩ | hfalse
      · exact ⟨u, a, v, w', hpc', rfl, hw'⟩
      · rw [hfalse] at hmu; cases hmu
    · exact ⟨u, a, v, w, by rw [step_thr_ne hst hu]; exact hpc, rfl, hw⟩
  · exact ⟨t, a, v, .checkSize, hpc, ho, trivial⟩

/-! ## 6. The memory

Memory holds, at each address, the recorded value at the object's current version, but for a writer
that has stored and not yet raised the version.  Between the two the new value stands under the old
version; no reader of the old version is left to see it, which is what `Inv.load_val` below uses. -/

/-- Apart from a store and from `obj_version += 2`, a step leaves the memory, the versions and
the set of writers between the two alone. -/
theorem step_mem (hst : Step L prog s t s') :
    (∃ a v, (s.thr t).pc = .write a v .store ∧ (s'.thr t).pc = .write a v .incVersion ∧
        s'.mem = Function.update s.mem a v ∧ s'.objVersion = s.objVersion) ∨
      (∃ a v, (s.thr t).pc = .write a v .incVersion ∧ (s'.thr t).pc = .incMemop ∧
        s'.mem = s.mem ∧ s'.objVersion = Function.update s.objVersion (L.calcObjid a)
          (s.objVersion (L.calcObjid a) + 2)) ∨
      (s'.mem = s.mem ∧ s'.objVersion = s.objVersion ∧
        (∀ a v, (s.thr t).pc ≠ .write a v .incVersion) ∧
        ∀ a v, (s'.thr t).pc ≠ .write a v .incVersion) := by
  cases hst with
  | @store a v h => exact Or.inl ⟨a, v, h, by simp, rfl, rfl⟩
  | @incVersion a v h => exact Or.inr (Or.inl ⟨a, v, h, by simp, rfl, rfl⟩)
  | @move pc h =>
    refine Or.inr (Or.inr ⟨rfl, rfl, ?_, ?_⟩)
    · intro a v hc
      rw [hc] at h
      cases h
    · intro a v hc
      rw [setPc_self] at hc
      simp only at hc
      rw [hc] at h
      generalize hp : (s.thr t).pc = p at h
      generalize hq : (Pc.write a v .incVersion) = q at h
      cases h with
      | @fetch acc _ _ => cases acc <;> cases hq
      | _ => cases hq
  | @checked acc th h h' =>
    refine Or.inr (Or.inr ⟨rfl, rfl, by simp [h], ?_⟩)
    intro a v hc
    rw [setThr_self] at hc
    cases acc <;> cases hc
  | _ h => exact Or.inr (Or.inr ⟨rfl, rfl, by simp [h], by simp⟩)

/-- Nobody stood between a store to `b` and `obj_version += 2`, if nobody does after the step and
the stepping thread did not. -/
theorem not_stored_of_step (hst : Step L prog s t s') {b : Addr}
    (hno : ∀ v, (s.thr t).pc ≠ .write b v .incVersion)
    (hb : ∀ u v, (s'.thr u).pc ≠ .write b v .incVersion) (u : Nat) (v : Val) :
    (s.thr u).pc ≠ .write b v .incVersion := by
  intro hu
  by_cases hut : u = t
  · subst hut; exact hno v hu
  · exact hb u v (by rw [step_thr_ne hst hut]; exact hu)

/-- What the other threads have stored stays where the step does not write. -/
theorem MemInv.stored_of_ne (h : MemInv R s) (hst : Step L prog s t s') {b : Addr} {v : Val}
    (hu : (s'.thr u).pc = .write b v .incVersion) (hut : u ≠ t) (hmem : s'.mem b = s.mem b) :
    s'.mem b = v := by
  rw [step_thr_ne hst hut] at hu
  rw [hmem]
  exact h.stored u b v hu

/-- **The memory is kept.**  A store moves its address into the exception, the raised version takes
it out again with the recorded write's value, and the other addresses of the object go from one
version to the next with the value they have, as they do in the recorded run (`Legal.valAt_write`).
-/
theorem step_memInv (h : Inv R logs s) (hst : Step L prog s t s') : MemInv R s' := by
  rcases step_mem hst with ⟨a, v, hpc, hpc', hmem, hver⟩ | ⟨a, v, hpc, hpc', hmem, hver⟩ |
    ⟨hmem, hver, hno, hno'⟩
  -- a store: the thread is now the one between the two
  · constructor
    · intro u b v' hu
      by_cases hut : u = t
      · subst hut
        rw [hpc'] at hu
        cases hu
        rw [hmem]
        exact Function.update_self ..
      · refine h.mem.stored_of_ne hst hu hut ?_
        rw [step_thr_ne hst hut] at hu
        have hne : b ≠ a := fun hba => hut (h.writer_unique hu hpc (by rw [hba]))
        rw [hmem, Function.update_of_ne hne]
    · intro b hb
      have hne : b ≠ a := fun hba => hb t v (hba ▸ hpc')
      rw [hmem, hver, Function.update_of_ne hne]
      exact h.mem.current b (not_stored_of_step hst (by simp [hpc]) hb)
  -- the version is raised: what was stored is the recorded value at the new version
  · obtain ⟨w, hcw, hW, hwa, hwv, hwver, -⟩ := h.writer hpc
    have how : L.obj w = L.calcObjid a := by rw [Layout.obj, hwa]
    constructor
    · intro u b v' hu
      refine h.mem.stored_of_ne hst hu ?_ (by rw [hmem])
      rintro rfl
      rw [hpc'] at hu
      cases hu
    · intro b hb
      rw [hmem, hver]
      have hcur : b ≠ a → s.mem b = valAt m₀ R.trace b (s.objVersion (L.calcObjid b)) := by
        intro hne
        refine h.mem.current b (not_stored_of_step hst ?_ hb)
        intro v' hc
        rw [hpc] at hc
        cases hc
        exact hne rfl
      by_cases hob : L.calcObjid b = L.calcObjid a
      · rw [hob, Function.update_self, ← how, hwver,
          R.legal.valAt_write hcw.mem.1 hW (by rw [hob, how])]
        by_cases hba : w.addr = b
        · rw [if_pos hba, ← hba, hwa, hwv]
          exact h.mem.stored t a v hpc
        · rw [if_neg hba, hcur (fun hc => hba (by rw [hwa, hc])), hob, ← how, hwver]
      · rw [Function.update_of_ne hob]
        exact hcur (fun hc => hob (by rw [hc]))
  · constructor
    · intro u b v' hu
      refine h.mem.stored_of_ne hst hu ?_ (by rw [hmem])
      rintro rfl
      exact hno' b v' hu
    · intro b hb
      rw [hmem, hver]
      exact h.mem.current b (not_stored_of_step hst (hno b) hb)

/-! ## 7. The buffered wait_version entry

`needed R t k` is the part of the thread's version log from its `k`-th access on, and `Buffered`
says that it is what the thread holds: its first entry in `wait_version`, the rest ahead of the file
cursor.  The source compares `wait_version.memop` with `memop` to see whether the access was logged;
`buffered_cur` says that this comparison answers the question, since entries carry the numbers of
their accesses and the numbers rise. -/

/-- At its `k`-th access the thread needs that access's entry, if there is one, and then the
rest. -/
theorem needed_cur {k : Nat} {e : Event Addr} (hk : (thread t R.trace)[k]? = some e) :
    needed R t k =
      (if ((record L ((thread t R.trace).take k)).last (L.obj e)).version ≠ e.version then
        [⟨k, e.version⟩] else []) ++ needed R t (k + 1) := by
  obtain ⟨hlt, rfl⟩ := List.getElem?_eq_some_iff.mp hk
  rw [needed, needed, List.drop_eq_getElem_cons hlt, versionLogFrom,
    List.take_succ_eq_append_getElem hlt, record_snoc, record_memop,
    List.length_take_of_le (Nat.le_of_lt hlt)]

/-- The entries needed from the `k`-th access on carry numbers from `k` on. -/
theorem memop_le_of_mem_needed {k : Nat} (hk : k ≤ (thread t R.trace).length) {w : WaitVersion}
    (hw : w ∈ needed R t k) : (k : Int) ≤ w.memop := by
  have := memop_le_of_mem_versionLogFrom _ _ w hw
  rwa [record_memop, List.length_take_of_le hk] at this

omit [DecidableEq Addr] in
/-- `next_wait_version_log` on the entries `ws` and the end marker buffers `ws`. -/
theorem nextWaitVersionLog_buffered {th : Thr Addr} {ws : List WaitVersion}
    (hlog : th.waitVersionLog = ws ++ [⟨-1, -1⟩]) (hws : ∀ w ∈ ws, w.memop ≠ -1) :
    ∃ th', th.nextWaitVersionLog = some th' ∧ Buffered th' ws := by
  cases ws with
  | nil => exact ⟨_, by rw [Thr.nextWaitVersionLog, hlog]; rfl, by simp [Buffered]⟩
  | cons w ws =>
    have hw : w.memop ≠ -1 := hws w (by simp)
    have hnext : Replay.nextWaitVersionLog th.waitVersion th.waitVersionLog =
        some (w, ws ++ [⟨-1, -1⟩]) := by
      rw [hlog, List.cons_append, Replay.nextWaitVersionLog, if_neg hw]
    exact ⟨_, by rw [Thr.nextWaitVersionLog, hnext]; rfl, by simp [Buffered]⟩

omit [DecidableEq Addr] in
/-- `Buffered` looks at the two version buffers only. -/
theorem Buffered.congr {th th' : Thr Addr} {ws : List WaitVersion} (h : Buffered th ws)
    (hv : th'.waitVersion = th.waitVersion) (hl : th'.waitVersionLog = th.waitVersionLog) :
    Buffered th' ws := by
  cases ws with
  | nil => simpa [Buffered, hv, hl] using h
  | cons w ws => simpa [Buffered, hv, hl] using h

/-- **The buffered entry is for the current access exactly when the access was logged.**  If it is,
it holds the recorded version, and the rest is what later accesses need.  If not, the buffer is
already what later accesses need, and the thread has last seen the object at the version recorded
now. -/
theorem buffered_cur {e : Event Addr} (hb : Buffered (s.thr t) (needed R t (s.thr t).memop))
    (hc : Cur R s t e) :
    (((s.thr t).memop : Int) = (s.thr t).waitVersion.memop →
      (s.thr t).waitVersion = ⟨(s.thr t).memop, e.version⟩ ∧
        (s.thr t).waitVersionLog = needed R t ((s.thr t).memop + 1) ++ [⟨-1, -1⟩]) ∧
    (((s.thr t).memop : Int) ≠ (s.thr t).waitVersion.memop →
      Buffered (s.thr t) (needed R t ((s.thr t).memop + 1)) ∧
        ((record L ((thread t R.trace).take (s.thr t).memop)).last (L.obj e)).version
          = e.version) := by
  have hlt : (s.thr t).memop + 1 ≤ (thread t R.trace).length :=
    (List.getElem?_eq_some_iff.mp hc).1
  rw [needed_cur hc] at hb
  split at hb
  · rename_i hlog
    simp only [List.cons_append, List.nil_append, Buffered] at hb
    refine ⟨fun _ => hb, ?_⟩
    intro hne
    rw [hb.1] at hne
    exact absurd rfl hne
  · rename_i hlog
    rw [List.nil_append] at hb
    refine ⟨?_, fun _ => ⟨hb, not_not.mp hlog⟩⟩
    intro heq
    -- the next entry is for a later access, or there is none
    exfalso
    cases hws : needed R t ((s.thr t).memop + 1) with
    | nil =>
      rw [hws] at hb
      simp only [Buffered] at hb
      omega
    | cons w ws =>
      rw [hws] at hb
      have hge := memop_le_of_mem_needed hlt (w := w) (by rw [hws]; simp)
      simp only [Buffered] at hb
      rw [hb.1] at heq
      omega

/-! ## 8. The stepping thread

The places in the order of the source.  At `start` the thread either has an entry and goes to wait
for its version, or has none and is at its version already; past the wait it is at its version,
which nobody moves.  A writer goes on with what it has found out about its readers until it is
`Clear`.  The value load and the store make the access: version and value are the recorded ones, so
the thread has one more of its recorded accesses. -/

section Self

variable {e : Event Addr}

/-- **An access that was not logged need not wait.**  An access of the thread at the current
access's version has been made, or the version is the initial 0; so the object has reached that
version.  It cannot be past it either, because the thread's own access would then be over
(`Inv.objVersion_le`). -/
theorem Inv.objVersion_of_unlogged (h : Inv R logs s) (hc : Cur R s t e)
    (hpc : (s.thr t).pc ≠ .incMemop)
    (hl : ((record L ((thread t R.trace).take (s.thr t).memop)).last (L.obj e)).version
      = e.version) : s.objVersion (L.obj e) = e.version := by
  have hle := h.objVersion_le hc hpc
  have hge : e.version ≤ s.objVersion (L.obj e) := by
    rcases record_last_version (L := L) ((thread t R.trace).take (s.thr t).memop) (L.obj e) with
      h0 | ⟨r, hr, -, hro, hrv⟩
    · rw [← hl, h0]; exact h.ver.nonneg _
    -- `r` is the thread's last earlier access of the object, and it has been passed
    · obtain ⟨hrt, hrtid⟩ := mem_thread.mp (List.mem_of_mem_take hr)
      have hnum := (R.legal.numbered t)
      have hrm : r.memop < (s.thr t).memop := by
        obtain ⟨k, hk, hkr⟩ := List.getElem_of_mem hr
        rw [List.getElem_take] at hkr
        have hk' : k < (s.thr t).memop := by
          rw [List.length_take] at hk; omega
        rw [hnum k r (by rw [← hkr]; exact List.getElem?_eq_getElem _)]
        exact hk'
      have := h.ver.reached r hrt
        (by rw [hrtid]; exact Nat.lt_of_lt_of_le hrm (Thr.memop_le_passed _))
      rw [hro, hrv, hl] at this
      split at this <;> omega
  omega

/-- **A writer that is told of no reader has none.**  When `next_reader_memop` has nothing (more)
for the writer, all recorded reads of its version are over.  A read on its own thread comes before
the write in program order.  A read on another thread has an entry in the merged log that reaches
it; an entry ahead of the cursor is for a later version by `hd`, so this one is behind it and has
been waited for, and the writer itself is not waiting. -/
theorem Inv.clear (h : Inv R logs s) (hM : Merged L nthr R.trace logs) {a : Addr} {v : Val}
    {w : WPc} (hpc : (s.thr t).pc = .write a v w)
    (hw : ∀ ent, w ≠ .unlock (some ent) ∧ w ≠ .waitMemop ent) (hc : Cur R s t e)
    (hW : e.op = .W) (hoa : L.obj e = L.calcObjid a)
    (hd : ∀ i ent, (logs (L.obj e))[i]? = some ent → (s.readerLog (L.obj e)).n ≤ i →
      e.version < ent.version) : Clear R s e := by
  refine ⟨?_, fun i ent hi hn => hd i ent (h.cursor.log_eq _ ▸ hi) hn⟩
  intro r hr hop ho hv
  by_cases htid : e.tid = r.tid
  · -- the writer's own reads of the version come before its write
    have hb := R.legal.read_before_write hr hc.mem.1 ho hop hW hv
    have := R.legal.memop_lt_of_before hb htid.symm
    rw [← htid, hc.mem.2.1]
    rw [hc.mem.2.2] at this
    exact this
  · obtain ⟨ent, hent, h1, h2, h3⟩ :=
      hM.covers R.legal R.tid_lt hr hop hc.mem.1 hW ho.symm hv.symm htid
    obtain ⟨i, hi, hie⟩ := List.getElem_of_mem hent
    have hi' : (logs (L.obj e))[i]? = some ent := by
      rw [← ho, ← hie]; exact List.getElem?_eq_getElem hi
    have hin : i < (s.readerLog (L.obj e)).n := by
      by_contra hge
      have := hd i ent hi' (by omega)
      omega
    rcases h.cursor.waited _ i ent hi' hin with hdone | ⟨-, hwait⟩
    · rw [h1] at hdone
      omega
    · rcases h.place_of_waiting hwait hpc hoa.symm with hplace | hplace
      · exact absurd hplace (hw ent).1
      · exact absurd hplace (hw ent).2

/-- Moving a thread without touching its access keeps everything but its place. -/
theorem ThrInv.move {pc : Pc Addr} (h : ThrInv R s t)
    (hthr : s'.thr t = { s.thr t with pc := pc })
    (hmade : ({ s.thr t with pc := pc } : Thr Addr).made = (s.thr t).made)
    (hbuf : Buffered (s.thr t) (needed R t ({ s.thr t with pc := pc } : Thr Addr).consumed))
    (hpc : PcInv R s' t) : ThrInv R s' t where
  made_le := by rw [hthr, hmade]; exact h.made_le
  done_eq := by rw [hthr, hmade]; exact h.done_eq
  buffered := by rw [hthr]; exact hbuf.congr rfl rfl
  pc := hpc

omit [DecidableEq Addr] in
/-- Inside `mem_write` an access is made at its store. -/
theorem made_write (th : Thr Addr) (a : Addr) (v : Val) {w : WPc} (hw : w ≠ .incVersion) :
    ({ th with pc := .write a v w } : Thr Addr).made = th.memop := by
  cases w with
  | incVersion => exact absurd rfl hw
  | _ => rfl

/-- **A writer on its way to its store** keeps its part of the invariant, if its object's version
stays and it has found out what its new place says. -/
theorem Inv.write_thrInv (h : Inv R logs s) {a : Addr} {v : Val} {w w' : WPc}
    (hpc : (s.thr t).pc = .write a v w) (hw : w ≠ .incVersion) (hw' : w' ≠ .incVersion)
    (hthr : s'.thr t = { s.thr t with pc := .write a v w' }) (hver : s'.objVersion = s.objVersion)
    (hfound : ∀ e, Cur R s t e → e.op = .W → L.obj e = L.calcObjid a →
      s.objVersion (L.calcObjid a) = e.version → WInv R s e w → WInv R s' e w') :
    ThrInv R s' t := by
  have hmade : (s.thr t).made = (s.thr t).memop := by
    have := made_write (s.thr t) a v hw
    rwa [← hpc] at this
  have hbuf := (h.thr t).buffered
  simp only [Thr.consumed, hpc] at hbuf
  refine (h.thr t).move hthr (by rw [hmade, made_write _ _ _ hw']) hbuf ?_
  obtain ⟨e, hc, hW, ha, hv, hver', hwi⟩ := h.writer hpc
  have ho : L.obj e = L.calcObjid a := by rw [Layout.obj, ha]
  simp only [PcInv, hthr]
  refine ⟨e, ?_, by simp [Event.acc, hW, ha, hv], by rw [hver, hver'], ?_⟩
  · rw [Cur, hthr]
    exact hc
  · exact hfound e hc hW ho (by rw [← ho, hver']) hwi

/-- Moving a thread does not change which access is current. -/
theorem cur_setPc {pc : Pc Addr} : Cur R (s.setPc t pc) u e ↔ Cur R s u e := by
  rw [Cur, Cur, setPc_memop]

/-- Nor who is done. -/
theorem Clear.setPc {pc : Pc Addr} (h : Clear R s e) : Clear R (s.setPc t pc) e :=
  h.mono (fun u => by rw [setPc_memop]) rfl rfl

/-- A thread past `wait_object_version`, at its object's recorded version. -/
theorem pcInv_afterWait (hc : Cur R s t e) (hver : s.objVersion (L.obj e) = e.version)
    (hpc : (s.thr t).pc = afterWait e.acc) : PcInv R s t := by
  unfold PcInv
  rw [hpc]
  cases hacc : e.acc with
  | read a => exact ⟨e, hc, hacc, hver⟩
  | write a v => exact ⟨e, hc, hacc, hver, trivial⟩

omit [DecidableEq Addr] in
/-- The wait makes no access. -/
theorem made_afterWait (th : Thr Addr) (acc : Acc Addr) :
    ({ th with pc := afterWait acc } : Thr Addr).made = th.memop := by
  cases acc <;> rfl

omit [DecidableEq Addr] in
/-- Past the wait the access's entry, if it had one, is used up. -/
theorem consumed_afterWait (th : Thr Addr) (acc : Acc Addr) :
    ({ th with pc := afterWait acc } : Thr Addr).consumed = th.memop + 1 := by
  cases acc <;> rfl

/-- **The steps that only move the thread.**  The two ends of the search in `next_reader_memop`, at
the end of the log and at an entry for a later version, are where the writer becomes `Clear`. -/
theorem move_thrInv (h : Inv R logs s) (hM : Merged L nthr R.trace logs) (ht : t < nthr)
    {p pc : Pc Addr} (hp : (s.thr t).pc = p) (hmv : Move L prog s t p pc) :
    ThrInv R (s.setPc t pc) t := by
  have hthr := h.thr t
  have hbuf := hthr.buffered
  cases hmv with
  -- the buffered entry is for this access, so it has the recorded version
  | fetchWait hacc hm =>
    obtain ⟨e, hc, rfl⟩ := h.cur_of_prog ht hp hacc
    have hk : (s.thr t).consumed = (s.thr t).memop := by simp [Thr.consumed, hp]
    rw [hk] at hbuf
    refine hthr.move (setPc_self ..) (by simp [Thr.made, hp]) hbuf ?_
    simp only [PcInv, setPc_self]
    exact ⟨e, cur_setPc.mpr hc, rfl, ((buffered_cur hbuf hc).1 hm).1⟩
  -- this access has not been logged: the object is at its version already
  | fetch hacc hm =>
    obtain ⟨e, hc, rfl⟩ := h.cur_of_prog ht hp hacc
    have hk : (s.thr t).consumed = (s.thr t).memop := by simp [Thr.consumed, hp]
    rw [hk] at hbuf
    obtain ⟨hb, hl⟩ := (buffered_cur hbuf hc).2 hm
    refine hthr.move (setPc_self ..) (by rw [made_afterWait]; simp [Thr.made, hp])
      (by rw [consumed_afterWait]; exact hb) ?_
    exact pcInv_afterWait (cur_setPc.mpr hc)
      (h.objVersion_of_unlogged hc (by rw [hp]; simp) hl) (by simp)
  | reached hle =>
    have hpi := hthr.pc
    simp only [PcInv, hp] at hpi
    obtain ⟨e, hc, rfl, hwv⟩ := hpi
    -- the version has come up, and nobody raises it over this access
    have hge : e.version ≤ s.objVersion (L.obj e) := by
      rw [calcObjid_acc, hwv] at hle
      exact hle
    have hle' := h.objVersion_le hc (by rw [hp]; simp)
    refine hthr.move (setPc_self ..) (by simp [Thr.made, hp])
      (by simpa [Thr.consumed, hp] using hbuf) ?_
    simp only [PcInv, setPc_self]
    exact ⟨e, cur_setPc.mpr hc, rfl, hwv, by simp only [setPc_objVersion]; omega⟩
  | @noMore a v hle =>
    refine h.write_thrInv hp (by simp) (by simp) (setPc_self ..) rfl ?_
    intro e hc hW ho hver _
    refine Clear.setPc (h.clear hM hp (by simp) hc hW ho ?_)
    intro i ent hi hn
    -- the cursor is at the end: no entry is left
    exfalso
    have hlen := (List.getElem?_eq_some_iff.mp hi).1
    have hsz := h.cursor.size_eq (L.calcObjid a)
    rw [ho] at hlen hn
    rw [if_neg (by rintro hnil; rw [hnil] at hlen; simp at hlen)] at hsz
    omega
  | @more a v hlt =>
    refine h.write_thrInv hp (by simp) (by simp) (setPc_self ..) rfl ?_
    intro e _ _ ho _ _
    simp only [WInv, setPc_readerLog, ho]
    rw [h.cursor.size_eq] at hlt
    rw [h.cursor.log_eq]
    split at hlt <;> omega
  | @found a v ent hent hveq =>
    refine h.write_thrInv hp (by simp) (by simp) (setPc_self ..) rfl ?_
    intro e _ _ ho hver _
    simp only [WInv, setPc_readerLog, ho]
    exact ⟨hent, by rw [← hveq, hver]⟩
  | @notFound a v ent hent hle hne =>
    refine h.write_thrInv hp (by simp) (by simp) (setPc_self ..) rfl ?_
    intro e hc hW ho hver _
    refine Clear.setPc (h.clear hM hp (by simp) hc hW ho ?_)
    intro i ent' hi hn
    -- the next entry is above the version, and the entries after it are above that
    rw [ho] at hi hn
    rw [h.cursor.log_eq] at hent
    have hlen := (List.getElem?_eq_some_iff.mp hent).1
    have hsz := h.cursor.size_eq (L.calcObjid a)
    rw [if_neg (by rintro hnil; rw [hnil] at hlen; simp at hlen)] at hsz
    have hsorted := hM.le_of_lt hent hi hn
    have hlt : s.objVersion (L.calcObjid a) ≠ ent.version := fun hc' => hne ⟨by omega, hc'⟩
    rw [← hver]
    omega
  | @waited a v ent hlt =>
    exact h.write_thrInv hp (by simp) (by simp) (setPc_self ..) rfl (fun _ _ _ _ _ _ => trivial)

/-- The value a reader loads is the recorded one: nobody stands between the store of this version
and raising it, since such a writer would have waited for this reader. -/
theorem Inv.load_val (h : Inv R logs s) {a : Addr} (hpc : (s.thr t).pc = .load a)
    (hc : Cur R s t e) (hr : e.op = .R) (ha : e.addr = a)
    (hver : s.objVersion (L.obj e) = e.version) : s.mem a = e.val := by
  have ho : L.obj e = L.calcObjid a := by rw [Layout.obj, ha]
  rw [h.mem.current a (fun u v hu => ?_), ← ho, hver, R.legal.read_val hc.mem.1 hr, ha]
  have hut := h.alone_at_incVersion hu hc ho hver
  subst hut
  rw [hpc] at hu
  cases hu

/-- The event of the current access, from its parts. -/
theorem Cur.event_eq (hc : Cur R s t e) {op : Op} {a : Addr} {version : Int} {val : Val}
    (hop : e.op = op) (ha : e.addr = a) (hver : version = e.version) (hval : val = e.val) :
    (⟨t, (s.thr t).memop, op, a, version, val⟩ : Event Addr) = e := by
  obtain ⟨-, htid, hmem⟩ := hc.mem
  cases e
  simp_all

/-- One more access made. -/
theorem take_made (hc : Cur R s t e) :
    (thread t R.trace).take ((s.thr t).memop + 1)
      = (thread t R.trace).take (s.thr t).memop ++ [e] := by
  rw [List.take_add_one, hc, Option.toList_some]

/-- The thread moves the value of its current access, a read at its load and a write at its store;
what it has made is then one more of its recorded accesses. -/
theorem ThrInv.make (h : ThrInv R s t) (hc : Cur R s t e) {pc : Pc Addr}
    (hmade : (s.thr t).made = (s.thr t).memop)
    (hcons : (s.thr t).consumed = (s.thr t).memop + 1)
    (hthr : s'.thr t = { s.thr t with pc := pc, done := (s.thr t).done ++ [e] })
    (hmade' : (s'.thr t).made = (s.thr t).memop + 1)
    (hcons' : (s'.thr t).consumed = (s.thr t).memop + 1) (hpc : PcInv R s' t) :
    ThrInv R s' t where
  made_le := by
    rw [hmade']
    exact (List.getElem?_eq_some_iff.mp hc).1
  done_eq := by
    have hdone := h.done_eq
    rw [hmade] at hdone
    rw [hmade', take_made hc, ← hdone, hthr]
  buffered := by
    have hbuf := h.buffered
    rw [hcons] at hbuf
    rw [hcons', hthr]
    exact hbuf.congr rfl rfl
  pc := hpc

/-- The check of `wait_object_version` has been passed: the next entry of the version log is
buffered, and the object is at the recorded version. -/
theorem checked_thrInv (h : Inv R logs s) {acc : Acc Addr} {th : Thr Addr}
    (hpc : (s.thr t).pc = .checkVersion acc) (hth : (s.thr t).nextWaitVersionLog = some th) :
    ThrInv R (s.setThr t { th with pc := afterWait acc }) t := by
  have hthr := h.thr t
  have hpi := hthr.pc
  have hbuf := hthr.buffered
  have hdone := hthr.done_eq
  simp only [PcInv, hpc] at hpi
  obtain ⟨e, hc, rfl, hwv, hver⟩ := hpi
  have hk : (s.thr t).consumed = (s.thr t).memop := by simp [Thr.consumed, hpc]
  have hmade : (s.thr t).made = (s.thr t).memop := by simp [Thr.made, hpc]
  rw [hk] at hbuf
  rw [hmade] at hdone
  have hlt := (List.getElem?_eq_some_iff.mp hc).1
  obtain ⟨-, hlog⟩ := (buffered_cur hbuf hc).1 (by rw [hwv])
  obtain ⟨th', hth', hb'⟩ := nextWaitVersionLog_buffered hlog (fun w hw => by
    have := memop_le_of_mem_needed (by omega) hw
    omega)
  rw [hth] at hth'
  cases hth'
  obtain ⟨hm, hd, -⟩ := nextWaitVersionLog_same hth
  constructor
  · rw [setThr_self, made_afterWait, hm]; omega
  · rw [setThr_self, made_afterWait, hm]; exact hd.trans hdone
  · rw [setThr_self, consumed_afterWait, hm]; exact hb'.congr rfl rfl
  · refine pcInv_afterWait (e := e) ?_ hver (by simp)
    rw [Cur, setThr_self, hm]
    exact hc

/-- **The stepping thread keeps its part.**  The load and the store append the recorded access by
`ThrInv.make`; inside `mem_write` the steps go by `Inv.write_thrInv`; the end of the access brings
`memop` up to what has been made. -/
theorem step_thrInv_self (h : Inv R logs s) (hM : Merged L nthr R.trace logs) (ht : t < nthr)
    (hst : Step L prog s t s') : ThrInv R s' t := by
  have hthr := h.thr t
  cases hst with
  | move hmv => exact move_thrInv h hM ht rfl hmv
  | checked hpc hth => exact checked_thrInv h hpc hth
  -- memory has the value of the version, so the read is the recorded one
  | @load a hpc =>
    have hpi := hthr.pc
    simp only [PcInv, hpc] at hpi
    obtain ⟨e, hc, hacc, hver⟩ := hpi
    obtain ⟨hr, ha⟩ := acc_eq_read hacc
    have hver' : s.objVersion (L.calcObjid a) = e.version := by rw [← hver, Layout.obj, ha]
    rw [hc.event_eq hr ha hver' (h.load_val hpc hc hr ha hver)]
    exact hthr.make hc (by simp [Thr.made, hpc]) (by simp [Thr.consumed, hpc]) (setThr_self ..)
      (by simp [Thr.made]) (by simp [Thr.consumed]) (by simp [PcInv])
  | @lock a v hpc =>
    exact h.write_thrInv hpc (by simp) (by simp) (setPc_self ..) rfl (fun _ _ _ _ _ _ => trivial)
  -- the entry at the cursor is the one just passed now
  | @advance a v ent hpc =>
    refine h.write_thrInv hpc (by simp) (by simp) (setPc_self ..) rfl ?_
    intro e _ _ ho _ hw
    simp only [WInv, ho] at hw
    simp only [WInv, Taken, setPc_readerLog, ho, setLog_self]
    exact ⟨Nat.succ_pos _, hw⟩
  -- that no reader is left stays true over the unlock
  | @unlockNone a v hpc =>
    refine h.write_thrInv hpc (by simp) (by simp) (setPc_self ..) rfl ?_
    intro e _ _ ho _ hw
    refine Clear.mono hw ?_ ?_ ?_
    · intro u
      rw [setPc_memop, setLog_thr]
    · rw [ho]; simp
    · rw [ho]; simp
  | @unlockSome a v ent hpc =>
    refine h.write_thrInv hpc (by simp) (by simp) (setPc_self ..) rfl ?_
    intro e _ _ ho _ hw
    simp only [WInv, Taken, ho] at hw
    simp only [WInv, Taken, setPc_readerLog, ho, setLog_self]
    exact hw
  -- the write is the recorded one, and still no reader of its version is left
  | @store a v hpc =>
    obtain ⟨e, hc, hW, ha, hv, hver, hw⟩ := h.writer hpc
    have hver' : s.objVersion (L.calcObjid a) = e.version := by rw [← hver, Layout.obj, ha]
    rw [hc.event_eq hW ha hver' hv.symm]
    refine hthr.make hc (by simp [Thr.made, hpc]) (by simp [Thr.consumed, hpc]) (setThr_self ..)
      (by simp [Thr.made]) (by simp [Thr.consumed]) ?_
    simp only [PcInv, setThr_self]
    refine ⟨e, ?_, by simp [Event.acc, hW, ha, hv], hver, ?_⟩
    · rw [Cur, setThr_self]; exact hc
    · refine Clear.mono hw ?_ rfl rfl
      intro u
      by_cases hu : u = t
      · subst hu; simp
      · exact Nat.le_of_eq (by rw [setThr_ne _ _ hu])
  | incVersion hpc =>
    exact hthr.move (setPc_self ..) (by simp [Thr.made, hpc])
      (by simpa [Thr.consumed, hpc] using hthr.buffered) (by simp [PcInv])
  -- the access was counted as made before
  | incMemop hpc =>
    constructor
    · simpa [Thr.made, hpc] using hthr.made_le
    · simpa [Thr.made, hpc] using hthr.done_eq
    · have hbuf := hthr.buffered
      simp only [Thr.consumed, hpc] at hbuf
      simp only [setThr_self, Thr.consumed]
      exact hbuf.congr rfl rfl
    · simp [PcInv]

end Self

/-! ## 9. The invariant holds

At the start nothing is passed, versions and cursors are 0 and each thread has the first entry of
its log buffered by `mem_init_thr`. -/

/-- One step, part by part. -/
theorem inv_step (h : Inv R logs s) (hM : Merged L nthr R.trace logs) (ht : t < nthr)
    (hst : Step L prog s t s') : Inv R logs s' where
  thr u := by
    by_cases hu : u = t
    · subst hu; exact step_thrInv_self h hM ht hst
    · exact step_thrInv_ne h hst hu
  ver := step_verInv h hst
  cursor := step_cursorInv h hM hst
  mutex := step_mutexInv h hst
  mem := step_memInv h hst

/-- **The initial state**: every thread has fetched its first entry, and nothing else has happened.
-/
theorem inv_init (hM : Merged L nthr R.trace logs) (h : Initial L m₀ R.trace logs s) :
    Inv R logs s := by
  obtain ⟨hmem, hver, hlog, hthr⟩ := h
  -- every thread buffers its whole log
  have hth : ∀ t, (s.thr t).pc = .start ∧ (s.thr t).memop = 0 ∧ (s.thr t).done = [] ∧
      Buffered (s.thr t) (needed R t 0) := by
    intro t
    have hw : (recordThr L (thread t R.trace)).waitVersion = needed R t 0 ++ [⟨-1, -1⟩] := by
      rw [recordThr_waitVersion, record, foldl_waitVersion]
      simp [needed, RecThr.memInitThr]
    have hw' : (⟨.start, 0, ⟨0, 0⟩, (recordThr L (thread t R.trace)).waitVersion, []⟩ :
        Thr Addr).waitVersionLog = needed R t 0 ++ [⟨-1, -1⟩] := hw
    obtain ⟨th, h1, h2⟩ := nextWaitVersionLog_buffered hw'
      (fun w hw => by have := memop_le_of_mem_needed (Nat.zero_le _) hw; omega)
    have h3 := hthr t
    rw [memInitThr, h1] at h3
    cases h3
    obtain ⟨h4, h5, h6⟩ := nextWaitVersionLog_same h1
    exact ⟨h6, h4, h5, h2⟩
  have hn : ∀ o, (s.readerLog o).n = 0 := fun o => by rw [hlog]; rfl
  have hpass : ∀ t, (s.thr t).passed = 0 := fun t => by simp [Thr.passed, (hth t).1, (hth t).2.1]
  refine ⟨?_, ⟨?_, ?_, ?_, ?_⟩, ⟨?_, ?_, ?_, ?_, ?_, ?_⟩, ?_, ⟨?_, ?_⟩⟩
  · intro t
    obtain ⟨h1, h2, h3, h4⟩ := hth t
    refine ⟨by simp [Thr.made, h1, h2], by simp [Thr.made, h1, h2, h3], ?_, by simp [PcInv, h1]⟩
    simpa [Thr.consumed, h1, h2] using h4
  · intro o; rw [hver]
  · intro o; rw [hver]; rfl
  · intro e he hlt
    have := R.legal.version_nonneg he
    simp only [hver] at hlt
    omega
  · intro e _ hlt
    rw [hpass] at hlt
    exact absurd hlt (by omega)
  · intro o; rw [hlog]; rfl
  · intro o; rw [hlog]; rfl
  · intro o; rw [hn]; exact Nat.zero_le _
  · intro o i ent _ hlt; rw [hn] at hlt; exact absurd hlt (by omega)
  · intro o i ent hi _
    obtain ⟨e, he, -, -, hv, -, -⟩ := hM.sound R.legal (List.mem_of_getElem? hi)
    rw [hver, ← hv]
    exact R.legal.version_nonneg he
  · intro o i ent _ hlt; rw [hn] at hlt; exact absurd hlt (by omega)
  · intro o ho; rw [hlog] at ho; cases ho
  · intro t a v hpc; rw [(hth t).1] at hpc; cases hpc
  · intro a _
    rw [hmem, hver, R.legal.valAt_zero]

/-- **The invariant holds in every state of every interleaving.** -/
theorem reach_inv (hM : Merged L nthr R.trace logs)
    (h : (sys L nthr prog m₀ R.trace logs).Reach s) : Inv R logs s := by
  refine Trans.Sys.reach_of_inductive (I := Inv R logs) (fun s hs => inv_init hM hs) ?_ h
  rintro s l s' - hinv ⟨t, ht, -, hst⟩
  exact inv_step hinv hM ht (step_cases hst)

end MemOrder.Replay
