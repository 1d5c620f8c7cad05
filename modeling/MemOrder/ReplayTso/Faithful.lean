/-
# The replay on TSO is the recorded run

One instruction on TSO against the sequentially consistent replayer (`Rel.answers`): a step is
answered by the same step or by none, a failing check is the same failing check, and a wait that
goes on with all buffers empty is a wait there too.  What is known of every interleaving of the
sequentially consistent replayer then carries over to every run with store buffers: in
`tso_replay_faithful` the accesses of a thread are a prefix of its recorded ones, no check fails,
and when all is done and drained memory is the recorded final memory.

`Simulation.lean` has what each KIND of step does to the relation.  What is left to say at each
place of the code is what the instruction loads, and that the thread sees there what the other
replayer has:

* **`obj_version`.**  Where the thread waits for it, it may see an old version; it goes on only at a
  version that is the recorded one at least, hence the current one, and then it misses no version
  store (`Rel.seen_of_view`).  Past the wait it sees the current version (`Rel.view_version`), at
  the check, in `next_reader_memop` and at the increment.
* **The value.**  Past the wait the value is in view with the version (`Rel.view_val`).
* **`memop` of another thread.**  It may be an old one, and an old one is smaller: the thread goes
  on only when the real one is large enough too.
* **Its own `memop`, and the cursor and mutex of its object.**  These it sees as they are.

An access that was not logged does not wait, so for it the version must be in view already.  It is:
the thread has last seen the object at this very version, and whoever raised it since would be
recorded between (`Rel.seen_of_unlogged`).
-/
import MemOrder.ReplayTso.Simulation

namespace MemOrder.Replay

open Trace

variable {Addr : Type} [DecidableEq Addr] {L : Layout Addr} {nthr : Nat} {prog : Nat → Prog Addr}
  {m₀ : Addr → Val} {R : Run L nthr prog m₀} {logs : Nat → List ReplayWaitMemop} {s : State Addr}

/-- A thread past `memop` accesses of its recorded ones has passed each of them. -/
theorem Inv.passed_of_finished (h : Inv R logs s) (hf : ∀ t < nthr, Finished prog s t) :
    ∀ e ∈ R.trace, e.memop < (s.thr e.tid).passed := by
  intro e he
  have hlt := (List.getElem?_eq_some_iff.mp (R.legal.thread_getElem? he)).1
  rw [← h.memop_of_finished (hf e.tid (R.tid_lt e he))] at hlt
  exact Nat.lt_of_lt_of_le hlt (Thr.memop_le_passed _)

/-- Memory when everything is over. -/
theorem Inv.mem_of_finished (h : Inv R logs s) (hf : ∀ t < nthr, Finished prog s t) :
    s.mem = R.finalMem := by
  funext a
  have hver := h.objVersion_final (h.passed_of_finished hf) (L.calcObjid a)
  rw [Run.finalMem, ← R.legal.valAt_after a hver]
  refine h.mem.current a ?_
  intro t v hpc
  obtain ⟨e, hc, -⟩ := h.writer hpc
  have ht : t < nthr := by
    rw [← hc.mem.2.1]
    exact R.tid_lt e hc.mem.1
  have hstart := (hf t ht).1
  rw [hpc] at hstart
  cases hstart

end MemOrder.Replay

namespace MemOrder.ReplayTso

open Tso
open Commit (Made)
open Replay (Failure)

variable {Addr : Type} [DecidableEq Addr] {L : Layout Addr} {nthr : Nat} {prog : Nat → Prog Addr}
  {m₀ : Addr → Val} {R : Run L nthr prog m₀} {logs : Nat → List ReplayWaitMemop}
  {s s' : State Addr} {c c' : Replay.State Addr} {t u o : Nat} {th : Thr Addr}
  {cth : Replay.Thr Addr}

/-! ## 1. One instruction

`Answers` says what the other replayer does on each outcome.  A load that only fetches what a later
store needs is no step there, and `Fetched` keeps count of these for the bound of `Total.lean`. -/

omit [DecidableEq Addr] in
/-- The program has seen the same results in both. -/
theorem results_eq (h : ThrRel th cth) : th.done.map Made.res = results cth.done := by
  rw [← h.done, List.map_map]
  rfl

omit [DecidableEq Addr] in
/-- The next entry of the version log is the same in both: it is one function of the two buffers. -/
theorem nextWaitVersionLog_rel (h : ThrRel th cth) :
    match th.nextWaitVersionLog with
    | none => cth.nextWaitVersionLog = none
    | some th' => ∃ cth', cth.nextWaitVersionLog = some cth' ∧ ThrRel th' cth' ∧
      cth'.memop = cth.memop := by
  unfold Thr.nextWaitVersionLog Replay.Thr.nextWaitVersionLog
  rw [h.waitVersion, h.log]
  cases Replay.nextWaitVersionLog th.waitVersion th.waitVersionLog with
  | none => rfl
  | some r => exact ⟨_, rfl, ⟨h.pc, rfl, rfl, h.done⟩, rfl⟩

omit [DecidableEq Addr] in
/-- Past the wait is past the wait. -/
theorem afterWait_abs (acc : Acc Addr) : (afterWait acc).abs = Replay.afterWait acc := by
  cases acc <;> rfl

omit [DecidableEq Addr] in
/-- Nothing is loaded there yet. -/
theorem regs_afterWait (acc : Acc Addr) : Regs L c u (afterWait acc) := by
  cases acc <;> trivial

omit [DecidableEq Addr] in
/-- Going on is going on. -/
theorem ThrRel.goto (h : ThrRel th cth) (p : Pc Addr) :
    ThrRel { th with pc := p } { cth with pc := p.abs } :=
  ⟨rfl, h.waitVersion, h.log, h.done⟩

/-- A load that only fetches: no step of `c`. -/
theorem Rel.stutter (h : Rel R s c) {p : Pc Addr} (habs : p.abs = (s.thr t).pc.abs)
    (hregs : Regs L c t p) : Rel R (s.moved t { s.thr t with pc := p }) c := by
  have hold := h.thr t
  have hsame : c.setThr t (c.thr t) = c := by
    simp [Replay.State.setThr]
  rw [← hsame]
  refine h.quiet ⟨?_, hold.thr.waitVersion, hold.thr.log, hold.thr.done⟩ rfl (by rw [hsame]; exact hregs)
    (Or.inl rfl) hold.drained hold.seen hold.history
  exact hold.thr.pc.trans habs.symm

/-- No store is due, and the access is not over. -/
def Plain : Replay.Pc Addr → Prop
  | .incMemop => False
  | .write _ _ .incVersion => False
  | .write _ _ (.unlock (some _)) => False
  | _ => True

omit [DecidableEq Addr] in
/-- At a plain place the access under way is not over. -/
theorem passed_of_plain {cth : Replay.Thr Addr} (h : Plain cth.pc) : cth.passed = cth.memop := by
  unfold Replay.Thr.passed
  split
  · rename_i hpc
    rw [hpc] at h
    exact h.elim
  · rfl

/-- A load that decides where the thread goes, answered by the step that goes there.  What it has to
show is about the new place only. -/
theorem Rel.move (h : Rel R s c) {p : Pc Addr} (hold : Plain (c.thr t).pc) (hnew : Plain p.abs)
    (hregs : Regs L c t p) (hdrained : Drained p.abs → s.buf t = [])
    (hseen : ∀ o, AtObj L o p.abs → ∀ w, HasVer s w o → w = t) :
    Rel R (s.moved t { s.thr t with pc := p }) (c.setPc t p.abs) := by
  have hthr := h.thr t
  refine h.quiet ⟨rfl, hthr.thr.waitVersion, hthr.thr.log, hthr.thr.done⟩ rfl
    (hregs.congr (by simp) (fun _ _ _ _ => rfl) (fun _ _ _ _ => rfl)) (Or.inr ⟨?_, ?_, ?_⟩) hdrained
    hseen ?_
  · intro a x hpc
    rw [hpc] at hold
    exact hold
  · intro a x ent hpc
    rw [hpc] at hold
    exact hold
  · intro a x hpc
    change p.abs = _ at hpc
    rw [hpc] at hnew
    exact hnew
  · intro r hr hru hlt
    have hpassed : ({ c.thr t with pc := p.abs } : Replay.Thr Addr).passed = (c.thr t).memop :=
      passed_of_plain hnew
    rw [hpassed] at hlt
    exact hthr.history r hr hru (by rw [passed_of_plain hold]; exact hlt)

/-- **An access that need not wait has its version in view**: the thread has seen it before.  If
another thread had a version store for the object in its buffer, the object would be two above the
version the thread has last seen (`history`), or above 0 if it has not seen it; but it is at that
version (`Inv.objVersion_of_unlogged`). -/
theorem Rel.seen_of_unlogged (h : Rel R s c) (hinv : Replay.Inv R logs c) (ht : t < nthr)
    (hpc : (c.thr t).pc = .start) {acc : Acc Addr}
    (hacc : prog t (results (c.thr t).done) = some acc)
    (hne : ((c.thr t).memop : Int) ≠ (c.thr t).waitVersion.memop) :
    ∀ w, HasVer s w (L.calcObjid acc.addr) → w = t := by
  obtain ⟨e, hc, rfl⟩ := hinv.cur_of_prog ht hpc hacc
  rw [Replay.calcObjid_acc]
  have hbuf := (hinv.thr t).buffered
  simp only [Replay.Thr.consumed, hpc] at hbuf
  have hl := ((Replay.buffered_cur hbuf hc).2 hne).2
  have hver := hinv.objVersion_of_unlogged hc (by rw [hpc]; simp) hl
  intro w hw
  by_contra hwt
  obtain ⟨hnonneg, hbehind⟩ := h.behind w _ hw
  rcases record_last_version (L := L) ((thread t R.trace).take (c.thr t).memop) (L.obj e) with
    h0 | ⟨r, hr, -, hro, hrv⟩
  · omega
  · obtain ⟨hrt, hrtid⟩ := mem_thread.mp (List.mem_of_mem_take hr)
    have hrm : r.memop < (c.thr t).memop := by
      obtain ⟨k, hk, hkr⟩ := List.getElem_of_mem hr
      rw [List.getElem_take] at hkr
      rw [List.length_take] at hk
      rw [R.legal.numbered t k r (by rw [← hkr]; exact List.getElem?_eq_getElem _)]
      omega
    -- the thread's last earlier access of the object has been passed
    have := (h.thr t).history r hrt hrtid (Nat.lt_of_lt_of_le hrm (Replay.Thr.memop_le_passed _)) w
      hwt (by rw [hro]; exact hw)
    rw [hro] at this
    omega

/-- A load that is no step of `c` has been made. -/
def Fetched (s s' : State Addr) (t : Nat) : Prop :=
  (s'.thr t).pc.fetches < (s.thr t).pc.fetches ∧ s'.buf = s.buf

omit [DecidableEq Addr] in
theorem fetched_moved {p : Pc Addr} (h : p.fetches < (s.thr t).pc.fetches) :
    Fetched s (s.moved t { s.thr t with pc := p }) t := by
  refine ⟨?_, rfl⟩
  simpa [State.moved] using h

/-- The answer of `c` to what the instruction of thread `t` comes to. -/
def Answers (R : Run L nthr prog m₀) (s : State Addr) (c : Replay.State Addr) (t : Nat) :
    Outcome Addr → Prop
  | .next s' => ∃ c', (c' = c ∧ Fetched s s' t ∨ Replay.step L prog c t = .next c') ∧ Rel R s' c'
  | .spin => (∀ u, s.buf u = []) → Replay.step L prog c t = .spin
  | .undrained => s.buf t ≠ []
  | .finished => Finished prog s t
  | .fail f => Replay.step L prog c t = .fail f

section Step

variable (h : Rel R s c)

include h

/-- **The next access is fetched.**  The comparison with the buffered entry is about the thread's
own variables.  An access without an entry goes on at once, with its version in view. -/
theorem Rel.answers_start (hinv : Replay.Inv R logs c) (ht : t < nthr)
    (hpc : (s.thr t).pc = .start) : Answers R s c t (s.instr L prog logs t) := by
  have hcpc : (c.thr t).pc = .start := by rw [(h.thr t).thr.pc, hpc]; rfl
  have hmemop := (h.thr t).memop
  have hwv := (h.thr t).thr.waitVersion
  have hres := results_eq (h.thr t).thr
  cases hacc : prog t (results (c.thr t).done) with
  | none =>
    rw [instr_of_none (by simp [code, hpc, hres, hacc])]
    exact ⟨hpc, by rw [hres, hacc]⟩
  | some acc =>
    rw [instr_of_load (by simp only [code, hpc, hres, hacc]; rfl)]
    simp only [hmemop]
    split
    · rename_i heq
      rw [← hwv] at heq
      refine ⟨_, Or.inr ?_, h.move (by rw [hcpc]; trivial) trivial trivial
        (fun hd => hd.elim) (fun o hat => hat.elim)⟩
      simp [Replay.step, hcpc, hacc, heq, Pc.abs]
    · rename_i hne
      rw [← hwv] at hne
      refine ⟨_, Or.inr ?_, h.move (by rw [hcpc]; trivial) ?_ (regs_afterWait acc) ?_ ?_⟩
      · simp [Replay.step, hcpc, hacc, hne, afterWait_abs]
      · cases acc <;> trivial
      · cases acc <;> exact fun hd => hd.elim
      · intro o hat
        have ho : L.calcObjid acc.addr = o := by cases acc <;> exact hat
        subst ho
        exact h.seen_of_unlogged hinv ht hcpc hacc hne

/-- **The wait for the version is over when the version is in view.**  A thread that sees a version
not below the recorded one sees the current version, since that is not above the recorded one
either. -/
theorem Rel.answers_waitVersion (hinv : Replay.Inv R logs c) {acc : Acc Addr}
    (hpc : (s.thr t).pc = .waitVersion acc) : Answers R s c t (s.instr L prog logs t) := by
  have hcpc : (c.thr t).pc = .waitVersion acc := by rw [(h.thr t).thr.pc, hpc]; rfl
  have hwv := (h.thr t).thr.waitVersion
  rw [instr_of_load (by simp only [code, hpc]; rfl)]
  split
  · rename_i hlt
    intro hempty
    have hnone : ∀ w, HasVer s w (L.calcObjid acc.addr) → w = t := by
      rintro w ⟨v, hv⟩
      rw [hempty] at hv
      exact absurd hv (by simp)
    rw [h.view_version hnone, ← hwv] at hlt
    simp [Replay.step, hcpc, hlt]
  · rename_i hge
    have hle := h.view_version_le t (L.calcObjid acc.addr)
    refine ⟨_, Or.inr ?_, h.move (by rw [hcpc]; trivial) trivial trivial (fun hd => hd.elim) ?_⟩
    · rw [← hwv] at hge
      have hnlt : ¬ c.objVersion (L.calcObjid acc.addr) < (c.thr t).waitVersion.version := by omega
      simp [Replay.step, hcpc, hnlt, Pc.abs]
    · intro o hat
      have ho : L.calcObjid acc.addr = o := hat
      subst ho
      refine h.seen_of_view ?_
      have hp := (hinv.thr t).pc
      simp only [Replay.PcInv, hcpc] at hp
      obtain ⟨e, hc, rfl, hwv'⟩ := hp
      have hver := hinv.objVersion_le hc (by rw [hcpc]; simp)
      rw [← hwv, hwv', Replay.calcObjid_acc] at hge
      rw [Replay.calcObjid_acc]
      simp only at hge
      omega

/-- The assertion on the version, and the next entry of the version log.  The thread is past its
wait, so it asserts on the current version. -/
theorem Rel.answers_checkVersion {acc : Acc Addr} (hpc : (s.thr t).pc = .checkVersion acc) :
    Answers R s c t (s.instr L prog logs t) := by
  have hcpc : (c.thr t).pc = .checkVersion acc := by rw [(h.thr t).thr.pc, hpc]; rfl
  have hwv := (h.thr t).thr.waitVersion
  -- past the wait loop the thread misses no version store of its object
  have hseen : ∀ w, HasVer s w (L.calcObjid acc.addr) → w = t :=
    (h.thr t).seen _ (by rw [hcpc]; rfl)
  rw [instr_of_load (by simp only [code, hpc]; rfl)]
  simp only [h.view_version hseen]
  split
  · rename_i hne
    rw [← hwv] at hne
    simp only [Next.outcome, Answers]
    simp [Replay.step, hcpc, hne]
  -- the check passes in both, and both take up the next entry
  · rename_i heq
    rw [← hwv] at heq
    have hn := nextWaitVersionLog_rel (h.thr t).thr
    split
    · rename_i hnone
      rw [hnone] at hn
      simp only [Next.outcome, Answers]
      simp [Replay.step, hcpc, heq, hn]
    · rename_i th' hsome
      rw [hsome] at hn
      obtain ⟨cth', hcn, hth, hmemop⟩ := hn
      refine ⟨c.setThr t { cth' with pc := Replay.afterWait acc }, Or.inr ?_, ?_⟩
      · simp [Replay.step, hcpc, heq, hcn]
      · refine h.quiet ⟨(afterWait_abs acc).symm, hth.waitVersion, hth.log, hth.done⟩ hmemop
          ((regs_afterWait acc).congr rfl (fun _ _ _ _ => rfl) (fun _ _ _ _ => rfl))
          (Or.inr ⟨?_, ?_, ?_⟩) ?_ ?_ ?_
        · rw [hcpc]; simp
        · rw [hcpc]; simp
        · cases acc <;> simp [Replay.afterWait]
        · cases acc <;> exact fun hd => hd.elim
        · intro o hat
          have ho : L.calcObjid acc.addr = o := by cases acc <;> exact hat
          subst ho
          exact hseen
        · intro r hr hru hlt
          refine (h.thr t).history r hr hru ?_
          have hpassed : ({ cth' with pc := Replay.afterWait acc } : Replay.Thr Addr).passed
              = (c.thr t).memop := by
            rw [Replay.passed_afterWait, hmemop]
          rw [hpassed] at hlt
          rw [passed_of_plain (by rw [hcpc]; trivial)]
          exact hlt

/-- **`val = *addr`.**  The value in view is that of the other side, and the access is over with
this step: from now on it counts for `history`, and nobody has a version store for the object in a
buffer. -/
theorem Rel.answers_load (hinv : Replay.Inv R logs c) {a : Addr} (hpc : (s.thr t).pc = .load a) :
    Answers R s c t (s.instr L prog logs t) := by
  have hcpc : (c.thr t).pc = .load a := by rw [(h.thr t).thr.pc, hpc]; rfl
  have hseen : ∀ w, HasVer s w (L.calcObjid a) → w = t := (h.thr t).seen _ (by rw [hcpc]; rfl)
  rw [instr_of_load (by simp only [code, hpc]; rfl)]
  simp only [h.view_val hinv hcpc]
  refine ⟨_, Or.inr (by simp only [Replay.step, hcpc]; rfl), ?_⟩
  refine h.quiet ⟨rfl, (h.thr t).thr.waitVersion, (h.thr t).thr.log, ?_⟩ rfl trivial
    (Or.inr ⟨?_, ?_, ?_⟩) (fun hd => hd.elim) (fun o hat => hat.elim) ?_
  · simp [(h.thr t).thr.done, Event.made, Event.acc, Event.result]
  · rw [hcpc]; simp
  · rw [hcpc]; simp
  · simp
  · intro r hr hru hlt w hw hv
    have hle : r.memop < (c.thr t).memop + 1 := by simpa [Replay.Thr.passed] using hlt
    rcases Nat.lt_succ_iff_lt_or_eq.mp hle with hlt' | heq
    · refine (h.thr t).history r hr hru ?_ w hw hv
      rw [passed_of_plain (by rw [hcpc]; trivial)]
      exact hlt'
    · -- the access that is over now is one of the object
      have hp := (hinv.thr t).pc
      simp only [Replay.PcInv, hcpc] at hp
      obtain ⟨e, hc, hacc, -⟩ := hp
      have hcr : Replay.Cur R c t r := by
        rw [Replay.Cur, ← heq, ← hru]
        exact R.legal.thread_getElem? hr
      rw [← hc.unique hcr, Layout.obj, (Replay.acc_eq_read hacc).2] at hv
      exact absurd (hseen w hv) hw

/-! The places of `mem_write`. -/

section Write

variable {a : Addr} {x : Val}

/-- `pthread_mutex_trylock`: it waits for the buffer, and then finds the mutex as it is on the other
side. -/
theorem Rel.answers_trylock (hpc : (s.thr t).pc = .write a x .trylock) :
    Answers R s c t (s.instr L prog logs t) := by
  have hcpc : (c.thr t).pc = .write a x .trylock := by rw [(h.thr t).thr.pc, hpc]; rfl
  have hcode : code L prog logs t (s.thr t) = some (writeCode L logs (s.thr t) a x .trylock) := by
    simp only [code, hpc]
  by_cases hb : s.buf t = []
  · rw [instr_of_xchg hcode hb]
    simp only [h.mutex]
    split
    · rename_i hm
      simp only [Next.outcome, Answers]
      simp [Replay.step, Replay.stepWrite, hcpc, hm]
    · rename_i hm
      refine ⟨_, Or.inr (by simp [Replay.step, Replay.stepWrite, hcpc, hm]; rfl),
        h.exchange .checkSize hb hpc ((h.thr t).thr.goto _) trivial⟩
  · rw [instr_of_undrained hcode hb]
    exact hb

/-- `if (n >= size)`, with the cursor in view. -/
theorem Rel.answers_checkSize (hinv : Replay.Inv R logs c)
    (hpc : (s.thr t).pc = .write a x .checkSize) : Answers R s c t (s.instr L prog logs t) := by
  have hcpc : (c.thr t).pc = .write a x .checkSize := by rw [(h.thr t).thr.pc, hpc]; rfl
  have hseen := (h.thr t).seen (L.calcObjid a) (by rw [hcpc]; rfl)
  have hsize : (c.readerLog (L.calcObjid a)).size = logSize (logs (L.calcObjid a)) :=
    hinv.cursor.size_eq _
  have hb : s.buf t = [] := (h.thr t).drained (by rw [hcpc]; trivial)
  rw [instr_of_load (by simp only [code, hpc, writeCode]; rfl)]
  simp only [h.view_n hinv hcpc]
  split
  · rename_i hle
    refine ⟨_, Or.inr ?_, h.move (by rw [hcpc]; trivial) trivial trivial (fun _ => hb) ?_⟩
    · simp [Replay.step, Replay.stepWrite, hcpc, hsize, hle, Pc.abs, WPc.abs]
    · rintro o rfl
      exact hseen
  · rename_i hgt
    refine ⟨_, Or.inr ?_, h.move (by rw [hcpc]; trivial) trivial trivial (fun _ => hb) ?_⟩
    · simp [Replay.step, Replay.stepWrite, hcpc, hsize, hgt, Pc.abs, WPc.abs]
    · rintro o rfl
      exact hseen

/-- `version = obj_version[objid]`: no step on the other side, which compares with the version it
has. -/
theorem Rel.answers_loadVersion (hpc : (s.thr t).pc = .write a x .loadVersion) :
    Answers R s c t (s.instr L prog logs t) := by
  have hcpc : (c.thr t).pc = .write a x .search := by rw [(h.thr t).thr.pc, hpc]; rfl
  have hseen := (h.thr t).seen (L.calcObjid a) (by rw [hcpc]; rfl)
  rw [instr_of_load (by simp only [code, hpc, writeCode]; rfl)]
  simp only [h.view_version hseen]
  exact ⟨c, Or.inl ⟨rfl, fetched_moved (by simp [hpc, Pc.fetches])⟩,
    h.stutter (by rw [hpc]; rfl) rfl⟩

/-- The comparison with the entry at the cursor, and the assertion on its version.  Both use the
version loaded before, which is still current (`Regs`): the thread is past its wait. -/
theorem Rel.answers_loadN (hinv : Replay.Inv R logs c) {v : Int}
    (hpc : (s.thr t).pc = .write a x (.loadN v)) : Answers R s c t (s.instr L prog logs t) := by
  have hcpc : (c.thr t).pc = .write a x .search := by rw [(h.thr t).thr.pc, hpc]; rfl
  have hseen := (h.thr t).seen (L.calcObjid a) (by rw [hcpc]; rfl)
  have hsize : (c.readerLog (L.calcObjid a)).size = logSize (logs (L.calcObjid a)) :=
    hinv.cursor.size_eq _
  have hlog := hinv.cursor.log_eq (L.calcObjid a)
  have hb : s.buf t = [] := (h.thr t).drained (by rw [hcpc]; trivial)
  have hv := (h.thr t).regs
  rw [hpc] at hv
  change v = c.objVersion (L.calcObjid a) at hv
  -- the version was loaded before, and is still the object's
  subst hv
  rw [instr_of_load (by simp only [code, hpc, writeCode]; rfl)]
  -- a writer sees its cursor, so both look at the same entry
  simp only [h.view_n hinv hcpc]
  cases hent : (logs (L.calcObjid a))[(c.readerLog (L.calcObjid a)).n]? with
  | none => simp [Next.outcome, Answers, Replay.step, Replay.stepWrite, hcpc, hlog, hent]
  | some ent =>
    simp only
    split
    · rename_i hgt
      simp only [Next.outcome, Answers]
      simp [Replay.step, Replay.stepWrite, hcpc, hlog, hent, hgt]
    · rename_i hle
      split
      · rename_i hfound
        refine ⟨_, Or.inr ?_, h.move (by rw [hcpc]; trivial) trivial trivial (fun _ => hb) ?_⟩
        · simp [Replay.step, Replay.stepWrite, hcpc, hlog, hsize, hent, hfound.1, hfound.2, Pc.abs,
            WPc.abs]
        · rintro o rfl
          exact hseen
      · rename_i hnot
        refine ⟨_, Or.inr ?_, h.move (by rw [hcpc]; trivial) trivial trivial (fun _ => hb) ?_⟩
        · simp only [Replay.step, Replay.stepWrite, hcpc, hlog, hsize, hent, if_neg hle, if_neg hnot]
          rfl
        · rintro o rfl
          exact hseen

/-- The load of `n++`. -/
theorem Rel.answers_advanceLoad (hinv : Replay.Inv R logs c) {ent : ReplayWaitMemop}
    (hpc : (s.thr t).pc = .write a x (.advanceLoad ent)) :
    Answers R s c t (s.instr L prog logs t) := by
  have hcpc : (c.thr t).pc = .write a x (.advance ent) := by rw [(h.thr t).thr.pc, hpc]; rfl
  rw [instr_of_load (by simp only [code, hpc, writeCode]; rfl)]
  simp only [h.view_n hinv hcpc]
  exact ⟨c, Or.inl ⟨rfl, fetched_moved (by simp [hpc, Pc.fetches])⟩,
    h.stutter (by rw [hpc]; rfl) rfl⟩

/-- The store of `n++`. -/
theorem Rel.answers_advanceStore (hinv : Replay.Inv R logs c) {ent : ReplayWaitMemop} {n : Nat}
    (hpc : (s.thr t).pc = .write a x (.advanceStore ent n)) :
    Answers R s c t (s.instr L prog logs t) := by
  have hcpc : (c.thr t).pc = .write a x (.advance ent) := by rw [(h.thr t).thr.pc, hpc]; rfl
  have hn := (h.thr t).regs
  rw [hpc] at hn
  change n = (c.readerLog (L.calcObjid a)).n at hn
  subst hn
  rw [instr_of_store (by simp only [code, hpc, writeCode]; rfl)]
  exact ⟨_, Or.inr (by simp only [Replay.step, Replay.stepWrite, hcpc]),
    h.push_n hinv hcpc ((h.thr t).thr.goto _) rfl⟩

/-- `pthread_mutex_unlock`, at the end of the search and after a found entry. -/
theorem Rel.answers_unlock {ret : Option ReplayWaitMemop}
    (hpc : (s.thr t).pc = .write a x (.unlock ret)) : Answers R s c t (s.instr L prog logs t) := by
  have hcpc : (c.thr t).pc = .write a x (.unlock ret) := by rw [(h.thr t).thr.pc, hpc]; rfl
  have hcode : code L prog logs t (s.thr t)
      = some (writeCode L logs (s.thr t) a x (.unlock ret)) := by
    simp only [code, hpc]
  by_cases hb : s.buf t = []
  · rw [instr_of_xchg hcode hb]
    cases ret with
    | none =>
      exact ⟨_, Or.inr (by simp only [Replay.step, Replay.stepWrite, hcpc]; rfl),
        h.exchange .store hb hpc ((h.thr t).thr.goto _) trivial⟩
    | some ent =>
      exact ⟨_, Or.inr (by simp only [Replay.step, Replay.stepWrite, hcpc]; rfl),
        h.exchange (.waitMemop ent) hb hpc ((h.thr t).thr.goto _) trivial⟩
  · rw [instr_of_undrained hcode hb]
    exact hb

/-- The wait for a reader is over when its `memop` is in view, and what is in view is not above what
it is. -/
theorem Rel.answers_waitMemop {ent : ReplayWaitMemop}
    (hpc : (s.thr t).pc = .write a x (.waitMemop ent)) :
    Answers R s c t (s.instr L prog logs t) := by
  have hcpc : (c.thr t).pc = .write a x (.waitMemop ent) := by rw [(h.thr t).thr.pc, hpc]; rfl
  have hseen := (h.thr t).seen (L.calcObjid a) (by rw [hcpc]; rfl)
  have hle := h.view_memop_le t ent.tid
  rw [instr_of_load (by simp only [code, hpc, writeCode]; rfl)]
  split
  · rename_i hwait
    intro hempty
    have hview : (s.view t).memop ent.tid = (c.thr ent.tid).memop := by
      have hown := (h.thr ent.tid).memop
      simp only [State.view, hempty, view_nil] at hown ⊢
      exact hown
    rw [hview] at hwait
    simp only [Replay.step, Replay.stepWrite, hcpc, if_pos hwait]
  · rename_i hgo
    have hgo' : ¬ ((c.thr ent.tid).memop : Int) ≤ ent.memop := by omega
    refine ⟨_, Or.inr ?_, h.move (by rw [hcpc]; trivial) trivial trivial (fun hd => hd.elim) ?_⟩
    · simp only [Replay.step, Replay.stepWrite, hcpc, if_neg hgo']
      rfl
    · rintro o rfl
      exact hseen

/-- `*addr = val`. -/
theorem Rel.answers_store (hinv : Replay.Inv R logs c) (hpc : (s.thr t).pc = .write a x .store) :
    Answers R s c t (s.instr L prog logs t) := by
  have hcpc : (c.thr t).pc = .write a x .store := by rw [(h.thr t).thr.pc, hpc]; rfl
  rw [instr_of_store (by simp only [code, hpc, writeCode]; rfl)]
  refine ⟨_, Or.inr (by simp only [Replay.step, Replay.stepWrite, hcpc]; rfl), ?_⟩
  refine h.push_val hinv hcpc ⟨rfl, (h.thr t).thr.waitVersion, (h.thr t).thr.log, ?_⟩ rfl rfl
  simp [(h.thr t).thr.done, Event.made, Event.acc, Event.result]

/-- The load of `obj_version[objid] += 2`. -/
theorem Rel.answers_incLoad (hpc : (s.thr t).pc = .write a x .incLoad) :
    Answers R s c t (s.instr L prog logs t) := by
  have hcpc : (c.thr t).pc = .write a x .incVersion := by rw [(h.thr t).thr.pc, hpc]; rfl
  have hseen := (h.thr t).seen (L.calcObjid a) (by rw [hcpc]; rfl)
  rw [instr_of_load (by simp only [code, hpc, writeCode]; rfl)]
  simp only [h.view_version hseen]
  exact ⟨c, Or.inl ⟨rfl, fetched_moved (by simp [hpc, Pc.fetches])⟩,
    h.stutter (by rw [hpc]; rfl) rfl⟩

/-- The store of `obj_version[objid] += 2`, of the version loaded before. -/
theorem Rel.answers_incStore (hinv : Replay.Inv R logs c) {v : Int}
    (hpc : (s.thr t).pc = .write a x (.incStore v)) : Answers R s c t (s.instr L prog logs t) := by
  have hcpc : (c.thr t).pc = .write a x .incVersion := by rw [(h.thr t).thr.pc, hpc]; rfl
  have hv := (h.thr t).regs
  rw [hpc] at hv
  change v = c.objVersion (L.calcObjid a) at hv
  subst hv
  rw [instr_of_store (by simp only [code, hpc, writeCode]; rfl)]
  exact ⟨_, Or.inr (by simp only [Replay.step, Replay.stepWrite, hcpc]; rfl),
    h.push_version hinv hcpc ((h.thr t).thr.goto _) rfl⟩

end Write

/-- The load of `memop++`. -/
theorem Rel.answers_incMemopLoad (hpc : (s.thr t).pc = .incMemopLoad) :
    Answers R s c t (s.instr L prog logs t) := by
  rw [instr_of_load (by simp only [code, hpc]; rfl)]
  simp only [(h.thr t).memop]
  exact ⟨c, Or.inl ⟨rfl, fetched_moved (by simp [hpc, Pc.fetches])⟩,
    h.stutter (by rw [hpc]; rfl) rfl⟩

/-- The store of `memop++`. -/
theorem Rel.answers_incMemopStore {k : Nat} (hpc : (s.thr t).pc = .incMemopStore k) :
    Answers R s c t (s.instr L prog logs t) := by
  have hcpc : (c.thr t).pc = .incMemop := by rw [(h.thr t).thr.pc, hpc]; rfl
  have hk := (h.thr t).regs
  rw [hpc] at hk
  change k = (c.thr t).memop at hk
  subst hk
  rw [instr_of_store (by simp only [code, hpc]; rfl)]
  refine ⟨_, Or.inr (by simp only [Replay.step, hcpc]; rfl), ?_⟩
  have hthr := (h.thr t).thr
  exact h.push_memop hcpc ⟨rfl, hthr.waitVersion, hthr.log, hthr.done⟩ rfl rfl

/-- **One instruction**, place by place. -/
theorem Rel.answers (hinv : Replay.Inv R logs c) (ht : t < nthr) :
    Answers R s c t (s.instr L prog logs t) := by
  cases hpc : (s.thr t).pc with
  | start => exact h.answers_start hinv ht hpc
  | waitVersion acc => exact h.answers_waitVersion hinv hpc
  | checkVersion acc => exact h.answers_checkVersion hpc
  | load a => exact h.answers_load hinv hpc
  | incMemopLoad => exact h.answers_incMemopLoad hpc
  | incMemopStore k => exact h.answers_incMemopStore hpc
  | write a x w =>
    cases w with
    | trylock => exact h.answers_trylock hpc
    | checkSize => exact h.answers_checkSize hinv hpc
    | loadVersion => exact h.answers_loadVersion hpc
    | loadN v => exact h.answers_loadN hinv hpc
    | advanceLoad ent => exact h.answers_advanceLoad hinv hpc
    | advanceStore ent n => exact h.answers_advanceStore hinv hpc
    | unlock ret => exact h.answers_unlock hpc
    | waitMemop ent => exact h.answers_waitMemop hpc
    | store => exact h.answers_store hinv hpc
    | incLoad => exact h.answers_incLoad hpc
    | incStore v => exact h.answers_incStore hinv hpc

end Step

/-! ## 2. Every run

The simulation along a run.  The invariant of the other replayer is at hand at each step, since the
state that answers is reachable there. -/

omit [DecidableEq Addr] in
/-- `mem_init_thr` does the same in both. -/
theorem memInitThr_rel {log : List WaitVersion} (h : memInitThr log = some th) :
    ∃ cth, Replay.memInitThr log = some cth ∧ ThrRel th cth ∧ cth.memop = 0 ∧ cth.pc = .start := by
  have hstart : ThrRel (⟨.start, ⟨0, 0⟩, log, []⟩ : Thr Addr) ⟨.start, 0, ⟨0, 0⟩, log, []⟩ :=
    ⟨rfl, rfl, rfl, rfl⟩
  have hn := nextWaitVersionLog_rel hstart
  rw [← memInitThr, h] at hn
  obtain ⟨cth, hcth, hrel, hmemop⟩ := hn
  exact ⟨cth, hcth, hrel, hmemop, (Replay.nextWaitVersionLog_same hcth).2.2⟩

omit [DecidableEq Addr] in
/-- Only the start stands for the start. -/
theorem ThrRel.start_of (h : ThrRel th cth) (hpc : cth.pc = .start) : th.pc = .start := by
  have habs := h.pc
  rw [hpc] at habs
  cases hp : th.pc with
  | start => rfl
  | _ => rw [hp] at habs; cases habs

/-- The initial states of the two replayers. -/
theorem Initial.rel (R : Run L nthr prog m₀) (h : Initial m₀ (versionLogs L R.trace) s) :
    ∃ c, Replay.Initial L m₀ R.trace logs c ∧ Rel R s c := by
  obtain ⟨hmem, hbuf, hthr⟩ := h
  have hempty : ∀ u, s.buf u = [] := by simp [hbuf]
  have hnone : ∀ u (st : Store Addr), st ∉ s.buf u := by simp [hempty]
  -- nothing is buffered
  have hnover : ∀ u o, ¬ HasVer s u o := by
    rintro u o ⟨v, hv⟩
    exact hnone u _ hv
  choose cth hcth hrel hmemop hpc using fun u => memInitThr_rel (hthr u)
  refine ⟨⟨m₀, fun _ => 0, fun o => .loaded (logs o), cth⟩, ⟨rfl, rfl, rfl, hcth⟩,
    ?_, ?_, ?_, ?_, ?_, ?_, ?_⟩
  · intro u
    have hstart : (s.thr u).pc = .start := (hrel u).start_of (hpc u)
    refine ⟨hrel u, ?_, ?_, ?_, fun _ => hempty u, fun a x _ o => hnover u o, ?_, ?_, ?_, ?_⟩
    · rw [hstart]
      trivial
    · exact fun st hst => absurd hst (hnone u st)
    · rw [hempty]
      exact List.Pairwise.nil
    · simp [State.view, hempty, hmem, hmemop]
    · simp [hmem]
    · exact fun o _ w hw => absurd hw (hnover w o)
    · exact fun r _ _ _ w _ hw => absurd hw (hnover w _)
  · intro a _
    rw [hmem]
  · intro o _
    rw [hmem]
  · exact fun u o hu => absurd hu (hnover u o)
  · exact fun u w o hu => absurd hu (hnover u o)
  · intro o _
    rw [hmem]
    rfl
  · intro o
    rw [hmem]
    rfl

/-- **Every state of the replayer on TSO stands for one of the sequentially consistent
replayer.** -/
theorem reach_rel (hM : Replay.Merged L nthr R.trace logs)
    (hr : (sys L nthr prog m₀ (versionLogs L R.trace) logs).Reach s) :
    ∃ c, (Replay.sys L nthr prog m₀ R.trace logs).Reach c ∧ Rel R s c := by
  refine Trans.Sys.reach_of_stuttering (fun s hs => Initial.rel R hs) ?_ hr
  rintro s l s' c hc hrel ⟨t, ht, -, hst | hst⟩
  · have hans := hrel.answers (Replay.reach_inv hM hc) ht
    rw [hst] at hans
    obtain ⟨c', ⟨rfl, -⟩ | hstep, hrel'⟩ := hans
    · exact ⟨c', Or.inl rfl, hrel'⟩
    · exact ⟨c', Or.inr ⟨some t, t, ht, rfl, hstep⟩, hrel'⟩
  · obtain ⟨st, b, hb, rfl⟩ := drain_cases hst
    exact ⟨c, Or.inl rfl, hrel.drain hb⟩

/-- A thread that has finished has finished on the other side. -/
theorem Rel.finished (h : Rel R s c) (hf : Finished prog s t) : Replay.Finished prog c t := by
  refine ⟨?_, ?_⟩
  · rw [(h.thr t).thr.pc, hf.1]
    rfl
  · rw [← results_eq (h.thr t).thr]
    exact hf.2

/-- Memory of a state with nothing in the buffers. -/
theorem Rel.mem_of_drained (h : Rel R s c) (hb : ∀ u, s.buf u = []) : s.mem.val = c.mem := by
  funext a
  refine h.val a ?_
  intro u x hx
  rw [hb] at hx
  exact absurd hx (by simp)

/-- A thread the process does not have stores nothing. -/
theorem buf_eq_nil_of_le {versions : Nat → List WaitVersion}
    (hr : (sys L nthr prog m₀ versions logs).Reach s)
    (ht : nthr ≤ t) : s.buf t = [] := by
  refine Trans.Sys.reach_of_inductive (I := fun s => s.buf t = []) ?_ ?_ hr
  · rintro s ⟨-, hbuf, -⟩
    rw [hbuf]
  · rintro s l s' - hold ⟨u, hu, -, hst | hst⟩
    · have hne : t ≠ u := by omega
      simp only [State.instr] at hst
      split at hst
      · cases hst
      · split at hst <;> cases hst
        exact (Function.update_of_ne hne _ _).trans hold
    · obtain ⟨st, b, -, rfl⟩ := drain_cases hst
      exact (Function.update_of_ne (by omega : t ≠ u) _ _).trans hold

/-! ## 3. Runs, executed

A schedule names the thread of each step and says whether it is an instruction or a drain. -/

/-- What can happen next: an instruction of a thread, or its oldest store reaches memory. -/
inductive Act
  | instr (t : Nat)
  | drain (t : Nat)
deriving DecidableEq, Repr

def Act.tid : Act → Nat
  | .instr t => t
  | .drain t => t

/-- One step of a schedule. -/
def act (L : Layout Addr) (prog : Nat → Prog Addr) (logs : Nat → List ReplayWaitMemop)
    (s : State Addr) : Act → Option (Option Nat × State Addr)
  | .instr t =>
    match s.instr L prog logs t with
    | .next s' => some (some t, s')
    | _ => none
  | .drain t => (s.drain t).map fun s' => (some t, s')

/-- A step of a schedule is a step of the system. -/
theorem step_act {versions : Nat → List WaitVersion} {a : Act} {l : Option Nat}
    (hlt : a.tid < nthr) (h : act L prog logs s a = some (l, s')) :
    (sys L nthr prog m₀ versions logs).step s l s' := by
  cases a with
  | instr t =>
    simp only [act] at h
    split at h
    · rename_i s₁ hst
      cases h
      exact ⟨t, hlt, rfl, Or.inl hst⟩
    · cases h
  | drain t =>
    obtain ⟨s₁, hst, heq⟩ := Option.map_eq_some_iff.mp h
    cases heq
    exact ⟨t, hlt, rfl, Or.inr hst⟩

/-- The state `mem_init` and `mem_init_thr` leave. -/
def initState (m₀ : Addr → Val) (versions : Nat → List WaitVersion) : State Addr where
  mem := ⟨m₀, fun _ => 0, fun _ => 0, fun _ => 0, fun _ => false⟩
  buf _ := []
  thr t := (memInitThr (versions t)).getD ⟨.start, ⟨0, 0⟩, [], []⟩

omit [DecidableEq Addr] in
/-- A version log has at least its end marker. -/
theorem versionLogs_ne_nil (L : Layout Addr) (tr : List (Event Addr)) (t : Nat) :
    versionLogs L tr t ≠ [] := by
  rw [versionLogs, recordThr_waitVersion]
  simp

omit [DecidableEq Addr] in
/-- It is an initial state: every version log has its end marker. -/
theorem initial_initState (m₀ : Addr → Val) {versions : Nat → List WaitVersion}
    (hne : ∀ t, versions t ≠ []) : Initial m₀ versions (initState m₀ versions) := by
  refine ⟨rfl, rfl, ?_⟩
  intro t
  simp only [initState]
  cases hlog : versions t with
  | nil => exact absurd hlog (hne t)
  | cons w ws =>
    simp only [memInitThr, Thr.nextWaitVersionLog, Replay.nextWaitVersionLog]
    split <;> rfl

section Demo

open Replay (demoLayout demoProg demoTrace demoLogs demoRun demo_merged)

/-- The writer is held back in `wait_reader` with its cursor store still in the buffer; later it is
through with its program before its value and its version have drained. -/
def demoSched : List Act :=
  List.replicate 7 (.instr 0) ++ List.replicate 5 (.instr 1) ++ [.drain 1, .drain 0] ++
    List.replicate 12 (.instr 0) ++ [.drain 0, .drain 0] ++ List.replicate 5 (.instr 1) ++
    [.drain 1, .drain 0]

/-- The state that run ends in. -/
def demoEnd : State Nat :=
  ((Trans.runSched (act demoLayout demoProg demoLogs) demoSched
    (initState (fun _ => 0) (versionLogs demoLayout demoTrace))).map Prod.snd).getD
      (initState (fun _ => 0) (versionLogs demoLayout demoTrace))

/-- That run, with its labels. -/
theorem demo_exec : (sys demoLayout 2 demoProg (fun _ => 0)
    (versionLogs demoLayout demoTrace) demoLogs).Exec
    (demoSched.map Act.tid) demoEnd := by
  have hlabels : (Trans.runSched (act demoLayout demoProg demoLogs) demoSched
      (initState (fun _ => 0) (versionLogs demoLayout demoTrace))).map Prod.fst =
        some (demoSched.map Act.tid) := by decide
  have hlt : ∀ a ∈ demoSched, a.tid < 2 := by decide
  exact Trans.Sys.exec_end (fun a ha _ _ _ h => step_act (hlt a ha) h)
    (initial_initState _ (versionLogs_ne_nil _ _)) hlabels

/-- At its end both threads have finished and both buffers are empty. -/
theorem demo_finished : ∀ t < 2, Finished demoProg demoEnd t ∧ demoEnd.buf t = [] := by
  intro t ht
  match t, ht with
  | 0, _ => exact ⟨⟨rfl, rfl⟩, rfl⟩
  | 1, _ => exact ⟨⟨rfl, rfl⟩, rfl⟩

end Demo

/-! ## 4. Fidelity

Read off the state that answers. -/

section Reach

variable (hM : Replay.Merged L nthr R.trace logs)
  (hr : (sys L nthr prog m₀ (versionLogs L R.trace) logs).Reach s)

include hM hr

/-- What a thread has made is a prefix of its recorded accesses. -/
theorem done_prefix (t : Nat) : (s.thr t).done <+: (thread t R.trace).map Event.made := by
  obtain ⟨c, hc, hrel⟩ := reach_rel hM hr
  rw [← (hrel.thr t).thr.done, ((Replay.reach_inv hM hc).thr t).done_eq]
  exact (List.take_prefix _ _).map _

/-- No check fails: it would be the same check of the other replayer. -/
theorem instr_ne_fail (ht : t < nthr) (f : Failure) : s.instr L prog logs t ≠ .fail f := by
  intro hf
  obtain ⟨c, hc, hrel⟩ := reach_rel hM hr
  have hans := hrel.answers (Replay.reach_inv hM hc) ht
  rw [hf] at hans
  exact (Replay.reach_inv hM hc).step_ne_fail t f hans

theorem done_of_finished (hf : Finished prog s t) :
    (s.thr t).done = (thread t R.trace).map Event.made := by
  obtain ⟨c, hc, hrel⟩ := reach_rel hM hr
  rw [← (hrel.thr t).thr.done, (Replay.reach_inv hM hc).done_of_finished (hrel.finished hf)]

theorem val_of_finished (hf : ∀ t < nthr, Finished prog s t) (hb : ∀ t < nthr, s.buf t = []) :
    s.mem.val = R.finalMem := by
  obtain ⟨c, hc, hrel⟩ := reach_rel hM hr
  rw [← (Replay.reach_inv hM hc).mem_of_finished (fun t ht => hrel.finished (hf t ht))]
  refine hrel.mem_of_drained ?_
  intro u
  by_cases hu : u < nthr
  · exact hb u hu
  · exact buf_eq_nil_of_le hr (by omega)

end Reach

/-- **Replay fidelity on TSO.**  In every run of the replayer with store buffers, what a thread's
program has seen is a prefix of what it saw when it was recorded, and no run-time check fails.  When
all threads have finished, each has seen what it saw then, and once the buffers have drained memory
is the recorded final memory. -/
theorem tso_replay_faithful (R : Run L nthr prog m₀) (hM : Replay.Merged L nthr R.trace logs)
    (hr : (sys L nthr prog m₀ (versionLogs L R.trace) logs).Reach s) :
    (∀ t < nthr, (s.thr t).done <+: (thread t R.trace).map Event.made) ∧
      (∀ t < nthr, ∀ f, s.instr L prog logs t ≠ .fail f) ∧
      ((∀ t < nthr, Finished prog s t) →
        (∀ t < nthr, (s.thr t).done = (thread t R.trace).map Event.made) ∧
        ((∀ t < nthr, s.buf t = []) → s.mem.val = R.finalMem)) := by
  refine ⟨fun t _ => done_prefix hM hr t, fun t ht f => instr_ne_fail hM hr ht f, ?_⟩
  intro hf
  exact ⟨fun t ht => done_of_finished hM hr (hf t ht), fun hb => val_of_finished hM hr hf hb⟩

theorem tso_replay_faithful_demo :
    (∀ t < 2, (demoEnd.thr t).done = (thread t Replay.demoTrace).map Event.made) ∧
      demoEnd.mem.val = Replay.demoRun.finalMem :=
  have h := (tso_replay_faithful Replay.demoRun Replay.demo_merged demo_exec.reach).2.2
    (fun t ht => (demo_finished t ht).1)
  ⟨h.1, h.2 (fun t ht => (demo_finished t ht).2)⟩

end MemOrder.ReplayTso
