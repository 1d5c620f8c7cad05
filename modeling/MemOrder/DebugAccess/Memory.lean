/-
# The order of checked writes

With `DEBUG_ACCESS` a write is checked to be AT its recorded version before its store.  The buffer
is empty then, after the mutex operations of `wait_reader`, so what the check compares is what
memory has; and no other recorded write of the object has that version.  So the writes of an object
are made one at a time and reach memory in their recorded order, with or without waits (`MemSound`).

The argument is about recorded writes and memory alone; nothing is assumed about the logs, and no
simulation by the sequentially consistent replayer is available, since without the right waits there
is none.  It goes round in four stations.

* **Check.**  A write `e` passes its check when memory has the object at `e.version`
  (`MemSound.check`).  From there on it is IN its write (`InWrite`) until its version store is made.
* **Store.**  The value goes into an empty buffer (`MemSound.store`); the write is now made
  (`Issued`), and the object is still at its version in memory.
* **Version.**  `obj_version[objid] += 2` reads the version of memory, since the thread has no
  version store of its own, and puts `e.version + 2` behind the value (`MemSound.incLoad`,
  `MemSound.incStore`).
* **Drain.**  The value drains first (`InOrder`), then the version (`MemSound.drain_val`,
  `MemSound.drain_version`).  Until then every write that is checked on this object finds the old
  version, and the only recorded write at it is `e` itself, which its thread is past.  So nobody
  else has begun a write of the object, and the version that drains is the next one.

With the version at `v`, the object's memory is therefore that of the recorded run at `v`, but for
the write recorded at `v` if it has been made (`MemSound.old`, `ThrMem.new`).
-/
import MemOrder.DebugAccess.Results

namespace MemOrder.DebugAccess

open Commit (Made)
open ReplayTso (Mem Store Thr HasVer InOrder)

variable {Addr : Type} [DecidableEq Addr] {L : Layout Addr} {nthr : Nat} {prog : Nat → Prog Addr}
  {m₀ : Addr → Val} {R : Run L nthr prog m₀} {versions : Nat → List WaitVersion}
  {logs : Nat → List ReplayWaitMemop} {b : ReplayTso.State Addr} {s s' : State Addr}
  {e : Event Addr} {t u : Nat}

/-! ## 1. The invariant

`ThrMem` follows the writes of one thread through its place, its buffer and memory; `MemSound` adds
what holds of memory as a whole.  `place`, `val` and `ver` say that whatever part of a write is
still under way, the object in memory is at the write's version; `ended` says that every write that
has been made is either under way in this sense or below the version. -/

/-- A recorded write, of the first `k` accesses of thread `t`. -/
structure WriteOf (R : Run L nthr prog m₀) (t k : Nat) (e : Event Addr) : Prop where
  mem : e ∈ R.trace
  tid : e.tid = t
  op : e.op = .W
  lt : e.memop < k

/-- Thread `t` has made the recorded write `e`. -/
abbrev Issued (R : Run L nthr prog m₀) (s : State Addr) (t : Nat) (e : Event Addr) : Prop :=
  WriteOf R t (s.base.thr t).done.length e

/-- Thread `t` is between the check and the version store of the recorded access `e`. -/
def InWrite (R : Run L nthr prog m₀) (s : State Addr) (t : Nat) (e : Event Addr) : Prop :=
  match (s.base.thr t).pc with
  | .write _ _ .store =>
    s.call t = none ∧ (thread t R.trace)[(s.base.thr t).done.length]? = some e
  | .write _ _ .incLoad => (thread t R.trace)[(s.base.thr t).done.length - 1]? = some e
  | .write _ _ (.incStore _) => (thread t R.trace)[(s.base.thr t).done.length - 1]? = some e
  | _ => False

/-- The writes of one thread: in its hands, in its buffer, in memory. -/
structure ThrMem (R : Run L nthr prog m₀) (s : State Addr) (t : Nat) : Prop where
  place : ∀ e, InWrite R s t e → s.base.mem.objVersion (L.obj e) = e.version
  reg : ∀ a x v, (s.base.thr t).pc = .write a x (.incStore v) →
    v = s.base.mem.objVersion (L.calcObjid a)
  drained : ∀ a x, (s.base.thr t).pc = .write a x .store → s.base.buf t = []
  noVer : ∀ a x, ((s.base.thr t).pc = .write a x .incLoad ∨
    ∃ v, (s.base.thr t).pc = .write a x (.incStore v)) → ∀ o, ¬ HasVer s.base t o
  order : (s.base.buf t).Pairwise (InOrder L)
  val : ∀ a x, Store.val a x ∈ s.base.buf t → ∃ e, Issued R s t e ∧ e.addr = a ∧ e.val = x ∧
    s.base.mem.objVersion (L.obj e) = e.version
  ver : ∀ o v, Store.objVersion o v ∈ s.base.buf t → v = s.base.mem.objVersion o + 2 ∧
    ∃ e, Issued R s t e ∧ L.obj e = o ∧ s.base.mem.objVersion o = e.version
  /-- The version store of a write that has been made is to come, in the buffer, or in memory. -/
  ended : ∀ e, Issued R s t e → InWrite R s t e ∨
    (HasVer s.base t (L.obj e) ∧ s.base.mem.objVersion (L.obj e) = e.version) ∨
    e.version < s.base.mem.objVersion (L.obj e)
  new : ∀ e, Issued R s t e → s.base.mem.objVersion (L.obj e) = e.version →
    s.base.mem.val e.addr = e.val ∨ Store.val e.addr e.val ∈ s.base.buf t

/-- **The writes of an object come one at a time, each at its recorded version.** -/
structure MemSound (R : Run L nthr prog m₀) (s : State Addr) : Prop where
  nonneg : ∀ o, 0 ≤ s.base.mem.objVersion o
  even : ∀ o, s.base.mem.objVersion o % 2 = 0
  thr : ∀ t, ThrMem R s t
  old : ∀ a, (∀ t e, Issued R s t e → e.addr = a → s.base.mem.objVersion (L.obj e) ≠ e.version) →
    s.base.mem.val a = valAt m₀ R.trace a (s.base.mem.objVersion (L.calcObjid a))

/-- What is known of every thread. -/
structure ThrOk (R : Run L nthr prog m₀) (s : State Addr) (t : Nat) : Prop where
  sound : ThrSound R s t
  calls : CallInv L (debugAccessLog L R.trace) s t

/-- A writer past its check is not in a call: the check has returned. -/
theorem InWrite.call (hok : ThrOk R s t) (h : InWrite R s t e) : s.call t = none := by
  unfold InWrite at h
  split at h
  · exact h.1
  · rename_i a x hpc
    rcases hok.calls.call with hc | hc
    · exact hc
    · rw [hc, callAt, hpc]
  · rename_i a x v hpc
    rcases hok.calls.call with hc | hc
    · exact hc
    · rw [hc, callAt, hpc]
  · exact h.elim

/-- A thread is in one recorded access. -/
theorem InWrite.unique {e' : Event Addr} (h : InWrite R s t e) (h' : InWrite R s t e') : e = e' := by
  unfold InWrite at h h'
  split at h
  · rename_i a x hpc
    rw [hpc] at h'
    exact Option.some.inj (h.2.symm.trans h'.2)
  · rename_i a x hpc
    rw [hpc] at h'
    exact Option.some.inj (h.symm.trans h')
  · rename_i a x v hpc
    rw [hpc] at h'
    exact Option.some.inj (h.symm.trans h')
  · exact h.elim

/-- **The recorded access of a writer past its check is its write**, and it has been made from the
store on. -/
theorem writer_recorded (hok : ThrOk R s t) (hk : s.call t = none) {a : Addr} {x : Val}
    {w : ReplayTso.WPc} (hpc : (s.base.thr t).pc = .write a x w)
    (hw : w = .store ∨ w = .incLoad ∨ ∃ v, w = .incStore v) :
    ∃ e, InWrite R s t e ∧ e.acc = .write a x ∧ e ∈ R.trace ∧ e.tid = t ∧
      (w = .store ∧ e.memop = (s.base.thr t).done.length ∨
        (w = .incLoad ∨ ∃ v, w = .incStore v) ∧ e.memop + 1 = (s.base.thr t).done.length) := by
  have ht : t < nthr := by
    by_contra hge
    rw [hok.sound.out (by omega)] at hpc
    cases hpc
  have hsettled := hok.sound.settled
  rw [State.settled, hk] at hsettled
  simp only at hsettled
  have hat := hok.calls.atWrite
  -- a write that has been made is the last access of the thread
  have hlast : ∀ d, (s.base.thr t).done = d ++ [⟨.write a x, none⟩] →
      ∃ e, (thread t R.trace)[(s.base.thr t).done.length - 1]? = some e ∧ e.acc = .write a x ∧
        e ∈ R.trace ∧ e.tid = t ∧ e.memop + 1 = (s.base.thr t).done.length := by
    intro d hd
    rw [hd] at hsettled ⊢
    obtain ⟨e, he, hacc⟩ := recorded_acc ((List.prefix_append d _).trans hsettled) ht
      (hok.sound.follows d _ hd)
    obtain ⟨hmem, htid, hm⟩ := R.legal.memop_of_getElem? he
    exact ⟨e, by simpa using he, hacc, hmem, htid, by simp [hm]⟩
  unfold InWrite AtWrite at *
  rw [hpc] at hat ⊢
  rcases hw with rfl | rfl | ⟨v, rfl⟩
  · obtain ⟨e, he, hacc⟩ := recorded_acc hsettled ht
      (hok.sound.current (.write a x) (by rw [hpc]; rfl))
    obtain ⟨hmem, htid, hm⟩ := R.legal.memop_of_getElem? he
    exact ⟨e, ⟨hk, he⟩, hacc, hmem, htid, Or.inl ⟨rfl, hm⟩⟩
  · obtain ⟨d, hd⟩ := hat
    obtain ⟨e, he, hacc, hmem, htid, hm⟩ := hlast d hd
    exact ⟨e, he, hacc, hmem, htid, Or.inr ⟨Or.inl rfl, hm⟩⟩
  · obtain ⟨d, hd⟩ := hat
    obtain ⟨e, he, hacc, hmem, htid, hm⟩ := hlast d hd
    exact ⟨e, he, hacc, hmem, htid, Or.inr ⟨Or.inr ⟨v, rfl⟩, hm⟩⟩

/-- What `InWrite` says of the thread's place: the write is the recorded access at its number, which
is the number of accesses made, or one less from the store on. -/
theorem InWrite.spec (hok : ThrOk R s t) (h : InWrite R s t e) :
    ∃ a x w, (s.base.thr t).pc = .write a x w ∧ e.acc = .write a x ∧ e ∈ R.trace ∧ e.tid = t ∧
      (w = .store ∧ e.memop = (s.base.thr t).done.length ∨
        (w = .incLoad ∨ ∃ v, w = .incStore v) ∧ e.memop + 1 = (s.base.thr t).done.length) := by
  obtain ⟨a, x, w, hpc, hw⟩ : ∃ a x w, (s.base.thr t).pc = .write a x w ∧
      (w = .store ∨ w = .incLoad ∨ ∃ v, w = .incStore v) := by
    have h' := h
    unfold InWrite at h'
    split at h'
    · rename_i a x hpc
      exact ⟨a, x, _, hpc, Or.inl rfl⟩
    · rename_i a x hpc
      exact ⟨a, x, _, hpc, Or.inr (Or.inl rfl)⟩
    · rename_i a x v hpc
      exact ⟨a, x, _, hpc, Or.inr (Or.inr ⟨v, rfl⟩)⟩
    · exact h'.elim
  obtain ⟨e', he', hrec⟩ := writer_recorded hok (h.call hok) hpc hw
  obtain rfl := h.unique he'
  exact ⟨a, x, w, hpc, hrec⟩

/-! ## 2. Steps that neither issue a write nor touch a value or a version

Most steps have to do with no write.  `MemSound.step_rule` leaves the thread that steps to itself,
and `ThrMem.quiet` and `ThrMem.plain` are what it has to show there. -/

/-- A write counts as made by what its thread has made. -/
theorem Issued.congr (hthr : s'.base.thr t = s.base.thr t) : Issued R s' t e ↔ Issued R s t e :=
  ⟨fun h => ⟨h.mem, h.tid, h.op, hthr ▸ h.lt⟩, fun h => ⟨h.mem, h.tid, h.op, hthr ▸ h.lt⟩⟩

/-- Whether a thread is in a write depends on its own place and call. -/
theorem InWrite.congr (hthr : s'.base.thr t = s.base.thr t) (hcall : s'.call t = s.call t) :
    InWrite R s' t e ↔ InWrite R s t e := by
  rw [InWrite, InWrite, hthr, hcall]

/-- A thread that another thread's step leaves alone, and sees the same of memory. -/
theorem ThrMem.congr (h : ThrMem R s t) (hmem : s'.base.mem.val = s.base.mem.val)
    (hver : s'.base.mem.objVersion = s.base.mem.objVersion)
    (hthr : s'.base.thr t = s.base.thr t) (hcall : s'.call t = s.call t)
    (hbuf : s'.base.buf t = s.base.buf t) : ThrMem R s' t := by
  have hhas : ∀ o, HasVer s'.base t o ↔ HasVer s.base t o := by
    intro o
    rw [HasVer, HasVer, hbuf]
  refine ⟨?_, ?_, ?_, ?_, by rw [hbuf]; exact h.order, ?_, ?_, ?_, ?_⟩
  · intro e he
    rw [hver]
    exact h.place e ((InWrite.congr hthr hcall).mp he)
  · rw [hthr, hver]
    exact h.reg
  · rw [hthr, hbuf]
    exact h.drained
  · intro a x hpc o
    rw [hthr] at hpc
    rw [hhas]
    exact h.noVer a x hpc o
  · intro a x hx
    rw [hbuf] at hx
    obtain ⟨e, he, h1⟩ := h.val a x hx
    exact ⟨e, (Issued.congr hthr).mpr he, by rw [hver]; exact h1⟩
  · intro o v hv
    rw [hbuf] at hv
    obtain ⟨h1, e, he, h2⟩ := h.ver o v hv
    rw [hver]
    exact ⟨h1, e, (Issued.congr hthr).mpr he, h2⟩
  · intro e he
    rw [hver, hhas]
    exact (h.ended e ((Issued.congr hthr).mp he)).imp_left (InWrite.congr hthr hcall).mpr
  · intro e he hv
    rw [hver] at hv
    rw [hmem, hbuf]
    exact h.new e ((Issued.congr hthr).mp he) hv

/-- What thread `t` does is a matter of its own as long as values and versions in memory stay. -/
theorem MemSound.step_rule (h : MemSound R s) (hmem : s'.base.mem.val = s.base.mem.val)
    (hver : s'.base.mem.objVersion = s.base.mem.objVersion)
    (hothers : ∀ u, u ≠ t → s'.base.thr u = s.base.thr u ∧ s'.call u = s.call u ∧
      s'.base.buf u = s.base.buf u)
    (hissued : ∀ e, Issued R s t e → Issued R s' t e) (ht : ThrMem R s' t) : MemSound R s' := by
  refine ⟨by rw [hver]; exact h.nonneg, by rw [hver]; exact h.even, ?_, ?_⟩
  · intro u
    rcases eq_or_ne u t with rfl | hu
    · exact ht
    · obtain ⟨h1, h2, h3⟩ := hothers u hu
      exact (h.thr u).congr hmem hver h1 h2 h3
  · intro a ha
    rw [hmem, hver]
    refine h.old a (fun u e he hea => ?_)
    rw [← hver]
    refine ha u e ?_ hea
    rcases eq_or_ne u t with rfl | hu
    · exact hissued e he
    · exact (Issued.congr (hothers u hu).1).mpr he

/-- Thread `t` issues no write and no store of a value or a version. -/
theorem ThrMem.quiet (h : ThrMem R s t) (hmem : s'.base.mem.val = s.base.mem.val)
    (hver : s'.base.mem.objVersion = s.base.mem.objVersion)
    (hbuf : ∀ st, ¬ Other st → (st ∈ s'.base.buf t ↔ st ∈ s.base.buf t))
    (horder : (s'.base.buf t).Pairwise (InOrder L))
    (hissued : ∀ e, Issued R s' t e ↔ Issued R s t e)
    (hin : ∀ e, InWrite R s t e → InWrite R s' t e)
    (hplace : ∀ e, InWrite R s' t e → s.base.mem.objVersion (L.obj e) = e.version)
    (hreg : ∀ a x v, (s'.base.thr t).pc = .write a x (.incStore v) →
      v = s.base.mem.objVersion (L.calcObjid a))
    (hdrained : ∀ a x, (s'.base.thr t).pc = .write a x .store → s'.base.buf t = [])
    (hno : ∀ a x, ((s'.base.thr t).pc = .write a x .incLoad ∨
      ∃ v, (s'.base.thr t).pc = .write a x (.incStore v)) → ∀ o, ¬ HasVer s.base t o) :
    ThrMem R s' t := by
  -- the buffer has the same values and versions
  have hvals : ∀ a x, Store.val a x ∈ s'.base.buf t ↔ Store.val a x ∈ s.base.buf t :=
    fun a x => hbuf _ (fun ho => ho.elim)
  have hvers : ∀ o v, Store.objVersion o v ∈ s'.base.buf t ↔ Store.objVersion o v ∈ s.base.buf t :=
    fun o v => hbuf _ (fun ho => ho.elim)
  have hhas : ∀ o, HasVer s'.base t o ↔ HasVer s.base t o :=
    fun o => exists_congr (fun v => hvers o v)
  refine ⟨by rw [hver]; exact hplace, by rw [hver]; exact hreg, hdrained, ?_, horder, ?_, ?_, ?_, ?_⟩
  · intro a x hpc o
    rw [hhas]
    exact hno a x hpc o
  · intro a x hx
    obtain ⟨e, he, h1⟩ := h.val a x ((hvals a x).mp hx)
    exact ⟨e, (hissued e).mpr he, by rw [hver]; exact h1⟩
  · intro o v hv
    obtain ⟨h1, e, he, h2⟩ := h.ver o v ((hvers o v).mp hv)
    rw [hver]
    exact ⟨h1, e, (hissued e).mpr he, h2⟩
  · intro e he
    rw [hver, hhas]
    exact (h.ended e ((hissued e).mp he)).imp_left (hin e)
  · intro e he hv
    rw [hver] at hv
    rw [hmem, hvals]
    exact h.new e ((hissued e).mp he) hv

/-- At a plain place no write is under way. -/
theorem inWrite_of_plain (hpc : Plain (s.base.thr t).pc) : ¬ InWrite R s t e := by
  intro h
  unfold InWrite at h
  split at h
  · rename_i heq
    rw [heq] at hpc
    exact hpc
  · rename_i heq
    rw [heq] at hpc
    exact hpc
  · rename_i heq
    rw [heq] at hpc
    exact hpc
  · exact h

/-- From a place where nothing of a write is under way to another. -/
theorem ThrMem.plain (h : ThrMem R s t) (hmem : s'.base.mem.val = s.base.mem.val)
    (hver : s'.base.mem.objVersion = s.base.mem.objVersion)
    (hbuf : ∀ st, ¬ Other st → (st ∈ s'.base.buf t ↔ st ∈ s.base.buf t))
    (horder : (s'.base.buf t).Pairwise (InOrder L))
    (hissued : ∀ e, Issued R s' t e ↔ Issued R s t e) (hold : Plain (s.base.thr t).pc)
    (hnew : Plain (s'.base.thr t).pc) : ThrMem R s' t := by
  refine h.quiet hmem hver hbuf horder hissued (fun e he => absurd he (inWrite_of_plain hold))
    (fun e he => absurd he (inWrite_of_plain hnew)) ?_ ?_ ?_
  · intro a x v hpc
    rw [hpc] at hnew
    exact hnew.elim
  · intro a x hpc
    rw [hpc] at hnew
    exact hnew.elim
  · rintro a x (hpc | ⟨v, hpc⟩) <;>
    · rw [hpc] at hnew
      exact hnew.elim

/-! ## 3. Checks and instructions

The instructions as `instr_does` of `Results.lean` sorts them.  Only the store and the version store
of a write do anything to `ThrMem`; the check is where the version of the write comes from. -/

/-- A call that is under way is the one of the thread's place. -/
theorem callAt_of_call (hok : CallInv L (debugAccessLog L R.trace) s t) {k : Call}
    (hk : s.call t = some k) : callAt L (s.base.thr t) = some k := by
  rcases hok.call with hc | hc
  · rw [hk] at hc
    cases hc
  · rw [← hc, hk]

/-- **A write that has been checked is at its version.**  The check compares the recorded version
with what the thread sees; its buffer is empty (`ThrMem.drained`), so that is what memory has. -/
theorem MemSound.check (h : MemSound R s) (hok : ThrOk R s t) {k : Call} {rest : List MemAcc}
    (hk : s.call t = some k)
    (hlog : s.log t = ⟨k.acc, k.objid, k.val, (s.base.view t).objVersion k.objid⟩ :: rest) :
    MemSound R { s with
      call := Function.update s.call t none
      log := Function.update s.log t rest } := by
  have hcall := callAt_of_call hok.calls hk
  refine h.step_rule (t := t) rfl rfl (fun u hu => ⟨rfl, Function.update_of_ne hu _ _, rfl⟩)
    (fun e he => ⟨he.mem, he.tid, he.op, he.lt⟩) ?_
  refine (h.thr t).quiet rfl rfl (fun st _ => Iff.rfl) (h.thr t).order (fun e => Issued.congr rfl)
    ?_ ?_ (h.thr t).reg (h.thr t).drained (h.thr t).noVer
  -- before the check the thread was in no write
  · intro e he
    have := he.call hok
    rw [hk] at this
    cases this
  · intro e he
    unfold InWrite at he
    simp only at he
    split at he
    · rename_i a x hpc
      -- the log entry that was compared is that of the access the thread is at
      obtain ⟨e', he', hent⟩ := entry_recorded hok.calls hk hlog
      have hidx : s.checks t - 1 = (s.base.thr t).done.length := by simp [State.checks, ahead, hpc]
      rw [hidx, he.2, Option.some.injEq] at he'
      subst he'
      have hobj : L.obj e = k.objid := congrArg MemAcc.objid hent
      have hver : e.version = (s.base.view t).objVersion k.objid := congrArg MemAcc.version hent
      rw [hver, hobj, ReplayTso.State.view, (h.thr t).drained a x hpc]
      rfl
    · rename_i a x hpc
      rw [callAt, hpc] at hcall
      cases hcall
    · rename_i a x v hpc
      rw [callAt, hpc] at hcall
      cases hcall
    · exact he.elim

omit [DecidableEq Addr] in
/-- Stores of other kinds are in order with everything. -/
theorem inOrder_other {st st' : Store Addr} (h : Other st') : InOrder L st st' := by
  cases st' with
  | val a x => exact h.elim
  | objVersion o v => exact h.elim
  | _ => cases st <;> trivial

omit [DecidableEq Addr] in
/-- A store at the end of a buffer is in order if it is with each store ahead of it. -/
theorem order_push {buf : List (Store Addr)} {st : Store Addr} (h : buf.Pairwise (InOrder L))
    (hst : ∀ st' ∈ buf, InOrder L st' st) : (buf ++ [st]).Pairwise (InOrder L) := by
  refine List.pairwise_append.mpr ⟨h, List.pairwise_singleton _ _, ?_⟩
  intro st' hst' st'' hst''
  rw [List.mem_singleton] at hst''
  subst hst''
  exact hst st' hst'

/-- Stores of other kinds change no value and no version. -/
theorem store_other {m : Mem Addr} {st : Store Addr} (h : Other st) :
    (m.store st).val = m.val ∧ (m.store st).objVersion = m.objVersion := by
  cases st with
  | val a x => exact h.elim
  | objVersion o v => exact h.elim
  | _ => exact ⟨rfl, rfl⟩

/-- The state after an instruction of thread `t`. -/
def State.after (L : Layout Addr) (s : State Addr) (t : Nat) (b : ReplayTso.State Addr) :
    State Addr :=
  { s with base := b, call := Function.update s.call t (callAt L (b.thr t)) }

omit [DecidableEq Addr] in
/-- An instruction leaves the other threads alone. -/
theorem after_others (hothers : ∀ u, u ≠ t → b.thr u = s.base.thr u ∧ b.buf u = s.base.buf u) :
    ∀ u, u ≠ t → (s.after L t b).base.thr u = s.base.thr u ∧ (s.after L t b).call u = s.call u ∧
      (s.after L t b).base.buf u = s.base.buf u :=
  fun u hu => ⟨(hothers u hu).1, Function.update_of_ne hu _ _, (hothers u hu).2⟩

/-- A step that makes no access makes no write. -/
theorem issued_of_done (hd : (b.thr t).done = (s.base.thr t).done) :
    Issued R (s.after L t b) t e ↔ Issued R s t e :=
  ⟨fun hi => ⟨hi.mem, hi.tid, hi.op, hd ▸ hi.lt⟩, fun hi => ⟨hi.mem, hi.tid, hi.op, hd ▸ hi.lt⟩⟩

section Instr

variable (h : MemSound R s)

include h

/-- An instruction that has to do with no write. -/
theorem MemSound.quiet {m : Mem Addr} {buf : List (Store Addr)}
    (hm : m.val = s.base.mem.val ∧ m.objVersion = s.base.mem.objVersion)
    (hbuf : ∀ st, ¬ Other st → (st ∈ buf ↔ st ∈ s.base.buf t)) (horder : buf.Pairwise (InOrder L))
    (hq : Quiet prog t (s.base.thr t) th') :
    MemSound R (s.after L t
      ⟨m, Function.update s.base.buf t buf, Function.update s.base.thr t th'⟩) := by
  have hdone : (Function.update s.base.thr t th' t).done = (s.base.thr t).done := by
    rw [Function.update_self, hq.done]
  refine h.step_rule (t := t) hm.1 hm.2
    (after_others (fun u hu => ⟨Function.update_of_ne hu _ _, Function.update_of_ne hu _ _⟩))
    (fun e he => (issued_of_done hdone).mpr he) ?_
  refine (h.thr t).plain hm.1 hm.2 ?_ ?_ (fun e => issued_of_done hdone) hq.old ?_
  · simpa [State.after] using hbuf
  · simpa [State.after] using horder
  · simpa [State.after] using hq.new

/-- `val = *addr`: what the thread makes is a read, so the writes that have been made are as before.
-/
theorem MemSound.read (hok : ThrOk R s t) (ht : t < nthr) (hk : s.call t = none) {a : Addr} {v : Val}
    (hpc : (s.base.thr t).pc = .load a) :
    MemSound R (s.after L t (s.base.moved t { s.base.thr t with
      pc := .incMemopLoad
      done := (s.base.thr t).done ++ [⟨.read a, some v⟩] })) := by
  have hsettled := hok.sound.settled
  rw [State.settled, hk] at hsettled
  obtain ⟨e', he', hacc⟩ := recorded_acc hsettled ht (hok.sound.current (.read a) (by rw [hpc]; rfl))
  -- one access more has been made, and it is not a write
  have hissued : ∀ e, Issued R (s.after L t (s.base.moved t { s.base.thr t with
      pc := .incMemopLoad
      done := (s.base.thr t).done ++ [⟨.read a, some v⟩] })) t e ↔ Issued R s t e := by
    intro e
    constructor
    · rintro ⟨hmem, htid, hop, hlt⟩
      refine ⟨hmem, htid, hop, ?_⟩
      simp only [State.after, ReplayTso.State.moved, Function.update_self, List.length_append,
        List.length_singleton] at hlt
      rcases Nat.lt_succ_iff_lt_or_eq.mp hlt with hlt | heq
      · exact hlt
      · have he := R.legal.thread_getElem? hmem
        rw [htid, heq] at he
        simp only at he'
        rw [he, Option.some.injEq] at he'
        rw [he', (Replay.acc_eq_read hacc).1] at hop
        cases hop
    · rintro ⟨hmem, htid, hop, hlt⟩
      refine ⟨hmem, htid, hop, ?_⟩
      simp only [State.after, ReplayTso.State.moved, Function.update_self, List.length_append,
        List.length_singleton]
      omega
  refine h.step_rule (t := t) rfl rfl
    (after_others (fun u hu => ⟨Function.update_of_ne hu _ _, rfl⟩))
    (fun e he => (hissued e).mpr he) ?_
  refine (h.thr t).plain rfl rfl (fun st _ => Iff.rfl) (h.thr t).order hissued ?_ ?_
  · rw [hpc]
    trivial
  · simp [State.after, ReplayTso.State.moved, Plain]

/-- Out of `wait_reader`: the write is checked next.  The unlock of the mutex was a locked
instruction, so the buffer is empty at the store. -/
theorem MemSound.ready {a : Addr} {x : Val} {st : Store Addr} (hst : Other st)
    (hb : s.base.buf t = []) (hpc : (s.base.thr t).pc = .write a x (.unlock none)) :
    MemSound R (s.after L t (s.base.exchanged t st { s.base.thr t with pc := .write a x .store })) := by
  have hdone : ((s.base.exchanged t st { s.base.thr t with pc := .write a x .store }).thr t).done =
      (s.base.thr t).done := by simp [ReplayTso.State.exchanged]
  have hplain : Plain (s.base.thr t).pc := by
    rw [hpc]
    trivial
  refine h.step_rule (t := t) (store_other hst).1 (store_other hst).2
    (after_others (fun u hu => ⟨Function.update_of_ne hu _ _, rfl⟩))
    (fun e he => (issued_of_done hdone).mpr he) ?_
  refine (h.thr t).quiet (store_other hst).1 (store_other hst).2 (fun st _ => Iff.rfl)
    (h.thr t).order (fun e => issued_of_done hdone)
    (fun e he => absurd he (inWrite_of_plain hplain)) ?_ ?_ (fun _ _ _ => hb) ?_
  · intro e he
    simp [InWrite, State.after, ReplayTso.State.exchanged, callAt] at he
  · intro b y v hpc'
    simp [State.after, ReplayTso.State.exchanged] at hpc'
  · rintro b y (hpc' | ⟨v, hpc'⟩) <;> simp [State.after, ReplayTso.State.exchanged] at hpc'

/-- The load of `obj_version[objid] += 2`: no version store of the thread is under way, so it loads
what memory has. -/
theorem MemSound.incLoad {a : Addr} {x : Val} (hpc : (s.base.thr t).pc = .write a x .incLoad) :
    MemSound R (s.after L t (s.base.moved t { s.base.thr t with
      pc := .write a x (.incStore ((s.base.view t).objVersion (L.calcObjid a))) })) := by
  have hno := (h.thr t).noVer a x (Or.inl hpc)
  have hview : (s.base.view t).objVersion (L.calcObjid a) = s.base.mem.objVersion (L.calcObjid a) := by
    rcases ReplayTso.view_objVersion_cases s.base t (L.calcObjid a) with ⟨hv, -⟩ | hmem
    · exact hv
    · exact absurd ⟨_, hmem⟩ (hno _)
  rw [hview]
  have hdone : ((s.base.moved t { s.base.thr t with
      pc := .write a x (.incStore (s.base.mem.objVersion (L.calcObjid a))) }).thr t).done =
      (s.base.thr t).done := by simp [ReplayTso.State.moved]
  have hin : ∀ e, InWrite R (s.after L t (s.base.moved t { s.base.thr t with
      pc := .write a x (.incStore (s.base.mem.objVersion (L.calcObjid a))) })) t e ↔
      InWrite R s t e := by
    intro e
    simp [InWrite, State.after, ReplayTso.State.moved, hpc]
  refine h.step_rule (t := t) rfl rfl
    (after_others (fun u hu => ⟨Function.update_of_ne hu _ _, rfl⟩))
    (fun e he => (issued_of_done hdone).mpr he) ?_
  refine (h.thr t).quiet rfl rfl (fun st _ => Iff.rfl) (h.thr t).order
    (fun e => issued_of_done hdone) (fun e he => (hin e).mpr he)
    (fun e he => (h.thr t).place e ((hin e).mp he)) ?_ ?_ (fun _ _ _ => hno)
  · intro b y v hpc'
    simp only [State.after, ReplayTso.State.moved, Function.update_self, ReplayTso.Pc.write.injEq,
      ReplayTso.WPc.incStore.injEq] at hpc'
    obtain ⟨rfl, -, rfl⟩ := hpc'
    rfl
  · intro b y hpc'
    simp [State.after, ReplayTso.State.moved] at hpc'

/-- **A write is issued**, at its version and with an empty buffer.  Its version store is still to
come, and its value is in the buffer: the two new cases of `ended` and `new`. -/
theorem MemSound.store (hok : ThrOk R s t) (hk : s.call t = none) {a : Addr} {x : Val}
    (hpc : (s.base.thr t).pc = .write a x .store) :
    MemSound R (s.after L t (s.base.pushed t (.val a x) { s.base.thr t with
      pc := .write a x .incLoad
      done := (s.base.thr t).done ++ [⟨.write a x, none⟩] })) := by
  obtain ⟨e₀, hin₀, hacc, hmem₀, htid₀, hat⟩ := writer_recorded hok hk hpc (Or.inl rfl)
  have hm₀ : e₀.memop = (s.base.thr t).done.length := by simpa using hat
  obtain ⟨hop₀, ha₀, hx₀⟩ := Replay.acc_eq_write hacc
  have hver₀ := (h.thr t).place e₀ hin₀
  have hb : s.base.buf t = [] := (h.thr t).drained a x hpc
  generalize hs' : s.after L t (s.base.pushed t (.val a x) { s.base.thr t with
      pc := .write a x .incLoad
      done := (s.base.thr t).done ++ [⟨.write a x, none⟩] }) = s'
  have hmem : s'.base.mem = s.base.mem := by rw [← hs']; rfl
  have hbuf : s'.base.buf t = [.val a x] := by
    rw [← hs']
    simp [State.after, ReplayTso.State.pushed, hb]
  have hthr : (s'.base.thr t).pc = .write a x .incLoad := by
    rw [← hs']
    simp [State.after, ReplayTso.State.pushed]
  have hlen : (s'.base.thr t).done.length = (s.base.thr t).done.length + 1 := by
    rw [← hs']
    simp [State.after, ReplayTso.State.pushed]
  -- the thread is still in its write, which has been made now
  have hin : InWrite R s' t e₀ := by
    rw [InWrite, hthr]
    simp only
    rw [hlen, Nat.add_sub_cancel, ← hm₀, ← htid₀]
    exact R.legal.thread_getElem? hmem₀
  have hnover : ∀ o, ¬ HasVer s'.base t o := by
    rintro o ⟨v, hv⟩
    rw [hbuf, List.mem_singleton] at hv
    cases hv
  -- a write that has been made is this one or an earlier one
  have hcases : ∀ e, Issued R s' t e → e = e₀ ∨ Issued R s t e := by
    rintro e ⟨he, htid, hop, hlt⟩
    rw [hlen] at hlt
    rcases Nat.lt_succ_iff_lt_or_eq.mp hlt with hlt | heq
    · exact Or.inr ⟨he, htid, hop, hlt⟩
    · left
      have h1 := R.legal.thread_getElem? he
      have h2 := R.legal.thread_getElem? hmem₀
      rw [htid, heq, ← hm₀, ← htid₀, h2] at h1
      exact (Option.some.inj h1).symm
  have hissued : ∀ e, Issued R s t e → Issued R s' t e :=
    fun e he => ⟨he.mem, he.tid, he.op, by rw [hlen]; exact Nat.lt_succ_of_lt he.lt⟩
  refine h.step_rule (t := t) (by rw [hmem]) (by rw [hmem]) ?_ hissued ?_
  · rw [← hs']
    exact after_others (fun u hu => ⟨Function.update_of_ne hu _ _, Function.update_of_ne hu _ _⟩)
  -- what the thread has to show: its one buffered store is the value of `e₀`
  refine ⟨?_, ?_, ?_, fun _ _ _ => hnover, ?_, ?_, ?_, ?_, ?_⟩
  · intro e he
    rw [hmem, he.unique hin]
    exact hver₀
  · intro b y v hpc'
    rw [hthr] at hpc'
    cases hpc'
  · intro b y hpc'
    rw [hthr] at hpc'
    cases hpc'
  · rw [hbuf]
    exact List.pairwise_singleton _ _
  · intro b y hy
    rw [hbuf, List.mem_singleton] at hy
    cases hy
    rw [hmem]
    exact ⟨e₀, ⟨hmem₀, htid₀, hop₀, by rw [hlen]; omega⟩, ha₀, hx₀, hver₀⟩
  · intro o v hv
    exact absurd ⟨v, hv⟩ (hnover o)
  · intro e he
    rw [hmem]
    rcases hcases e he with rfl | he
    · exact Or.inl hin
    · rcases (h.thr t).ended e he with hi | ⟨⟨v, hv⟩, -⟩ | hlt
      · rw [hi.unique hin₀]
        exact Or.inl hin
      · rw [hb] at hv
        cases hv
      · exact Or.inr (Or.inr hlt)
  · intro e he hv
    rw [hmem] at hv ⊢
    rcases hcases e he with rfl | he
    · rw [hbuf, ha₀, hx₀]
      exact Or.inr (List.mem_singleton_self _)
    · rcases (h.thr t).new e he hv with hv | hv
      · exact Or.inl hv
      · rw [hb] at hv
        cases hv

/-- **The version store of a write** goes behind its value.  The thread leaves the write, and
`ended` goes from the place to the buffer. -/
theorem MemSound.incStore (hok : ThrOk R s t) (hk : s.call t = none) {a : Addr} {x : Val} {v : Int}
    (hpc : (s.base.thr t).pc = .write a x (.incStore v)) :
    MemSound R (s.after L t (s.base.pushed t (.objVersion (L.calcObjid a) (v + 2))
      { s.base.thr t with pc := .incMemopLoad })) := by
  obtain ⟨e₀, hin₀, hacc, hmem₀, htid₀, hat⟩ :=
    writer_recorded hok hk hpc (Or.inr (Or.inr ⟨v, rfl⟩))
  have hm₀ : e₀.memop + 1 = (s.base.thr t).done.length := by simpa using hat
  obtain ⟨hop₀, ha₀, -⟩ := Replay.acc_eq_write hacc
  have ho₀ : L.obj e₀ = L.calcObjid a := by rw [Layout.obj, ha₀]
  have hver₀ := (h.thr t).place e₀ hin₀
  -- the loaded version is memory's, and there is no version store before this one
  have hno := (h.thr t).noVer a x (Or.inr ⟨v, hpc⟩)
  have hreg := (h.thr t).reg a x v hpc
  generalize hs' : s.after L t (s.base.pushed t (.objVersion (L.calcObjid a) (v + 2))
      { s.base.thr t with pc := .incMemopLoad }) = s'
  have hmem : s'.base.mem = s.base.mem := by rw [← hs']; rfl
  have hbuf : s'.base.buf t = s.base.buf t ++ [.objVersion (L.calcObjid a) (v + 2)] := by
    rw [← hs']
    simp [State.after, ReplayTso.State.pushed]
  have hthr : (s'.base.thr t).pc = .incMemopLoad := by
    rw [← hs']
    simp [State.after, ReplayTso.State.pushed]
  have hissued : ∀ e, Issued R s' t e ↔ Issued R s t e := by
    intro e
    rw [← hs']
    exact issued_of_done (by simp [ReplayTso.State.pushed])
  refine h.step_rule (t := t) (by rw [hmem]) (by rw [hmem]) ?_ (fun e => (hissued e).mpr) ?_
  · rw [← hs']
    exact after_others (fun u hu => ⟨Function.update_of_ne hu _ _, Function.update_of_ne hu _ _⟩)
  refine ⟨?_, ?_, ?_, ?_, ?_, ?_, ?_, ?_, ?_⟩
  · intro e he
    exact absurd he (inWrite_of_plain (by rw [hthr]; trivial))
  · intro b y w hpc'
    rw [hthr] at hpc'
    cases hpc'
  · intro b y hpc'
    rw [hthr] at hpc'
    cases hpc'
  · rintro b y (hpc' | ⟨w, hpc'⟩) <;>
    · rw [hthr] at hpc'
      cases hpc'
  · rw [hbuf]
    refine order_push (h.thr t).order ?_
    intro st hst
    cases st with
    | objVersion o w => exact absurd ⟨w, hst⟩ (hno o)
    | _ => trivial
  · intro b y hy
    rw [hbuf, List.mem_append, List.mem_singleton] at hy
    rcases hy with hy | hy
    · obtain ⟨e, he, h1⟩ := (h.thr t).val b y hy
      rw [hmem]
      exact ⟨e, (hissued e).mpr he, h1⟩
    · cases hy
  -- a version store in the buffer is the new one, two above memory
  · intro o w hw
    rw [hbuf, List.mem_append, List.mem_singleton] at hw
    rcases hw with hw | hw
    · exact absurd ⟨w, hw⟩ (hno o)
    · cases hw
      rw [hmem, hreg]
      rw [ho₀] at hver₀
      exact ⟨rfl, e₀, (hissued e₀).mpr ⟨hmem₀, htid₀, hop₀, by omega⟩, ho₀, hver₀⟩
  · intro e he
    rw [hmem]
    -- the write the thread was in has its version store in the buffer now
    rcases (h.thr t).ended e ((hissued e).mp he) with hi | ⟨hv, -⟩ | hlt
    · right
      left
      rw [hi.unique hin₀]
      refine ⟨⟨v + 2, ?_⟩, hver₀⟩
      rw [hbuf, ho₀]
      exact List.mem_append_right _ (List.mem_singleton_self _)
    · exact absurd hv (hno _)
    · exact Or.inr (Or.inr hlt)
  · intro e he hv
    rw [hmem] at hv ⊢
    rcases (h.thr t).new e ((hissued e).mp he) hv with hv | hv
    · exact Or.inl hv
    · rw [hbuf]
      exact Or.inr (List.mem_append_left _ hv)

end Instr

/-! ## 4. Drains

A drain of another kind of store is quiet.  A value that drains belongs to the only write at the
version of its object; a version that drains ends it. -/

section Drain

variable {st : Store Addr} {rest : List (Store Addr)}

/-- The state after the oldest store of thread `t` has reached memory. -/
def State.drained (s : State Addr) (t : Nat) (st : Store Addr) (rest : List (Store Addr)) :
    State Addr :=
  { s with base := s.base.drained t st rest }

/-- A drain leaves the other buffers alone. -/
theorem drained_buf_ne (hu : u ≠ t) : (s.drained t st rest).base.buf u = s.base.buf u :=
  Function.update_of_ne hu _ _

/-- And its own buffer with the rest. -/
theorem drained_buf_self : (s.drained t st rest).base.buf t = rest := Function.update_self ..

/-- What is in a buffer after the drain was there before. -/
theorem mem_of_drained (hb : s.base.buf t = st :: rest) {x : Store Addr}
    (hx : x ∈ (s.drained t st rest).base.buf u) : x ∈ s.base.buf u ∧ (u = t → x ∈ rest) := by
  rcases eq_or_ne u t with rfl | hu
  · rw [drained_buf_self] at hx
    rw [hb]
    exact ⟨List.mem_cons_of_mem _ hx, fun _ => hx⟩
  · rw [drained_buf_ne hu] at hx
    exact ⟨hx, fun h => absurd h hu⟩

/-- What was in a buffer still is, or has reached memory. -/
theorem drained_of_mem (hb : s.base.buf t = st :: rest) {x : Store Addr}
    (hx : x ∈ s.base.buf u) : x ∈ (s.drained t st rest).base.buf u ∨ (u = t ∧ x = st) := by
  rcases eq_or_ne u t with rfl | hu
  · rw [hb] at hx
    rcases List.mem_cons.mp hx with rfl | hx
    · exact Or.inr ⟨rfl, rfl⟩
    · rw [drained_buf_self]
      exact Or.inl hx
  · rw [drained_buf_ne hu]
    exact Or.inl hx

section

variable (h : MemSound R s) (hb : s.base.buf t = st :: rest)

include h hb

/-- What is left of a buffer is in order. -/
theorem MemSound.drained_order (u : Nat) :
    ((s.drained t st rest).base.buf u).Pairwise (InOrder L) := by
  rcases eq_or_ne u t with rfl | hu
  · have := (h.thr u).order
    rw [hb] at this
    rw [drained_buf_self]
    exact (List.pairwise_cons.mp this).2
  · rw [drained_buf_ne hu]
    exact (h.thr u).order

/-- The head of a buffer is in order with the rest. -/
theorem MemSound.head_order {x : Store Addr} (hx : x ∈ rest) : InOrder L st x := by
  have := (h.thr t).order
  rw [hb] at this
  exact (List.pairwise_cons.mp this).1 x hx

/-- A thread with a store to drain is not at the store of a write. -/
theorem MemSound.drained_empty {a : Addr} {x : Val}
    (hpc : (s.base.thr u).pc = .write a x .store) : (s.drained t st rest).base.buf u = [] := by
  have hempty := (h.thr u).drained a x hpc
  rcases eq_or_ne u t with rfl | hu
  · rw [hb] at hempty
    cases hempty
  · rw [drained_buf_ne hu]
    exact hempty

/-- A cursor, a `memop` or a mutex. -/
theorem MemSound.drain_other (hst : Other st) : MemSound R (s.drained t st rest) := by
  have hm := store_other (m := s.base.mem) hst
  refine h.step_rule (t := t) hm.1 hm.2 (fun u hu => ⟨rfl, rfl, drained_buf_ne hu⟩)
    (fun e he => ⟨he.mem, he.tid, he.op, he.lt⟩) ?_
  refine (h.thr t).quiet hm.1 hm.2 ?_ (h.drained_order hb t) (fun e => Issued.congr rfl)
    (fun e he => he) (h.thr t).place (h.thr t).reg (fun a x hpc => h.drained_empty hb hpc)
    (h.thr t).noVer
  intro x hx
  rw [drained_buf_self, hb, List.mem_cons]
  refine ⟨Or.inr, ?_⟩
  rintro (rfl | hx')
  · exact absurd hst hx
  · exact hx'

end

/-- Recorded writes of an object are told apart by their versions. -/
theorem Issued.unique {e e' : Event Addr} (he : Issued R s t e) (he' : Issued R s u e')
    (ho : L.obj e = L.obj e') (hv : e.version = e'.version) : e = e' ∧ t = u := by
  have heq := R.legal.write_unique he.mem he'.mem ho he.op he'.op hv
  exact ⟨heq, by rw [← he.tid, ← he'.tid, heq]⟩

/-- **A value reaches memory.**  It was in the buffer of the one write at the object's version, so
after the drain that write has its value in memory, and the other addresses have what they had. -/
theorem MemSound.drain_val (h : MemSound R s) {a : Addr} {x : Val}
    (hb : s.base.buf t = .val a x :: rest) : MemSound R (s.drained t (.val a x) rest) := by
  obtain ⟨e₀, he₀, ha₀, hx₀, hver₀⟩ := (h.thr t).val a x (by rw [hb]; exact List.mem_cons_self)
  have hval : (s.drained t (.val a x) rest).base.mem.val = Function.update s.base.mem.val a x := rfl
  have hver : (s.drained t (.val a x) rest).base.mem.objVersion = s.base.mem.objVersion := rfl
  have hvers : ∀ u o v, Store.objVersion o v ∈ (s.drained t (.val a x) rest).base.buf u ↔
      Store.objVersion o v ∈ s.base.buf u := by
    intro u o v
    refine ⟨fun hv => (mem_of_drained hb hv).1, fun hv => ?_⟩
    rcases drained_of_mem hb hv with hv | ⟨-, hv⟩
    · exact hv
    · cases hv
  -- a write to the address at its current version is the one that drains
  have hone : ∀ u e, Issued R s u e → e.addr = a →
      s.base.mem.objVersion (L.obj e) = e.version → e = e₀ := by
    intro u e he hea hv
    have ho : L.obj e = L.obj e₀ := by rw [Layout.obj, Layout.obj, hea, ha₀]
    exact (he.unique he₀ ho (by rw [← hv, ← hver₀, ho])).1
  refine ⟨h.nonneg, h.even, ?_, ?_⟩
  -- versions stay, so only what is said of values has to be shown
  · intro u
    have hu := h.thr u
    refine ⟨hu.place, hu.reg, fun b y hpc => h.drained_empty hb hpc, ?_, h.drained_order hb u, ?_,
      ?_, ?_, ?_⟩
    · rintro b y hpc o ⟨v, hv⟩
      exact hu.noVer b y hpc o ⟨v, (hvers u o v).mp hv⟩
    · intro b y hy
      exact hu.val b y (mem_of_drained hb hy).1
    · intro o v hv
      exact hu.ver o v ((hvers u o v).mp hv)
    · intro e he
      refine (hu.ended e he).imp_right (Or.imp_left ?_)
      rintro ⟨⟨v, hv⟩, hcur⟩
      exact ⟨⟨v, (hvers u _ v).mpr hv⟩, hcur⟩
    · intro e he hv
      rw [hval]
      rcases eq_or_ne e.addr a with hea | hea
      · left
        obtain rfl := hone u e he hea hv
        rw [hea, Function.update_self, hx₀]
      · rw [Function.update_of_ne hea]
        refine (hu.new e he hv).imp_right (fun hmem => ?_)
        rcases drained_of_mem hb hmem with hmem | ⟨-, heq⟩
        · exact hmem
        · cases heq
          exact absurd rfl hea
  -- no write at the current version has been made to `b`, so it is another word
  · intro b hno
    have hba : b ≠ a := by
      rintro rfl
      exact hno t e₀ he₀ ha₀ hver₀
    rw [hval, Function.update_of_ne hba]
    exact h.old b hno

/-- At an object's version there is one recorded write. -/
theorem Issued.alone {e₀ : Event Addr} (he₀ : Issued R s t e₀)
    (hver₀ : s.base.mem.objVersion (L.obj e₀) = e₀.version) (he : Issued R s u e)
    (ho : L.obj e = L.obj e₀) (hv : s.base.mem.objVersion (L.obj e) = e.version) :
    e = e₀ ∧ u = t :=
  he.unique he₀ ho (by rw [← hv, ← hver₀, ho])

section Version

variable {e₀ : Event Addr} (h : MemSound R s) (hok : ∀ u, ThrOk R s u)
  (hb : s.base.buf t = .objVersion (L.obj e₀) (s.base.mem.objVersion (L.obj e₀) + 2) :: rest)
  (he₀ : Issued R s t e₀) (hver₀ : s.base.mem.objVersion (L.obj e₀) = e₀.version)

include h hb he₀ hver₀

/-- **Nobody is in a write of the object.**  It would be a recorded write at the object's version,
and that is `e₀`, which is over for its thread: the thread is past the store, and has its version
store in the buffer. -/
theorem MemSound.not_inWrite (hok : ThrOk R s u) (he : InWrite R s u e) : L.obj e ≠ L.obj e₀ := by
  intro ho
  obtain ⟨a, x, w, hpc, hacc, hmem, htid, hat⟩ := he.spec hok
  have hcur := (h.thr u).place e he
  have heq := R.legal.write_unique hmem he₀.mem ho (Replay.acc_eq_write hacc).1 he₀.op
    (by rw [← hcur, ← hver₀, ho])
  have hut : u = t := by rw [← htid, ← he₀.tid, heq]
  subst hut heq
  rcases hat with ⟨-, hm⟩ | ⟨hw, -⟩
  · have := he₀.lt
    omega
  · refine (h.thr u).noVer a x ?_ (L.obj e) ⟨_, by rw [hb]; exact List.mem_cons_self⟩
    rw [hpc]
    rcases hw with rfl | ⟨v, rfl⟩
    · exact Or.inl rfl
    · exact Or.inr ⟨v, rfl⟩

omit he₀ hver₀ in
/-- The buffered stores to the object are behind no version store of it: what is left in the buffer
belongs to other objects. -/
theorem MemSound.rest_other {x : Store Addr} (hx : x ∈ rest) :
    (∀ a y, x = .val a y → L.calcObjid a ≠ L.obj e₀) ∧
      ∀ p w, x = .objVersion p w → p ≠ L.obj e₀ := by
  have hin := h.head_order hb hx
  constructor
  · rintro a y rfl
    exact hin
  · rintro p w rfl
    exact hin

include hok

/-- **Every thread, when the version of `e₀` has become the next.**  What is still under way
anywhere is for other objects, and those have the versions they had.  The write `e₀` itself goes
from the buffer to below the version. -/
theorem MemSound.drain_version_thr (u : Nat) : ThrMem R
    (s.drained t (.objVersion (L.obj e₀) (s.base.mem.objVersion (L.obj e₀) + 2)) rest) u := by
  have hu := h.thr u
  have hmem : (s.drained t (.objVersion (L.obj e₀) (s.base.mem.objVersion (L.obj e₀) + 2))
      rest).base.mem.val = s.base.mem.val := rfl
  have hself : (s.drained t (.objVersion (L.obj e₀) (s.base.mem.objVersion (L.obj e₀) + 2))
      rest).base.mem.objVersion (L.obj e₀) = s.base.mem.objVersion (L.obj e₀) + 2 :=
    Function.update_self ..
  have hne : ∀ p, p ≠ L.obj e₀ → (s.drained t (.objVersion (L.obj e₀)
      (s.base.mem.objVersion (L.obj e₀) + 2)) rest).base.mem.objVersion p =
        s.base.mem.objVersion p := fun p hp => Function.update_of_ne hp _ _
  -- no thread is in a write of the object whose version drains
  have hnone := fun e (he : InWrite R s u e) => h.not_inWrite hb he₀ hver₀ (hok u) he
  refine ⟨?_, ?_, fun b y hpc => h.drained_empty hb hpc, ?_, h.drained_order hb u, ?_, ?_, ?_, ?_⟩
  · intro e he
    rw [hne _ (hnone e he)]
    exact hu.place e he
  · intro a x w hpc
    change (s.base.thr u).pc = _ at hpc
    have hk : s.call u = none := by
      rcases (hok u).calls.call with hc | hc
      · exact hc
      · rw [hc, callAt, hpc]
    obtain ⟨e, he, hacc, -⟩ := writer_recorded (hok u) hk hpc (Or.inr (Or.inr ⟨w, rfl⟩))
    have ho := hnone e he
    rw [Layout.obj, (Replay.acc_eq_write hacc).2.1] at ho
    rw [hne _ ho]
    exact hu.reg a x w hpc
  · rintro a x hpc p ⟨w, hw⟩
    exact hu.noVer a x hpc p ⟨w, (mem_of_drained hb hw).1⟩
  -- a value that is still in a buffer is one of another object: the write `e₀` is the only one at
  -- the version, and its value has drained before
  · intro a x hx
    obtain ⟨hx, hxr⟩ := mem_of_drained hb hx
    obtain ⟨e, he, hea, hex, hcur⟩ := hu.val a x hx
    have ho : L.obj e ≠ L.obj e₀ := by
      intro ho
      have hut := (he₀.alone hver₀ he ho hcur).2
      refine (h.rest_other hb (hxr hut)).1 a x rfl ?_
      rw [← ho, Layout.obj, hea]
    exact ⟨e, he, hea, hex, by rw [hne _ ho]; exact hcur⟩
  -- and so is a version
  · intro p w hw
    obtain ⟨hw, hwr⟩ := mem_of_drained hb hw
    obtain ⟨h1, e, he, hep, hcur⟩ := hu.ver p w hw
    have hp : p ≠ L.obj e₀ := by
      intro hp
      have hut := (he₀.alone hver₀ he (hep.trans hp) (by rw [hep, hcur])).2
      exact (h.rest_other hb (hwr hut)).2 p w rfl hp
    rw [hne _ hp]
    exact ⟨h1, e, he, hep, hcur⟩
  · intro e he
    rcases hu.ended e he with hi | ⟨⟨w, hw⟩, hcur⟩ | hlt
    · exact Or.inl hi
    · right
      rcases eq_or_ne (L.obj e) (L.obj e₀) with ho | ho
      · -- its version store was the one that has drained
        right
        rw [← hcur, ho, hself]
        omega
      · left
        rw [hne _ ho]
        refine ⟨⟨w, ?_⟩, hcur⟩
        rcases drained_of_mem hb hw with hw | ⟨-, heq⟩
        · exact hw
        · rw [Store.objVersion.injEq] at heq
          exact absurd heq.1 ho
    · right
      right
      rcases eq_or_ne (L.obj e) (L.obj e₀) with ho | ho
      · rw [ho] at hlt ⊢
        rw [hself]
        omega
      · rwa [hne _ ho]
  -- a write at the version has its value in memory, or on the way there
  · intro e he hcur
    rcases eq_or_ne (L.obj e) (L.obj e₀) with ho | ho
    · -- a write at the new version would not have been issued
      rw [ho, hself] at hcur
      rcases hu.ended e he with hi | ⟨-, hcur'⟩ | hlt
      · exact absurd ho (hnone e hi)
      · rw [ho] at hcur'
        omega
      · rw [ho] at hlt
        omega
    · rw [hne _ ho] at hcur
      rw [hmem]
      refine (hu.new e he hcur).imp_right (fun hbuf => ?_)
      rcases drained_of_mem hb hbuf with hbuf | ⟨-, heq⟩
      · exact hbuf
      · cases heq

omit hok in
/-- The address that was written has its new value, the others of the object keep theirs, as they do
in the recorded run. -/
theorem MemSound.drain_version_old {a : Addr} (ha : L.calcObjid a = L.obj e₀) :
    s.base.mem.val a = valAt m₀ R.trace a (e₀.version + 2) := by
  rw [R.legal.valAt_write he₀.mem he₀.op ha]
  split
  · rename_i hea
    -- the value of the write is in memory: it cannot be behind its version
    rcases (h.thr t).new e₀ he₀ hver₀ with hv | hmem
    · rw [← hea]
      exact hv
    · rw [hb] at hmem
      rcases List.mem_cons.mp hmem with heq | hmem
      · cases heq
      · rw [hea] at hmem
        exact absurd ha ((h.rest_other hb hmem).1 a _ rfl)
  · rename_i hea
    rw [← hver₀, ← ha]
    refine h.old a (fun u e he hea' hcur => ?_)
    have ho : L.obj e = L.obj e₀ := by rw [Layout.obj, hea', ha]
    rw [(he₀.alone hver₀ he ho hcur).1] at hea'
    exact hea hea'

end Version

/-- **A version reaches memory**: the write it belongs to is over, and the object's memory is that
of the recorded run at the next version. -/
theorem MemSound.drain_version (h : MemSound R s) (hok : ∀ u, ThrOk R s u) {o : Nat} {v : Int}
    (hb : s.base.buf t = .objVersion o v :: rest) :
    MemSound R (s.drained t (.objVersion o v) rest) := by
  obtain ⟨rfl, e₀, he₀, rfl, hver₀⟩ := (h.thr t).ver o v (by rw [hb]; exact List.mem_cons_self)
  have hver : (s.drained t (.objVersion (L.obj e₀) (s.base.mem.objVersion (L.obj e₀) + 2))
      rest).base.mem.objVersion = Function.update s.base.mem.objVersion (L.obj e₀)
        (s.base.mem.objVersion (L.obj e₀) + 2) := rfl
  refine ⟨?_, ?_, h.drain_version_thr hok hb he₀ hver₀, ?_⟩
  · intro p
    rw [hver]
    have := h.nonneg p
    rcases eq_or_ne p (L.obj e₀) with rfl | hp
    · rw [Function.update_self]
      omega
    · rwa [Function.update_of_ne hp]
  · intro p
    rw [hver]
    have := h.even p
    rcases eq_or_ne p (L.obj e₀) with rfl | hp
    · rw [Function.update_self]
      omega
    · rwa [Function.update_of_ne hp]
  · intro a hno
    rw [hver] at hno ⊢
    rcases eq_or_ne (L.calcObjid a) (L.obj e₀) with hao | hao
    · rw [hao, Function.update_self, hver₀]
      exact h.drain_version_old hb he₀ hver₀ hao
    · rw [Function.update_of_ne hao]
      refine h.old a (fun u e he hea hcur => ?_)
      refine hno u e he hea ?_
      rw [Function.update_of_ne (by rw [Layout.obj, hea]; exact hao)]
      exact hcur

end Drain

end MemOrder.DebugAccess
