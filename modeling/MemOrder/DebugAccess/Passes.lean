/-
# On the logs of a recorded run no access check fails

A thread is in `check_access` between the value load of a read and its `memop++`, or before the
store of a write.  In both places the object is AT the recorded version: of a write because nobody
else writes that version, of a read because its writer waits for the `memop++` (`reach_readHeld`).
On TSO the thread also sees that version, so the entry it reads is what it has in its hands
(`Rel.entry_eq`), and a check is one more step that changes nothing.

The read is the harder half.  Its load is over when it is checked, and for the other threads an
access is over at its load; what keeps the version in place until the check is `wait_reader`, which
waits for `memop` and so for the check too.  On TSO there is the buffer between: a thread that
misses a version store of another has passed only accesses recorded before that write
(`ThrOk.history`), and this read is recorded at the version the object still has.

With the checks out of the way the results are those of the replayer on TSO: `finished_of_stuck` and
`done_of_finished` carry over through `reach_base`, since the build without its checks is that
replayer.
-/
import MemOrder.DebugAccess.Model

namespace MemOrder.Replay

variable {Addr : Type} [DecidableEq Addr] {L : Layout Addr} {nthr : Nat} {prog : Nat → Prog Addr}
  {m₀ : Addr → Val} {R : Run L nthr prog m₀} {logs : Nat → List ReplayWaitMemop}
  {s s' : State Addr} {t u : Nat}

/-! ## 1. The version of a read that is not over

About the sequentially consistent replayer: the one place after an access is over where its version
is looked at once more. -/

/-- Between the value load and `memop++` of a read its object stays at its version. -/
def ReadHeld (R : Run L nthr prog m₀) (s : State Addr) (u : Nat) : Prop :=
  ∀ e, Cur R s u e → e.op = .R → (s.thr u).pc = .incMemop → s.objVersion (L.obj e) = e.version

/-- The thread comes to `memop++` of a read from its value load, where the object was at its
version. -/
theorem ReadHeld.step_self (h : Inv R logs s) (hst : Step L prog s t s') : ReadHeld R s' t := by
  intro e hc hR hpc
  cases hst with
  | @move pc hm =>
    rw [setPc_self] at hpc
    change pc = .incMemop at hpc
    subst hpc
    generalize (s.thr t).pc = p at hm
    generalize hq : (Pc.incMemop : Pc Addr) = q at hm
    cases hm with
    | @fetch acc _ _ => cases acc <;> cases hq
    | _ => cases hq
  | @checked acc th hth _ =>
    rw [setThr_self] at hpc
    cases acc <;> cases hpc
  | @load a hload =>
    have hp := (h.thr t).pc
    simp only [PcInv, hload] at hp
    obtain ⟨e', hc', -, hver⟩ := hp
    have hc₀ : Cur R s t e := by simpa [Cur] using hc
    rw [hc'.unique hc₀] at hver
    exact hver
  | @incVersion a v hinc =>
    -- that is the end of a write
    obtain ⟨e', hc', hW, -⟩ := h.writer hinc
    have hc₀ : Cur R s t e := by simpa [Cur] using hc
    rw [hc'.unique hc₀, hR] at hW
    cases hW
  | incMemop _ => simp at hpc
  | lock _ => simp at hpc
  | advance _ => simp at hpc
  | unlockNone _ => simp at hpc
  | unlockSome _ => simp at hpc
  | store _ => simp at hpc

/-- Another thread does not raise the version: its writer is waiting for the read, whose `memop` has
not been incremented (`Inv.alone_at_incVersion`). -/
theorem ReadHeld.step_ne (h : Inv R logs s) (hheld : ReadHeld R s u) (hst : Step L prog s t s')
    (hu : u ≠ t) : ReadHeld R s' u := by
  intro e hc hR hpc
  rw [Cur, step_thr_ne hst hu] at hc
  rw [step_thr_ne hst hu] at hpc
  have hver := hheld e hc hR hpc
  rcases step_objVersion hst (L.obj e) with h1 | ⟨a, v, hinc, ho, -, -⟩
  · rw [h1, hver]
  · exact absurd (h.alone_at_incVersion hinc hc ho.symm hver) hu

/-- **A read keeps its version until `memop++`**, in every reachable state. -/
theorem reach_readHeld (hM : Merged L nthr R.trace logs)
    (hr : (sys L nthr prog m₀ R.trace logs).Reach s) (u : Nat) : ReadHeld R s u := by
  refine Trans.Sys.reach_of_inductive (I := fun s => ReadHeld R s u) ?_ ?_ hr
  · rintro s ⟨-, -, -, hthr⟩ e - - hpc
    rw [(nextWaitVersionLog_same (hthr u)).2.2] at hpc
    cases hpc
  · rintro s l s' hs h ⟨t, -, -, hstep⟩
    have hst := step_cases hstep
    rcases eq_or_ne u t with rfl | hu
    · exact ReadHeld.step_self (reach_inv hM hs) hst
    · exact ReadHeld.step_ne (reach_inv hM hs) h hst hu

end MemOrder.Replay

namespace MemOrder.DebugAccess

open Commit (Made)
open ReplayTso (Mem Store Thr Rel HasVer)

variable {Addr : Type} [DecidableEq Addr] {L : Layout Addr} {nthr : Nat} {prog : Nat → Prog Addr}
  {m₀ : Addr → Val} {R : Run L nthr prog m₀} {logs : Nat → List ReplayWaitMemop}
  {b : ReplayTso.State Addr} {c : Replay.State Addr} {s s' : State Addr} {t u : Nat}

/-! ## 2. What a thread has in its hands

`callAt` says what a thread hands to `check_access`; `entry_eq` is that its recorded access, as
logged, is just that. -/

/-- **The entry of the access a thread is checking** has the type, object and value it hands over,
and the version it sees.  For a read the value is that of its last access, and the version is that
of the object, held and seen; for a write both come from its place before the store. -/
theorem Rel.entry_eq (h : Rel R b c) (hinv : Replay.Inv R logs c) (hheld : Replay.ReadHeld R c t)
    {k : Call} (hk : callAt L (b.thr t) = some k) :
    ∃ e, (thread t R.trace)[(b.thr t).done.length + ahead (b.thr t) - 1]? = some e ∧
      0 < (b.thr t).done.length + ahead (b.thr t) ∧
      logAccess L e = ⟨k.acc, k.objid, k.val, (b.view t).objVersion k.objid⟩ := by
  have hthr := (h.thr t).thr
  have hdone := (hinv.thr t).done_eq
  have hle := (hinv.thr t).made_le
  have hlen : (b.thr t).done.length = (c.thr t).made := by
    rw [← hthr.done, List.length_map, hdone, List.length_take]
    omega
  unfold callAt at hk
  split at hk
  · -- a read that has its value
    rename_i hpc
    split at hk
    · rename_i a v hlast
      cases hk
      have hcpc : (c.thr t).pc = .incMemop := by rw [hthr.pc, hpc]; rfl
      have hmade : (c.thr t).made = (c.thr t).memop + 1 := by simp [Replay.Thr.made, hcpc]
      have hahead : ahead (b.thr t) = 0 := by simp [ahead, hpc]
      have hlt : (c.thr t).memop < (thread t R.trace).length := by omega
      have hc : Replay.Cur R c t (thread t R.trace)[(c.thr t).memop] :=
        List.getElem?_eq_getElem hlt
      generalize hE : (thread t R.trace)[(c.thr t).memop] = e at hc
      -- it is the last access made
      have hmadeE : e.made = ⟨.read a, some v⟩ := by
        rw [← hthr.done, hdone, hmade, List.take_add_one, List.getElem?_eq_getElem hlt, hE] at hlast
        simpa using hlast
      obtain ⟨hacc, hres⟩ : e.acc = .read a ∧ e.result = some v := by
        simpa [Event.made] using hmadeE
      obtain ⟨hR, ha⟩ := Replay.acc_eq_read hacc
      have hval : e.val = v := by simpa [Event.result, hR] using hres
      have hver := hheld e hc hR hcpc
      -- nobody has a version store for the object that the thread does not see
      have hseen : ∀ w, HasVer b w (L.obj e) → w = t := by
        intro w hw
        by_contra hwt
        obtain ⟨he, het, hem⟩ := hc.mem
        have hpassed : e.memop < (c.thr t).passed := by
          rw [hem]
          simp [Replay.Thr.passed, hcpc]
        have := (h.thr t).history e he het hpassed w hwt hw
        omega
      refine ⟨e, ?_, by omega, ?_⟩
      · rw [hahead, hlen, hmade, Nat.add_zero, Nat.add_sub_cancel]
        exact hc
      · have hview := h.view_version hseen
        rw [Layout.obj, ha] at hview hver
        simp only [logAccess, hR, Layout.obj, ha, hval, hview, hver]
    · cases hk
  · -- a write before its store
    rename_i a x hpc
    cases hk
    have hcpc : (c.thr t).pc = .write a x .store := by rw [hthr.pc, hpc]; rfl
    obtain ⟨e, hc, hW, ha, hval, hver, -⟩ := hinv.writer hcpc
    have hmade : (c.thr t).made = (c.thr t).memop := by simp [Replay.Thr.made, hcpc]
    have hahead : ahead (b.thr t) = 1 := by simp [ahead, hpc]
    refine ⟨e, ?_, by omega, ?_⟩
    · rw [hahead, hlen, hmade, Nat.add_sub_cancel]
      exact hc
    · have hview := h.view_version ((h.thr t).seen (L.calcObjid a) (by rw [hcpc]; rfl))
      rw [Layout.obj, ha] at hver
      simp only [logAccess, hW, Layout.obj, ha, hval, hview, hver]
  · cases hk

/-! ## 3. Every run

A check finds its entry and agrees with it, so it neither fails nor blocks; everything else is about
the replayer without checks. -/

section Reach

variable (hM : Replay.Merged L nthr R.trace logs)
  (hr : (sys L nthr prog m₀ (ReplayTso.versionLogs L R.trace) logs
    (debugAccessLog L R.trace)).Reach s)

include hM hr

/-- A check finds its entry. -/
theorem check_next {k : Call} (hk : s.call t = some k) : ∃ s', s.check t k = .next s' := by
  obtain ⟨c, hc, hrel⟩ := ReplayTso.reach_rel hM (reach_base hr)
  have hinv := reach_callInv hr t
  have hcall : callAt L (s.base.thr t) = some k := by
    rcases hinv.call with h | h
    · rw [hk] at h
      cases h
    · rw [← h, hk]
  obtain ⟨e, he, hpos, hentry⟩ := Rel.entry_eq hrel (Replay.reach_inv hM hc)
    (Replay.reach_readHeld hM hc t) hcall
  obtain ⟨n, hn, hlog⟩ := hinv.log
  have hlen : n = (s.base.thr t).done.length + ahead (s.base.thr t) - 1 := by
    rw [hk, Option.toList_some, List.length_singleton, State.checks] at hn
    omega
  have hlt : n < (debugAccessLog L R.trace t).length := by
    rw [debugAccessLog, List.length_map, hlen]
    exact (List.getElem?_eq_some_iff.mp he).1
  have hcons : s.log t = logAccess L e :: (debugAccessLog L R.trace t).drop (n + 1) := by
    rw [hlog, List.drop_eq_getElem_cons hlt]
    congr 1
    have : (debugAccessLog L R.trace t)[n]? = some (logAccess L e) := by
      rw [debugAccessLog, List.getElem?_map, hlen, he]
      rfl
    rw [List.getElem?_eq_getElem hlt] at this
    exact Option.some.inj this
  refine ⟨{ s with
    call := Function.update s.call t none
    log := Function.update s.log t ((debugAccessLog L R.trace t).drop (n + 1)) }, ?_⟩
  unfold State.check
  rw [hcons]
  simp only
  rw [checkAccess_eq_nil.mpr hentry]

/-- **Nothing fails**: no check of an access, and no check of the replayer. -/
theorem access_ne_fail (ht : t < nthr) (f : Failure) : s.instr L prog logs t ≠ .fail f := by
  intro hf
  unfold State.instr at hf
  cases hk : s.call t with
  | some k =>
    obtain ⟨s', hs'⟩ := check_next hM hr hk
    rw [hk] at hf
    simp only at hf
    rw [hs'] at hf
    cases hf
  | none =>
    rw [hk] at hf
    simp only at hf
    split at hf <;> cases hf
    rename_i f' hf'
    exact ReplayTso.instr_ne_fail hM (reach_base hr) ht f' hf'

/-- A thread that has finished has read its log to the end. -/
theorem log_of_finished (hf : Finished prog s t) : s.log t = [] := by
  obtain ⟨n, hn, hlog⟩ := (reach_callInv hr t).log
  have hdone := ReplayTso.done_of_finished hM (reach_base hr) hf.2
  have hpc : ahead (s.base.thr t) = 0 := by simp [ahead, hf.2.1]
  -- as many entries taken as accesses made, and all are made
  rw [hf.1, State.checks, hdone, hpc] at hn
  rw [hlog, List.drop_eq_nil_iff, debugAccessLog]
  simpa using Nat.le_of_eq hn.symm

/-- A run that cannot go on is not in a check, and then the replayer itself cannot go on. -/
theorem finished_of_stuck (hstuck : ∀ l s', ¬ (sys L nthr prog m₀ (ReplayTso.versionLogs L R.trace)
      logs (debugAccessLog L R.trace)).step s l s') :
    ∀ t < nthr, Finished prog s t ∧ s.base.buf t = [] := by
  have hnone : ∀ t < nthr, s.call t = none := by
    intro t ht
    cases hk : s.call t with
    | none => rfl
    | some k =>
      obtain ⟨s', hs'⟩ := check_next hM hr hk
      refine absurd ⟨t, ht, rfl, Or.inl ?_⟩ (hstuck (some t) s')
      rw [State.instr, hk]
      exact hs'
  have hbase := ReplayTso.finished_of_stuck hM (reach_base hr) (by
    rintro l b ⟨t, ht, rfl, hb | hb⟩
    · refine hstuck (some t) { s with
        base := b
        call := Function.update s.call t (callAt L (b.thr t)) } ⟨t, ht, rfl, Or.inl ?_⟩
      rw [State.instr, hnone t ht]
      simp only [hb]
    · refine hstuck (some t) { s with base := b } ⟨t, ht, rfl, Or.inr ?_⟩
      rw [State.drain, hb]
      rfl)
  exact fun t ht => ⟨⟨hnone t ht, (hbase t ht).1⟩, (hbase t ht).2⟩

end Reach

section Demo

open Replay (demoLayout demoProg demoTrace demoLogs)

/-- The run of `ReplayTso.demoSched`, with the three checks. -/
def demoSched : List ReplayTso.Act :=
  List.replicate 7 (.instr 0) ++ List.replicate 6 (.instr 1) ++ [.drain 1, .drain 0] ++
    List.replicate 13 (.instr 0) ++ [.drain 0, .drain 0] ++ List.replicate 6 (.instr 1) ++
    [.drain 1, .drain 0]

def demoInit : State Nat :=
  initState (fun _ => 0) (ReplayTso.versionLogs demoLayout demoTrace)
    (debugAccessLog demoLayout demoTrace)

def demoEnd : State Nat :=
  ((Trans.runSched (act demoLayout demoProg demoLogs) demoSched demoInit).map Prod.snd).getD demoInit

/-- The run reaches its end. -/
theorem demo_reach : (sys demoLayout 2 demoProg (fun _ => 0)
    (ReplayTso.versionLogs demoLayout demoTrace) demoLogs
    (debugAccessLog demoLayout demoTrace)).Reach demoEnd := by
  have hsome : (Trans.runSched (act demoLayout demoProg demoLogs) demoSched demoInit).isSome = true := by
    decide
  have hlt : ∀ a ∈ demoSched, a.tid < 2 := by decide
  exact Trans.Sys.reach_end (fun a ha _ _ _ h => step_act (hlt a ha) h)
    (initial_initState _ (ReplayTso.versionLogs_ne_nil _ _) _) hsome

end Demo

/-- **On the logs of a recorded run every access check passes.**  In every run of the `DEBUG_ACCESS`
replayer with store buffers no check fails, neither of an access nor of the replayer itself; a thread
that has finished has read its debug log to the end and made its recorded accesses; and a run that
cannot go on has finished. -/
theorem check_access_passes (R : Run L nthr prog m₀) (hM : Replay.Merged L nthr R.trace logs)
    (hr : (sys L nthr prog m₀ (ReplayTso.versionLogs L R.trace) logs
      (debugAccessLog L R.trace)).Reach s) :
    (∀ t < nthr, ∀ f, s.instr L prog logs t ≠ .fail f) ∧
      (∀ t < nthr, Finished prog s t →
        s.log t = [] ∧ (s.base.thr t).done = (thread t R.trace).map Event.made) ∧
      ((∀ l s', ¬ (sys L nthr prog m₀ (ReplayTso.versionLogs L R.trace) logs
          (debugAccessLog L R.trace)).step s l s') →
        ∀ t < nthr, Finished prog s t ∧ s.base.buf t = []) := by
  refine ⟨fun t ht f => access_ne_fail hM hr ht f, ?_, finished_of_stuck hM hr⟩
  intro t _ hf
  exact ⟨log_of_finished hM hr hf, ReplayTso.done_of_finished hM (reach_base hr) hf.2⟩

/-- At its end thread 1 has read its log to the end and made its recorded accesses. -/
theorem check_access_passes_demo :
    demoEnd.log 1 = [] ∧
      (demoEnd.base.thr 1).done = (thread 1 Replay.demoTrace).map Event.made :=
  have h := check_access_passes Replay.demoRun Replay.demo_merged demo_reach
  h.2.1 1 (by decide) ⟨rfl, rfl, rfl⟩

end MemOrder.DebugAccess
