/-
# A replay that passes its access checks is the recorded run

The waits may be missing, too many or for other accesses: when every thread has finished and no
check has failed, each thread has made its recorded accesses, and once the buffers have drained
memory is the recorded final memory.

A check that fails ends the run (`exit(1)`), so a state that is reached has passed all of its checks.
What they give is proved one access at a time: `Results.lean` has that what a thread has made, up to
the check it is in, are its recorded accesses (`ThrSound`), and `Memory.lean` that the writes of an
object come in their recorded order (`MemSound`).  This file puts the two together along a run and
reads the end off them.

* A thread that has finished has made ALL its recorded accesses: if one were missing, the program,
  having seen the recorded results so far, would make one more recorded call.
* All recorded writes are then made, none is under way, and none is in a buffer; so each is below
  the version of its object (`ThrMem.ended`), which is therefore the final one, and memory is the
  recorded memory there (`MemSound.old`).
-/
import MemOrder.DebugAccess.Memory

namespace MemOrder.DebugAccess

open Commit (Made)
open ReplayTso (Store)

variable {Addr : Type} [DecidableEq Addr] {L : Layout Addr} {nthr : Nat} {prog : Nat → Prog Addr}
  {m₀ : Addr → Val} {R : Run L nthr prog m₀} {versions : Nat → List WaitVersion}
  {logs : Nat → List ReplayWaitMemop} {b : ReplayTso.State Addr} {s : State Addr}
  {t : Nat}

/-! ## 1. Every run

The kinds of steps are those of `Memory.lean`; a run keeps `MemSound` beside the invariants of the
threads. -/

/-- One instruction, by what it does. -/
theorem MemSound.instr (h : MemSound R s) (hok : ThrOk R s t) (ht : t < nthr)
    (hk : s.call t = none) (hdo : Does L prog s.base t b) : MemSound R (s.after L t b) := by
  cases hdo with
  | @move th' hq =>
    have := h.quiet (m := s.base.mem) ⟨rfl, rfl⟩ (fun st _ => Iff.rfl) (h.thr t).order hq
    rwa [Function.update_eq_self] at this
  | @push st th' hst hq =>
    refine h.quiet (m := s.base.mem) ⟨rfl, rfl⟩ ?_
      (order_push (h.thr t).order (fun st' _ => inOrder_other hst)) hq
    intro st' hst'
    rw [List.mem_append, List.mem_singleton]
    refine ⟨?_, Or.inl⟩
    rintro (hmem | rfl)
    · exact hmem
    · exact absurd hst hst'
  | @exchange st th' hst _ hq =>
    have := h.quiet (m := s.base.mem.store st) (store_other hst) (fun st _ => Iff.rfl)
      (h.thr t).order hq
    rwa [Function.update_eq_self] at this
  | read hpc => exact h.read hok ht hk hpc
  | ready hst hb hpc => exact h.ready hst hb hpc
  | store hpc => exact h.store hok hk hpc
  | incLoad hpc => exact h.incLoad hpc
  | incStore hpc => exact h.incStore hok hk hpc

/-- One drain, by the kind of store. -/
theorem MemSound.drain (h : MemSound R s) (hok : ∀ u, ThrOk R s u) {st : Store Addr}
    {rest : List (Store Addr)} (hb : s.base.buf t = st :: rest) :
    MemSound R (s.drained t st rest) := by
  cases st with
  | val a x => exact h.drain_val hb
  | objVersion o v => exact h.drain_version hok hb
  | _ => exact h.drain_other hb trivial

/-- At the start no write has been made and nothing is buffered. -/
theorem Initial.memSound (h : Initial m₀ versions (debugAccessLog L R.trace) s) : MemSound R s := by
  obtain ⟨⟨hmem, hbuf, hthr⟩, -, -⟩ := h
  have hpc : ∀ t, (s.base.thr t).pc = .start := fun t => (memInitThr_start (hthr t)).1
  have hnone : ∀ t e, ¬ Issued R s t e := by
    rintro t e ⟨-, -, -, hlt⟩
    rw [(memInitThr_start (hthr t)).2] at hlt
    exact absurd hlt (Nat.not_lt_zero _)
  have hempty : ∀ t (st : Store Addr), st ∉ s.base.buf t := by simp [hbuf]
  refine ⟨by simp [hmem], by simp [hmem], ?_, ?_⟩
  · intro t
    refine ⟨?_, ?_, ?_, ?_, by rw [hbuf]; exact List.Pairwise.nil,
      fun a x hx => absurd hx (hempty t _), fun o v hv => absurd hv (hempty t _),
      fun e he => absurd he (hnone t e), fun e he => absurd he (hnone t e)⟩
    · intro e he
      exact absurd he (inWrite_of_plain (by rw [hpc]; trivial))
    · intro a x v hw
      rw [hpc] at hw
      cases hw
    · intro a x hw
      rw [hpc] at hw
      cases hw
    · rintro a x (hw | ⟨v, hw⟩) <;>
      · rw [hpc] at hw
        cases hw
  · intro a _
    rw [hmem, R.legal.valAt_zero]

section Reach

variable (hr : (sys L nthr prog m₀ versions logs (debugAccessLog L R.trace)).Reach s)

include hr

/-- What is known of every thread in every reachable state. -/
theorem reach_thrOk (t : Nat) : ThrOk R s t := ⟨reach_thrSound hr t, reach_callInv hr t⟩

/-- **Checked writes are in order along every run.** -/
theorem reach_memSound : MemSound R s := by
  refine Trans.Sys.reach_of_inductive (I := fun s => MemSound R s) (fun _ h => Initial.memSound h) ?_ hr
  intro s l s' hs h hst
  obtain ⟨t, ht, ⟨k, rest, hk, hlog, rfl⟩ | ⟨b, hk, hb, rfl⟩ | ⟨b, hb, rfl⟩⟩ := step_cases hst
  · exact h.check (reach_thrOk hs t) hk hlog
  · exact h.instr (reach_thrOk hs t) ht hk (instr_does hb)
  · obtain ⟨st, rest, hbuf, rfl⟩ := ReplayTso.drain_cases hb
    exact h.drain (reach_thrOk hs) hbuf

/-- A thread that has finished has made its recorded accesses. -/
theorem done_of_finished (hf : Finished prog s t) :
    (s.base.thr t).done = (thread t R.trace).map Event.made := by
  have hsettled := (reach_thrSound hr t).settled
  rw [State.settled, hf.1] at hsettled
  simp only at hsettled
  refine hsettled.eq_of_length ?_
  rw [List.length_map]
  refine Nat.le_antisymm (by simpa using hsettled.length_le) ?_
  by_contra hlt
  -- the program would make one more recorded call
  have hget := List.getElem?_eq_getElem (l := thread t R.trace) (Nat.lt_of_not_le hlt)
  have hnext := R.next_acc hget
  obtain ⟨d, hd⟩ := hsettled
  have hres : results ((thread t R.trace).take (s.base.thr t).done.length) =
      (s.base.thr t).done.map Made.res := by
    have htake : ((thread t R.trace).take (s.base.thr t).done.length).map Event.made =
        (s.base.thr t).done := by
      rw [List.map_take, ← hd, List.take_left]
    conv_rhs => rw [← htake]
    rw [List.map_map]
    rfl
  rw [hres, hf.2.2] at hnext
  cases hnext

/-- Memory when all threads have finished and all stores have drained. -/
theorem val_of_finished (hf : ∀ t < nthr, Finished prog s t)
    (hb : ∀ t < nthr, s.base.buf t = []) : s.base.mem.val = R.finalMem := by
  have h := reach_memSound hr
  -- every recorded write is over
  have hover : ∀ e ∈ R.trace, e.op = .W → e.version < s.base.mem.objVersion (L.obj e) := by
    intro e he hop
    have ht := R.tid_lt e he
    have hissued : Issued R s e.tid e := by
      refine ⟨he, rfl, hop, ?_⟩
      rw [done_of_finished hr (hf e.tid ht), List.length_map]
      exact (List.getElem?_eq_some_iff.mp (R.legal.thread_getElem? he)).1
    -- it is not under way and not in a buffer
    rcases (h.thr e.tid).ended e hissued with hi | ⟨⟨v, hv⟩, -⟩ | hlt
    · exact absurd hi (inWrite_of_plain (by rw [(hf e.tid ht).2.1]; trivial))
    · rw [hb e.tid ht] at hv
      cases hv
    · exact hlt
  funext a
  rw [h.old a (fun t e he _ hcur => ?_)]
  · refine R.legal.valAt_after a ?_
    by_contra hlt
    obtain ⟨w, hw, hop, ho, hwv⟩ := R.legal.exists_write_of_lt_after (h.nonneg (L.calcObjid a))
      (h.even (L.calcObjid a)) (Int.not_le.mp hlt)
    have := hover w hw hop
    rw [ho] at this
    omega
  · have := hover e he.mem he.op
    omega

end Reach

/-- **A `DEBUG_ACCESS` replay that ends has reproduced the recorded run, whatever its logs.**  Version
logs and reader logs are arbitrary here; only the debug logs are the recorded ones.  In every run, up to
the check it is in, a thread has made its recorded accesses with their recorded results; when every
thread has finished they are all of them, and once the stores have drained memory is the recorded
final memory. -/
theorem check_access_sound (R : Run L nthr prog m₀)
    (hr : (sys L nthr prog m₀ versions logs (debugAccessLog L R.trace)).Reach s) :
    (∀ t < nthr, s.settled t <+: (thread t R.trace).map Event.made) ∧
      ((∀ t < nthr, Finished prog s t) →
        (∀ t < nthr, (s.base.thr t).done = (thread t R.trace).map Event.made) ∧
        ((∀ t < nthr, s.base.buf t = []) → s.base.mem.val = R.finalMem)) := by
  refine ⟨fun t _ => (reach_thrSound hr t).settled, ?_⟩
  intro hf
  exact ⟨fun t ht => done_of_finished hr (hf t ht), val_of_finished hr hf⟩

/-! ## 2. A replay without waits

The theorem asks nothing of the version logs and reader logs.  Here there are none, and the order of
steps is one that happens to be right. -/

section Demo

open Replay (demoLayout demoProg demoTrace demoRun)

/-- A replay without one wait: the version logs are empty, and there are no reader logs.  This order of
steps passes its checks. -/
def bareSched : List ReplayTso.Act :=
  List.replicate 5 (.instr 1) ++ [.drain 1] ++ List.replicate 10 (.instr 0) ++
    List.replicate 3 (.drain 0) ++ List.replicate 5 (.instr 1) ++ [.drain 1]

def bareInit : State Nat :=
  initState (fun _ => 0) (fun _ => [⟨-1, -1⟩]) (debugAccessLog demoLayout demoTrace)

def bareEnd : State Nat :=
  ((Trans.runSched (act demoLayout demoProg fun _ => []) bareSched bareInit).map Prod.snd).getD bareInit

theorem bare_reach : (sys demoLayout 2 demoProg (fun _ => 0) (fun _ => [⟨-1, -1⟩]) (fun _ => [])
    (debugAccessLog demoLayout demoTrace)).Reach bareEnd := by
  have hsome : (Trans.runSched (act demoLayout demoProg fun _ => []) bareSched bareInit).isSome =
      true := by decide
  have hlt : ∀ a ∈ bareSched, a.tid < 2 := by decide
  exact Trans.Sys.reach_end (fun a ha _ _ _ h => step_act (hlt a ha) h)
    (initial_initState _ (fun _ => by simp) _) hsome

/-- It ends with every thread finished and every store drained. -/
theorem bare_finished : ∀ t < 2, Finished demoProg bareEnd t ∧ bareEnd.base.buf t = [] := by
  intro t ht
  match t, ht with
  | 0, _ => exact ⟨⟨rfl, rfl, rfl⟩, rfl⟩
  | 1, _ => exact ⟨⟨rfl, rfl, rfl⟩, rfl⟩

/-- So the replay without waits has reproduced the recorded run. -/
theorem check_access_sound_bare :
    (∀ t < 2, (bareEnd.base.thr t).done = (thread t demoTrace).map Event.made) ∧
      bareEnd.base.mem.val = demoRun.finalMem :=
  have h := (check_access_sound demoRun bare_reach).2 (fun t ht => (bare_finished t ht).1)
  ⟨h.1, h.2 (fun t ht => (bare_finished t ht).2)⟩

end Demo

end MemOrder.DebugAccess
