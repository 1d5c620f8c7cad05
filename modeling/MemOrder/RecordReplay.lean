/-
# A recorded run, replayed

The purpose of the repository in one statement.  A program runs under one of the recorders, on
x86-TSO, to its end; each thread leaves its logs; `reorder-memop`, `merge-memop` and
`load_wait_reader_log` turn the wait_memop logs into reader logs; the replayer runs the same program
on the logs, on x86-TSO and in any interleaving.  Nothing passes from the first run to the second but
the logs.

The replay ends, and then every thread has had the results it had when it was recorded, and memory
is what it was then.  The recorders' half is `Recorder.exists_run`, the tools' half
`Memop.pipeline_merged`, the replayer's half is in `MemOrder.ReplayTso`.
-/
import MemOrder.Recorder
import MemOrder.ReplayTso.Total
import MemOrder.Log.Bridge

namespace MemOrder

open Memop KMerge
open Commit (Made)

variable {Addr : Type} [DecidableEq Addr] {L : Layout Addr} {nthr : Nat} {prog : Nat → Prog Addr}
  {m₀ : Addr → Val} {k : Recorder} {s : Seqlock.State Addr}

/-! ## 1. What a replay owes to a recorded run

`Reproduces` speaks of the replayer and of what it has to arrive at, and not of the recorder: `made`
and `mem` are the parameters through which the recorded run comes in. -/

/-- The replay of the accesses `made` on version logs and reader logs: every run of it is bounded, no
check fails in it, its threads make prefixes of the accesses, and when it cannot go on they have made
all of them and memory is `mem`. -/
structure Reproduces (L : Layout Addr) (nthr : Nat) (prog : Nat → Prog Addr) (m₀ : Addr → Val)
    (versions : Nat → List WaitVersion) (logs : Nat → List ReplayWaitMemop)
    (made : Nat → List (Made Addr)) (mem : Addr → Val) : Prop where
  bounded : ∃ bound, ∀ ls s, (ReplayTso.sys L nthr prog m₀ versions logs).Exec ls s →
    ls.length ≤ bound
  prefixes : ∀ s, (ReplayTso.sys L nthr prog m₀ versions logs).Reach s →
    ∀ t < nthr, (s.thr t).done <+: made t
  checks : ∀ s, (ReplayTso.sys L nthr prog m₀ versions logs).Reach s →
    ∀ t < nthr, ∀ f, s.instr L prog logs t ≠ .fail f
  ends : ∀ s, (ReplayTso.sys L nthr prog m₀ versions logs).Reach s →
    (∀ l s', ¬ (ReplayTso.sys L nthr prog m₀ versions logs).step s l s') →
      (∀ t < nthr, ReplayTso.Finished prog s t ∧ (s.thr t).done = made t) ∧ s.mem.val = mem

/-- The replay of any legal order, from the three results about the replayer on TSO. -/
theorem reproduces_run (R : Run L nthr prog m₀) {logs : Nat → List ReplayWaitMemop}
    (hM : Replay.Merged L nthr R.trace logs) :
    Reproduces L nthr prog m₀ (ReplayTso.versionLogs L R.trace) logs
      (fun t => (thread t R.trace).map Event.made) R.finalMem := by
  refine ⟨⟨3 * Replay.bound R logs, fun ls s hx => ReplayTso.exec_length_le hM hx⟩,
    fun s hr t _ => ReplayTso.done_prefix hM hr t,
    fun s hr t ht f => ReplayTso.instr_ne_fail hM hr ht f, ?_⟩
  intro s hr hstuck
  have hf := ReplayTso.finished_of_stuck hM hr hstuck
  refine ⟨fun t ht => ⟨(hf t ht).1, ReplayTso.done_of_finished hM hr (hf t ht).1⟩, ?_⟩
  exact ReplayTso.val_of_finished hM hr (fun t ht => (hf t ht).1) (fun t ht => (hf t ht).2)

/-! ## 2. Record and replay

The recorders, the tools and the replayer, one after the other. -/

omit [DecidableEq Addr] in
/-- The end markers only add to the number of entries. -/
theorem runEntries_length_le {tr : List (Event Addr)} (ts : List Nat) :
    (ts.flatMap (runEntries L tr)).length
      ≤ (ts.flatMap fun t => (recordThr L (thread t tr)).waitMemop).length := by
  induction ts with
  | nil => exact Nat.le_refl _
  | cons t ts ih =>
    rw [List.flatMap_cons, List.flatMap_cons, List.length_append, List.length_append,
      recordThr_waitMemop, List.length_append]
    have : (runEntries L tr t).length = (memopEntries L (thread t tr)).length := rfl
    omega

/-- **Record and replay.**  A complete run of a program under any of the recorders leaves logs that
the tools accept, and on the loaded logs every replay of the program, from the same memory, ends with
the results and the memory of the recorded run. -/
theorem record_replay (k : Recorder) (P : PQueue QueEnt QueEnt.gt) (hobj : 1 ≤ L.nobj)
    (hn : nthr ≤ 127) (hr : (Recorder.sys k L nthr prog m₀).Reach s)
    (hf : ∀ t < nthr, Recorder.Finished prog s t) (inRtm : Nat → Nat → Bool)
    (hcount : ((List.range nthr).flatMap
      fun t => (recordThr L (s.done t)).waitMemop).length < 2 ^ 31) :
    ∃ fin : Nat → RecThr, ∃ sorted files readers,
      (∀ t, k.files L (inRtm t) (s.done t) = some (fin t)) ∧
      (∀ t < nthr, reorderMain L.nobj (some (fin t).waitMemop) = .ok (sorted t)) ∧
      mergeMain P L.nobj nthr sorted = .ok files ∧
      loadWaitReaderLog L.nobj (files.map Prod.fst) (files.map Prod.snd) = .ok readers ∧
      Reproduces L nthr prog m₀ (fun t => (fin t).waitVersion)
        (loadedSlice readers ((files.map Prod.fst).getD []))
        (fun t => (s.done t).map Event.made) s.mem.val := by
  obtain ⟨R, hdone, hmem⟩ := Recorder.exists_run hr hf
  have hseen : ∀ t, Seen L (s.done t) := by
    intro t
    rw [← hdone]
    exact R.legal.seen t
  have hfiles : ∀ t, ∃ fin, k.files L (inRtm t) (s.done t) = some fin ∧
      fin.waitVersion = (recordThr L (s.done t)).waitVersion ∧
      fin.waitMemop = (recordThr L (s.done t)).waitMemop := fun t => Recorder.files_eq (hseen t)
  choose fin hfin hversion hmemop using hfiles
  have hcount' : ((List.range nthr).flatMap (runEntries L R.trace)).length < 2 ^ 31 := by
    refine Nat.lt_of_le_of_lt (runEntries_length_le _) ?_
    simpa only [hdone] using hcount
  -- the tools work on the logs of the immediate recorder, which these are
  obtain ⟨sorted, files, readers, hsort, hmerge, hload, hM, -⟩ :=
    pipeline_merged P R hobj hn hcount'
  refine ⟨fin, sorted, files, readers, hfin, ?_, hmerge, hload, ?_⟩
  · intro t ht
    rw [hmemop, ← hdone]
    exact hsort t ht
  · have hrep := reproduces_run R hM
    have hv : ReplayTso.versionLogs L R.trace = fun t => (fin t).waitVersion := by
      funext t
      rw [hversion, ReplayTso.versionLogs, hdone]
    rw [hv, hmem] at hrep
    simpa only [hdone] using hrep

/-- The replay of the example can only end with thread 0 having read 2 and thread 1 having read 1. -/
theorem record_replay_litmus : ∃ versions logs,
    Reproduces pairLayout 2 Recorder.litmusProg (fun _ => 0) versions logs
      (fun t => (Recorder.litmusEnd.done t).map Event.made) Recorder.litmusEnd.mem.val ∧
      Recorder.litmusEnd.done 0 = [⟨0, 0, .W, false, 0, 1⟩, ⟨0, 1, .R, true, 2, 2⟩] ∧
      Recorder.litmusEnd.done 1 = [⟨1, 0, .W, true, 0, 2⟩, ⟨1, 1, .R, false, 2, 1⟩] := by
  obtain ⟨fin, sorted, files, readers, -, -, -, -, hrep⟩ :=
    record_replay .rtmseq (listQueue _ queEnt_comparison) (by decide) (by decide)
      Recorder.litmus_reach Recorder.litmus_finished (fun _ _ => true) (by decide)
  exact ⟨_, _, hrep, by decide, by decide⟩

end MemOrder
