/-
# Which recorded runs the rtmcommit pipeline accepts

After a recorded run `merge-commit` opens the log of every thread, merges them and writes the commit
log, and `mem_init` of the replayer opens that.  Every program on the way has a place for a log with
nothing in it: `open_mapped_log_path` marks a missing file as empty, `merge_commit` skips a log
without a first stamp, and `read_next_thr` returns at the end of the log.  But a thread that commits
no block does not leave its log away.  `mem_init_thr` has created the file and `mem_finish_thr`
truncates it to length 0 -- and of an empty file there is no mapping, which `open_mapped_log_path`
takes for a failure and exits.

So the pipeline goes through exactly when every thread has made an access, and there is a thread.
-/
import MemOrder.Commit.Reproduce
import MemOrder.Log.MappedLog

namespace MemOrder.Commit

open KMerge

/-! ## 1. A log that was written and one that was not

On the bytes of the file: what `unmap_truncate_log` leaves, and what `open_mapped_log_path` does
with it. -/

section Written

variable {B addr : Nat}

/-- **A log can be opened again unless nothing was written to it**, whatever addresses the system
chooses. -/
theorem open_truncated (hB : MappedLog.BufferSize B) (ha : addr % MappedLog.pageSize = 0)
    (es : List MappedLog.Entry) (hes : ∀ e ∈ es, e.addr % MappedLog.pageSize = 0 ∧
      1 ≤ e.bytes.length ∧ e.bytes.length ≤ MappedLog.pageSize) :
    ∃ log₀ log log', MappedLog.newMappedLogPath B addr = .ok log₀ ∧
      MappedLog.appendAll B log₀ es = .ok log ∧ MappedLog.unmapTruncateLog log = some log' ∧
      ∀ addr', (es = [] → MappedLog.openMappedLogPath addr' log'.file = .error .exit) ∧
        (es ≠ [] → ∃ rlog, MappedLog.openMappedLogPath addr' log'.file = .ok rlog) := by
  obtain ⟨log₀, hnew, hinv₀⟩ := MappedLog.newMappedLogPath_ok hB ha
  obtain ⟨log, off, len, hrun, hinv⟩ := hinv₀.appendAll hB
    (fun e he => ⟨(hes e he).1, (hes e he).2.2⟩)
  obtain ⟨log', htrunc, hfile⟩ := hinv.unmapTruncate
  refine ⟨log₀, log, log', hnew, hrun, htrunc, ?_⟩
  intro addr'
  rw [hfile, List.nil_append]
  constructor
  · rintro rfl
    rfl
  · intro hne
    have hbytes : MappedLog.contents es ≠ [] := by
      obtain ⟨e, rest, rfl⟩ := List.exists_cons_of_ne_nil hne
      have hpos := (hes e List.mem_cons_self).2.1
      intro hnil
      have hlen := congrArg List.length hnil
      rw [MappedLog.contents, List.flatMap_cons, List.length_append, List.length_nil] at hlen
      omega
    obtain ⟨rlog, hopen, -⟩ := MappedLog.openMappedLogPath_ok addr' hbytes
    exact ⟨rlog, hopen⟩

end Written

/-! ## 2. The pipeline

On the entries of the logs, where an empty file is an error by the section before. -/

section Pipeline

variable {Addr : Type} [DecidableEq Addr]

/-- `mem_init` of the replayer on the commit log, `none` if there is no such file: `open_mapped_log_path`,
and `read_next_thr`, which leaves `g_next_thr` at 0 when there is nothing to read. -/
def Replay.memInitFile (m₀ : Addr → Val) (file : Option (List Int)) :
    Except Stop (Replay.State Addr) := do
  let log ← openMappedLog file
  match log.getD [] with
  | [] => return ⟨m₀, 0, 0, fun _ => .start, fun _ => 0, fun _ => []⟩
  | tid :: _ => return ⟨m₀, 1, tid, fun _ => .start, fun _ => 0, fun _ => []⟩

/-- `merge-commit` on the logs of a recorded run, then `mem_init` of the replayer on what it
writes. -/
def commitPipeline (P : PQueue Merge.QEnt Merge.QEnt.gt) (nthr : Nat) (m₀ : Addr → Val)
    (r : Record.State Addr) : Except Stop (Replay.State Addr) := do
  let commit ← Merge.main P nthr (fun t => some (r.log t))
  Replay.memInitFile m₀ (some commit)

omit [DecidableEq Addr] in
/-- The replayer's model starts where `mem_init` gets to. -/
theorem memInitFile_eq (m₀ : Addr → Val) (log : List Int) :
    Replay.memInitFile m₀ (some log)
      = match Replay.memInit m₀ log with
        | some s => .ok s
        | none => .error .exit := by
  cases log with
  | nil => rfl
  | cons tid tids => rfl

/-- `merge-commit` does not get past an empty log. -/
theorem main_opens {P : PQueue Merge.QEnt Merge.QEnt.gt} {nthr : Nat} {file : Nat → Option (List Nat)}
    {commit : List Int} (h : Merge.main P nthr file = .ok commit) :
    ∀ t < nthr, file t ≠ some [] := by
  intro t ht hnil
  unfold Merge.main at h
  cases hopen : (List.range nthr).mapM (fun i => openMappedLog (file i)) with
  | error e => rw [hopen] at h; cases h
  | ok log =>
    obtain ⟨y, hy⟩ := mapM_ok_mem hopen t (List.mem_range.mpr ht)
    rw [hnil] at hy
    cases hy

/-- Without a thread the commit log is empty. -/
theorem main_zero (P : PQueue Merge.QEnt Merge.QEnt.gt) (file : Nat → Option (List Nat)) :
    Merge.main P 0 file = .ok [] := by
  obtain ⟨out, hout, hm⟩ := Merge.mergeCommit_merges P [] (by decide)
  have hnil : out = [] := List.perm_nil.mp hm.perm
  subst hnil
  have htid : tidT (0 : Nat) = (([] : List (Option (List Nat))).length : Int) := by decide
  unfold Merge.main
  rw [htid]
  simp only [List.range_zero, List.mapM_nil, pure_bind, hout]
  rfl

/-! ## 3. The runs that are accepted

The threads' programs make a fixed number of accesses here, so that the condition can be read off
the programs. -/

variable {nthr : Nat} {n : Nat → Nat} {prog : Nat → Prog Addr} {m₀ : Addr → Val}
  {r : Record.State Addr}

/-- The log of a thread without accesses. -/
theorem log_eq_nil (hc : Counted prog n) (hr : (Record.sys nthr prog m₀).Reach r)
    (hf : ∀ t < nthr, Record.Finished prog r t) {t : Nat} (h0 : n t = 0) : r.log t = [] := by
  obtain ⟨-, hlog, -, ho⟩ := Record.complete_run hr hf
  have hlen : ((serial prog m₀ r.order).done t).length = 0 := by
    rw [hc.length_serial, h0, Nat.zero_min]
  have hcount := (ho.count t).2
  rw [hlen] at hcount
  rw [hlog]
  refine List.length_eq_zero_iff.mp ?_
  rw [Record.stamps_length, ← hcount]
  rfl

/-- Where every thread has made an access the pipeline goes through, with the first block's thread
up first. -/
theorem commitPipeline_ok (P : PQueue Merge.QEnt Merge.QEnt.gt) (hn : nthr ≤ 127)
    (hc : Counted prog n) (hr : (Record.sys nthr prog m₀).Reach r)
    (hf : ∀ t < nthr, Record.Finished prog r t) (hpos : 0 < nthr) (hall : ∀ t < nthr, 0 < n t) :
    ∃ s, commitPipeline P nthr m₀ r = .ok s := by
  obtain ⟨hcfg, hlog, hlt, ho⟩ := Record.complete_run hr hf
  have hne : ∀ t < nthr, Record.stamps r.order t ≠ [] := by
    intro t ht
    refine stamps_ne_nil ho ?_ ?_
    · rw [← hcfg]
      exact (hf t ht).2
    · rw [Ne, hc]
      exact Nat.not_le.mpr (hall t ht)
  have horder : r.order ≠ [] := by
    intro hnil
    refine hne 0 hpos ?_
    rw [hnil]
    rfl
  obtain ⟨u, us, hus⟩ := List.exists_cons_of_ne_nil horder
  rw [commitPipeline, show r.log = Record.stamps r.order from funext hlog,
    Merge.main_stamps P hlt hn hne, ok_bind, memInitFile_eq, hus]
  exact ⟨_, rfl⟩

/-- **The pipeline accepts a recorded run exactly if there is a thread and every thread has made an
access.**  A thread without one leaves an empty log, which `merge-commit` cannot open; without a
thread the commit log is empty, and the replayer cannot open it. -/
theorem commitPipeline_accepts_iff (P : PQueue Merge.QEnt Merge.QEnt.gt) (hn : nthr ≤ 127)
    (hc : Counted prog n) (hr : (Record.sys nthr prog m₀).Reach r)
    (hf : ∀ t < nthr, Record.Finished prog r t) :
    (∃ s, commitPipeline P nthr m₀ r = .ok s) ↔ 0 < nthr ∧ ∀ t < nthr, 0 < n t := by
  constructor
  · rintro ⟨s, hs⟩
    unfold commitPipeline at hs
    cases hmain : Merge.main P nthr (fun t => some (r.log t)) with
    | error e => rw [hmain] at hs; cases hs
    | ok commit =>
      rw [hmain, ok_bind] at hs
      constructor
      · refine Nat.pos_of_ne_zero ?_
        rintro rfl
        rw [main_zero] at hmain
        cases hmain
        cases hs
      · intro t ht
        refine Nat.pos_of_ne_zero ?_
        intro h0
        exact main_opens hmain t ht (congrArg some (log_eq_nil hc hr hf h0))
  · rintro ⟨hpos, hall⟩
    exact commitPipeline_ok P hn hc hr hf hpos hall

end Pipeline

/-- Eight reads and a write. -/
theorem commitPipeline_accepts_eight : ∃ r : Record.State Unit,
    (Record.sys 2 (readsAndWrite 8) (fun _ => 0)).Reach r ∧
      ∃ s, commitPipeline (listQueue _ Merge.qent_comparison) 2 (fun _ => 0) r = .ok s := by
  obtain ⟨r, hr, hf, -⟩ := exists_readsAndWrite 1
  refine ⟨r, hr, (commitPipeline_accepts_iff _ (by decide) (counted_readsAndWrite _) hr hf).mpr
    ⟨by decide, by decide⟩⟩

/-- **A thread that makes no access stops the pipeline.**  Thread 0 finishes without one and thread 1
writes once; `merge-commit` exits on the log of thread 0. -/
theorem commitPipeline_exits : ∃ r : Record.State Unit,
    (Record.sys 2 (readsAndWrite 0) (fun _ => 0)).Reach r ∧
      (∀ t < 2, Record.Finished (readsAndWrite 0) r t) ∧
      commitPipeline (listQueue _ Merge.qent_comparison) 2 (fun _ => 0) r = .error .exit := by
  have hc := counted_readsAndWrite 0
  have hopens : Opens (readsAndWrite 0) (fun _ => 0) [1] := hc.opens (by decide)
  obtain ⟨r, hr, hord, hcfg, -, hidle⟩ := Record.exists_run
    (show ∀ t ∈ [1], t < 2 by decide) hopens
  have hf : ∀ t < 2, Record.Finished (readsAndWrite 0) r t := by
    intro t ht
    refine ⟨hidle t, ?_⟩
    rw [hc.next_eq_none, hcfg, hc.length_serial]
    match t, ht with
    | 0, _ => decide
    | 1, _ => decide
  refine ⟨r, hr, hf, ?_⟩
  have hnil : r.log 0 = [] := log_eq_nil hc hr hf rfl
  have hopen : openMappedLog ((fun t => some (r.log t)) 0) = .error .exit := by
    simp only [hnil]
    rfl
  unfold commitPipeline Merge.main
  rw [show List.range 2 = [0, 1] from rfl, List.mapM_cons, hopen]
  rfl

end MemOrder.Commit
