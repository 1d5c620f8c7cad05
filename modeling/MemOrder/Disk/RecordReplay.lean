/-
# Record and replay through files

The logs of a recorded run as they are on disk, and the way from there to the replay.  The counters
and versions are `long`s and the objects `int`s on disk; what a run of fewer than 2^62 accesses logs
fits (`waitVersion_fits`, `waitMemop_fits`), so nothing is lost on the way.  The replayer,
`reorder-memop` and the dump scripts read what the thread has logged (`logs_on_disk`), and the files
that `merge-memop` makes lead the replayer to the results and the memory of the recorded run
(`disk_record_replay`).

Three things known before are put together here.

* **What the recorder has logged** is known as lists (`recordThr_exact`, and `Recorder` for the
  recorders): the version log ends with one sentinel, the wait_memop log too.
* **How a list becomes a file and a file a list again** is known of `log.c` and of each `struct`
  (`Disk/Write.lean`, `Disk/Read.lean`): the file holds the records, with anything in the padding.
* **What the tools do with lists** is known from the pipeline (`Log/Pipeline.lean`) and the replay
  theorem (`RecordReplay.lean`).

The link between them is that values survive: a value that fits its field is read back as it was
written.  The bounds of the theorems are those under which everything fits: 2^62 accesses for the
`long`s (a version is at most twice the number of writes), 2^31 objects for the `int` object number,
2^31 entries for the `int` positions of the index, 127 threads for the `tid_t`.
-/
import MemOrder.Disk.Dump
import MemOrder.Disk.Read
import MemOrder.RecordReplay

namespace MemOrder.Disk

open CStruct MappedLog Memop KMerge Classes

variable {Addr : Type} [DecidableEq Addr] {L : Layout Addr} {nthr : Nat} {prog : Nat → Prog Addr}
  {m₀ : Addr → Val}

/-! ## 1. What is logged fits

Numbers of accesses and versions are bounded by the length of the run, and so are the entries, which
hold nothing else (but for the sentinels, which are -1). -/

omit [DecidableEq Addr] in
/-- An entry of the version log is about an access of the thread. -/
theorem record_waitVersion_sound {es : List (Event Addr)} (hn : Numbered es) {w : WaitVersion}
    (hw : w ∈ (record L es).waitVersion) :
    ∃ e ∈ es, (e.memop : Int) = w.memop ∧ e.version = w.version := by
  induction es using List.reverseRecOn with
  | nil => cases hw
  | append_singleton es e ih =>
    rw [record_snoc, access_waitVersion, record_memop] at hw
    rcases List.mem_append.mp hw with hw | hw
    · obtain ⟨x, hx, h1⟩ := ih hn.of_append hw
      exact ⟨x, List.mem_append_left _ hx, h1⟩
    · split at hw
      · rw [List.mem_singleton] at hw
        refine ⟨e, by simp, ?_⟩
        rw [hw, hn.last]
        exact ⟨rfl, rfl⟩
      · cases hw

/-- The accesses of the threads together are those of the run. -/
theorem length_threads (R : Run L nthr prog m₀) :
    ((List.range nthr).flatMap (fun t => thread t R.trace)).length = R.trace.length :=
  (length_classes ..).trans (before_eq_length R.tid_lt)

/-- A version is at most twice the number of accesses. -/
theorem version_le {tr : List (Event Addr)} (h : Legal L m₀ tr) {e : Event Addr} (he : e ∈ tr) :
    e.version ≤ 2 * tr.length := by
  obtain ⟨pre, post, heq⟩ := List.append_of_mem he
  have hle : (writesTo L (L.obj e) pre).length ≤ pre.length := List.length_filter_le _ _
  have hlen := congrArg List.length heq
  rw [List.length_append] at hlen
  rw [h.version_split heq]
  omega

section Fit

variable {R : Run L nthr prog m₀} (hlen : R.trace.length < 2 ^ 62)

include hlen

/-- The number and the version of an access fit a `long`. -/
theorem event_fits {t : Nat} {e : Event Addr} (he : e ∈ thread t R.trace) :
    long.Fits e.version ∧ long.Fits e.memop := by
  have hmem := (mem_thread.mp he).1
  have h1 := version_le R.legal hmem
  have h2 := R.legal.version_nonneg hmem
  have h3 := (R.legal.numbered t).memop_lt he
  have h4 : (thread t R.trace).length ≤ R.trace.length := List.length_filter_le _ _
  exact ⟨fits_long (by omega) (by omega), fits_long (by omega) (by omega)⟩

/-- **The version log fits its fields**, sentinel included. -/
theorem waitVersion_fits (t : Nat) :
    ∀ w ∈ (recordThr L (thread t R.trace)).waitVersion, waitVersion.Fits w := by
  intro w hw
  rw [recordThr_waitVersion, List.mem_append, List.mem_singleton] at hw
  rcases hw with hw | rfl
  · obtain ⟨e, he, hm, hv⟩ := record_waitVersion_sound (R.legal.numbered t) hw
    have hfit := event_fits hlen he
    rw [hm, hv] at hfit
    exact fits_waitVersion.mpr hfit.symm
  · exact fits_waitVersion.mpr (by decide)

/-- The entries for reads: an object, a version and a number of an access. -/
theorem memopEntries_fit (hobj : L.nobj < 2 ^ 31) (t : Nat) :
    ∀ w ∈ memopEntries L (thread t R.trace), waitMemop.Fits w := by
  intro w hw
  obtain ⟨e, he, -, ho, hv, hm⟩ := memopEntries_sound (R.legal.numbered t) hw
  have hfit := event_fits hlen he
  have hlt : L.obj e < L.nobj := L.calcObjid_lt e.addr
  rw [hv, hm] at hfit
  exact fits_waitMemop.mpr ⟨fits_int (by omega) (by omega), hfit⟩

/-- **The wait_memop log fits its fields**, sentinel included. -/
theorem waitMemop_fits (hobj : L.nobj < 2 ^ 31) (t : Nat) :
    ∀ w ∈ (recordThr L (thread t R.trace)).waitMemop, waitMemop.Fits w := by
  intro w hw
  rw [recordThr_waitMemop, List.mem_append, List.mem_singleton] at hw
  rcases hw with hw | rfl
  · exact memopEntries_fit hlen hobj t w hw
  · exact fits_waitMemop.mpr (by decide)

end Fit

/-! ## 2. The logs of a thread

A log is written entry by entry through the mapping, which moves on when it is full, and is
truncated to what was written.  The version log is read by `next_wait_version_log`, entry by entry,
and at the sentinel the thread keeps `memop` -1 whatever is read after it; the wait_memop log is
read by `reorder-memop`. -/

/-- Calls of `next_wait_version_log`, one after the other. -/
def versionCalls : Nat → Log → WaitVersion → Except Stop (Log × WaitVersion)
  | 0, log, waitVer => .ok (log, waitVer)
  | n + 1, log, waitVer => do
    let r ← nextWaitVersionLog log waitVer
    versionCalls n r.1 r.2

/-- The calls give the entries, then `memop` -1 for ever, and none of them reads outside the file. -/
theorem versionCalls_ok {vs : List WaitVersion} {mark : WaitVersion} {file : List UInt8}
    (hvs : ∀ w ∈ vs, w.memop ≠ -1) (hmark : mark.memop = -1) (h : waitVersion.Holds file (vs ++ [mark]))
    (n : Nat) {i : Nat} (hi : i ≤ vs.length) {log : Log} (waitVer : WaitVersion)
    (hat : ReadAt file (i * waitVersion.size) log) :
    ∃ log' waitVer', versionCalls (n + 1) log waitVer = .ok (log', waitVer') ∧
      (∀ w, vs[i + n]? = some w → waitVer' = w) ∧ (vs.length ≤ i + n → waitVer'.memop = -1) := by
  induction n generalizing i log waitVer with
  | zero =>
    have hcall := nextWaitVersionLog_at h hat (by simp; omega) waitVer
    rw [versionCalls, hcall, ok_bind]
    rcases Nat.lt_or_eq_of_le hi with hlt | rfl
    · rw [List.getElem_append_left hlt, if_neg (hvs _ (List.getElem_mem hlt))]
      refine ⟨_, _, rfl, ?_, fun hle => absurd hle (by omega)⟩
      intro w hw
      rw [Nat.add_zero, List.getElem?_eq_getElem hlt] at hw
      exact Option.some.inj hw
    · have hend : (vs ++ [mark])[vs.length] = mark := by simp
      rw [hend, if_pos hmark]
      refine ⟨_, _, rfl, ?_, fun _ => rfl⟩
      intro w hw
      rw [Nat.add_zero, List.getElem?_eq_none (Nat.le_refl _)] at hw
      cases hw
  | succ n ih =>
    have hcall := nextWaitVersionLog_at h hat (by simp; omega) waitVer
    rw [versionCalls, hcall, ok_bind]
    rcases Nat.lt_or_eq_of_le hi with hlt | rfl
    · rw [List.getElem_append_left hlt, if_neg (hvs _ (List.getElem_mem hlt))]
      have hat' : ReadAt file ((i + 1) * waitVersion.size)
          { log with buf := log.start + (i + 1) * waitVersion.size } :=
        ⟨hat.map, hat.file_eq, hat.end_eq, rfl⟩
      have hnext := ih (i := i + 1) hlt vs[i] hat'
      rw [Nat.add_right_comm] at hnext
      exact hnext
    -- at the end marker every further call stays there
    · have hend : (vs ++ [mark])[vs.length] = mark := by simp
      rw [hend, if_pos hmark]
      have hnext := ih (Nat.le_refl _) { waitVer with memop := -1 } hat
      obtain ⟨log', waitVer', hok, -, hlast⟩ := hnext
      refine ⟨log', waitVer', hok, ?_, fun _ => hlast (by omega)⟩
      intro w hw
      rw [List.getElem?_eq_none (by omega)] at hw
      cases hw

section Files

variable {R : Run L nthr prog m₀} (hlen : R.trace.length < 2 ^ 62) {B : Nat} {mm : Nat → Nat}
  (hB : BufferSize B) (hmm : ∀ n, mm n % pageSize = 0)

include hlen hB hmm

/-- **The version log of a thread**: it is written, its file holds the entries and the sentinel, the
replayer reads them back one by one, and the dump script prints the entries. -/
theorem versionLog_ok (t : Nat) :
    ∃ version, writeLog B mm (logWaitVersion B mm) (recordThr L (thread t R.trace)).waitVersion =
        .ok version ∧
      waitVersion.Holds version (recordThr L (thread t R.trace)).waitVersion ∧
      (∀ addr n waitVer, ∃ log log' waitVer', openMappedLogPath addr version = .ok log ∧
        versionCalls (n + 1) log waitVer = .ok (log', waitVer') ∧
        (∀ w, (record L (thread t R.trace)).waitVersion[n]? = some w → waitVer' = w) ∧
        ((record L (thread t R.trace)).waitVersion.length ≤ n → waitVer'.memop = -1)) ∧
      dumpVersion version = .ok ((record L (thread t R.trace)).waitVersion.mapIdx
        (fun i w => versionLine i [w.memop, w.version])) := by
  obtain ⟨version, hwrite, hholds⟩ := writeLog_holds hB hmm (by decide) (waitVersion_fits hlen t)
  refine ⟨version, hwrite, hholds, ?_⟩
  have hmemop : ∀ w ∈ (record L (thread t R.trace)).waitVersion, w.memop ≠ -1 := by
    intro w hw
    obtain ⟨e, -, hm, -⟩ := record_waitVersion_sound (R.legal.numbered t) hw
    omega
  rw [recordThr_waitVersion] at hholds
  refine ⟨?_, dumpVersion_eq hmemop rfl hholds⟩
  intro addr n waitVer
  have hne : version ≠ [] := mt (holds_eq_nil hholds (by decide)).mp (by simp)
  obtain ⟨log', waitVer', hcalls, hget, hlast⟩ :=
    versionCalls_ok hmemop rfl hholds n (Nat.zero_le _) waitVer (readAt_open addr version)
  rw [Nat.zero_add] at hget hlast
  refine ⟨_, log', waitVer', ?_, hcalls, hget, hlast⟩
  rw [openMappedLogPath_eq, if_neg hne]

/-- **The wait_memop log of a thread**: it is written, its file holds the entries and the sentinel,
`reorder-memop` groups the entries by object, and the dump script prints them. -/
theorem memopLog_ok (hobj : L.nobj < 2 ^ 31) (t : Nat) :
    ∃ memop, writeLog B mm (logOtherWaitMemop B mm) (recordThr L (thread t R.trace)).waitMemop =
        .ok memop ∧
      waitMemop.Holds memop (recordThr L (thread t R.trace)).waitMemop ∧
      (∀ addr, reorderMain L.nobj addr memop = .ok (grouped L.nobj (runEntries L R.trace) t)) ∧
      dumpMemop memop = .ok ((runEntries L R.trace t).mapIdx
        (fun i w => memopLine i [w.objid, 0, w.version, w.memop])) := by
  obtain ⟨memop, hwrite, hholds⟩ := writeLog_holds hB hmm (by decide) (waitMemop_fits hlen hobj t)
  refine ⟨memop, hwrite, hholds, ?_⟩
  have hvalid := runEntries_valid R.legal t
  rw [recordThr_waitMemop] at hholds
  refine ⟨?_, dumpMemop_eq ?_ rfl hholds⟩
  · intro addr
    rw [reorderMain_eq hholds]
    exact reorderMain_ok rfl hvalid
  · intro w hw
    have := (hvalid w hw).1
    omega

end Files

/-- **The logs on disk.**  When a complete run of any of the recorders has written its logs through the
mappings, the version log of a thread gives `next_wait_version_log` its entries one by one and then
the end for ever, `reorder-memop` groups the entries of its wait_memop log and needs no file for none,
and the dump scripts print a line for each entry. -/
theorem logs_on_disk (k : Recorder) {s : Seqlock.State Addr}
    (hr : (Recorder.sys k L nthr prog m₀).Reach s) (hf : ∀ t < nthr, Recorder.Finished prog s t)
    (hobj : L.nobj < 2 ^ 31) (hlen : ((List.range nthr).flatMap s.done).length < 2 ^ 62)
    (inRtm : Nat → Bool) (t : Nat) {B : Nat} (mm mm' : Nat → Nat) (hB : BufferSize B)
    (hmm : ∀ n, mm n % pageSize = 0) (hmm' : ∀ n, mm' n % pageSize = 0) :
    ∃ fin vs es version memop,
      k.files L inRtm (s.done t) = some fin ∧
      fin.waitVersion = vs ++ [⟨-1, -1⟩] ∧ fin.waitMemop = es ++ [⟨-1, -1, -1⟩] ∧
      writeLog B mm (logWaitVersion B mm) fin.waitVersion = .ok version ∧
      writeLog B mm' (logOtherWaitMemop B mm') fin.waitMemop = .ok memop ∧
      version.length = fin.waitVersion.length * 16 ∧ memop.length = fin.waitMemop.length * 24 ∧
      (∀ addr n waitVer, ∃ log log' waitVer', openMappedLogPath addr version = .ok log ∧
        versionCalls (n + 1) log waitVer = .ok (log', waitVer') ∧
        (∀ w, vs[n]? = some w → waitVer' = w) ∧ (vs.length ≤ n → waitVer'.memop = -1)) ∧
      (∀ addr, reorderMain L.nobj addr memop =
        .ok (if es = [] then none else some (classes key L.nobj es))) ∧
      dumpVersion version = .ok (vs.mapIdx (fun i w => versionLine i [w.memop, w.version])) ∧
      dumpMemop memop =
        .ok (es.mapIdx (fun i w => memopLine i [w.objid, 0, w.version, w.memop])) := by
  obtain ⟨R, hdone, -⟩ := Recorder.exists_run hr hf
  have hlen' : R.trace.length < 2 ^ 62 := by
    rw [← length_threads R]
    simpa only [hdone] using hlen
  obtain ⟨fin, hfin, hversion, hmemop⟩ : ∃ fin, k.files L inRtm (thread t R.trace) = some fin ∧
      fin.waitVersion = (recordThr L (thread t R.trace)).waitVersion ∧
      fin.waitMemop = (recordThr L (thread t R.trace)).waitMemop := Recorder.files_eq (R.legal.seen t)
  obtain ⟨version, hwrite, hholds, hcalls, hdump⟩ := versionLog_ok hlen' hB hmm t
  obtain ⟨memop, hwrite', hholds', hreorder, hdump'⟩ := memopLog_ok hlen' hB hmm' hobj t
  rw [hdone] at hfin
  rw [← hversion] at hwrite hholds
  rw [← hmemop] at hwrite' hholds'
  exact ⟨fin, _, _, version, memop, hfin, hversion.trans (recordThr_waitVersion _),
    hmemop.trans (recordThr_waitMemop _), hwrite, hwrite', hholds.length_eq, hholds'.length_eq, hcalls,
    hreorder, hdump, hdump'⟩

/-- Thread 1 waits for version 2 before its access 1, a read of object 0. -/
theorem logs_on_disk_litmus : ∃ fin version memop,
    Recorder.files .rtmseq pairLayout (fun _ => true) (Recorder.litmusEnd.done 1) = some fin ∧
      fin.waitVersion = [⟨1, 2⟩, ⟨-1, -1⟩] ∧ fin.waitMemop = [⟨0, 2, 1⟩, ⟨-1, -1, -1⟩] ∧
      writeLog 4096 (fun _ => 8192) (logWaitVersion 4096 fun _ => 8192) fin.waitVersion = .ok version ∧
      writeLog 4096 (fun _ => 8192) (logOtherWaitMemop 4096 fun _ => 8192) fin.waitMemop = .ok memop ∧
      version.length = 32 ∧ memop.length = 48 ∧
      ∀ addr, reorderMain 2 addr memop = .ok (some [⟨0, 2, 1⟩]) := by
  obtain ⟨fin, vs, es, version, memop, hfin, -, hes, hwrite, hwrite', hlen, hlen', -, hreorder, -, -⟩ :=
    logs_on_disk .rtmseq Recorder.litmus_reach Recorder.litmus_finished (by decide) (by decide)
      (fun _ => true) 1 (B := 4096) (fun _ => 8192) (fun _ => 8192) ⟨by decide, by decide, by decide⟩
      (fun _ => by decide) (fun _ => by decide)
  have hv : fin.waitVersion = [⟨1, 2⟩, ⟨-1, -1⟩] := by
    have h := congrArg (Option.map RecThr.waitVersion) hfin
    exact (Option.some.inj h).symm
  have hm : fin.waitMemop = [⟨0, 2, 1⟩, ⟨-1, -1, -1⟩] := by
    have h := congrArg (Option.map RecThr.waitMemop) hfin
    exact (Option.some.inj h).symm
  obtain rfl : es = [⟨0, 2, 1⟩] := List.append_cancel_right (hes.symm.trans hm)
  rw [hv] at hlen
  rw [hm] at hlen'
  exact ⟨fin, version, memop, hfin, hv, hm, hwrite, hwrite', hlen, hlen', hreorder⟩

/-! ## 3. From file to file

Between the programs there are files, and the padding of the records in them is whatever the writer
had in memory.  So a program is asked to do its work for every file that holds the records
(`Option.Rel c.Holds`), and such a file is shown to exist (`c.file`). -/

/-- The fields of the records are stored without loss. -/
theorem rel_file {α : Type} {c : Codec α} {as : Option (List α)} (h : ∀ a ∈ as.getD [], c.Fits a) :
    Option.Rel c.Holds (as.map c.file) as := by
  cases as with
  | none => exact .none
  | some as => exact .some (Codec.holds_file h)

/-- The records of a file are read back, whatever is in the padding. -/
theorem map_records {α : Type} {c : Codec α} (hpos : 0 < c.size) {file : Option (List UInt8)}
    {as : Option (List α)} (h : Option.Rel c.Holds file as) : file.map c.records = as := by
  cases h with
  | none => rfl
  | some h => exact congrArg some (h.records_eq hpos)

/-- `merge-memop` opens the files of the threads there are. -/
theorem mergeMain_congr (P : PQueue QueEnt QueEnt.gt) {nobj nthr : Nat}
    {f g : Nat → Option (List WaitMemop)} (h : ∀ t < nthr, f t = g t) :
    mergeMain P nobj nthr f = mergeMain P nobj nthr g := by
  have hmap : (List.range nthr).map f = (List.range nthr).map g :=
    List.map_congr_left (fun t ht => h t (List.mem_range.mp ht))
  have hopen : ∀ f : Nat → Option (List WaitMemop), (List.range nthr).mapM (fun t => openMappedLog (f t)) =
      ((List.range nthr).map f).mapM openMappedLog := by
    intro f
    rw [List.mapM_map]
    rfl
  rw [mergeMain, mergeMain, hopen f, hopen g, hmap]

section Merge

variable {R : Run L nthr prog m₀} {out : List QueEnt}
  (hm : Merges QueEnt.gt nthr
    (fun t => (classes key L.nobj (runEntries L R.trace t)).map (tagged t)) out)

include hm

/-- The merged log has as many entries as the logs together. -/
theorem length_out : out.length = ((List.range nthr).flatMap (runEntries L R.trace)).length := by
  rw [hm.perm.length_eq, pending, List.length_flatMap, List.length_flatMap]
  refine congrArg List.sum (List.map_congr_left ?_)
  intro t ht
  rw [List.length_map, length_grouped (runEntries_valid R.legal t)]

/-- What the merge writes fits its fields: versions and numbers as before, and the tids fit a
`tid_t`. -/
theorem entry_fits (hlen : R.trace.length < 2 ^ 62) (hobj : L.nobj < 2 ^ 31) (hn : nthr ≤ 127)
    {qe : QueEnt} (hqe : qe ∈ out) : replayWaitMemop.Fits qe.entry := by
  obtain ⟨t, ht, hmem⟩ := mem_pending.mp (hm.perm.mem_iff.mp hqe)
  obtain ⟨w, hw, rfl⟩ := List.mem_map.mp hmem
  have hfit := fits_waitMemop.mp (memopEntries_fit hlen hobj t w (mem_classes.mp hw).1)
  have htid : char.Fits t := fits_char (by omega) (by omega)
  have hentry : (tagged t w).entry = ⟨w.version, w.memop, t⟩ := by
    rw [QueEnt.entry, tagged, tidT_of_lt (by omega), Int.toNat_natCast]
  rw [hentry]
  exact fits_replayWaitMemop.mpr ⟨hfit.2.1, hfit.2.2, htid⟩

end Merge

/-- A position or a count fits an `int`, and so does -1. -/
theorem indexRecord_fits {out : List QueEnt} (h : out.length < 2 ^ 31) {o : Nat} {i : Int}
    (hi : i ∈ indexRecord out o) : index.Fits i := by
  have hbefore : before qkey out o ≤ out.length := List.countP_le_length
  have hcls : (cls qkey out o).length ≤ out.length := List.length_filter_le _ _
  have hbound : -1 ≤ i ∧ i < 2 ^ 31 := by
    unfold indexRecord at hi
    split at hi <;> simp only [List.mem_cons, List.not_mem_nil, or_false] at hi <;> omega
  exact fits_index.mpr (fits_int hbound.1 hbound.2)

/-- **Record and replay, from file to file.**  A complete run of any of the recorders leaves files that
`reorder-memop`, `merge-memop` and the replayer take, whatever is in the padding of the files between
them, and every replay on what is in the files ends with the results and the memory of the recorded
run.  No value that any of the files has to hold is too large for its field. -/
theorem disk_record_replay (k : Recorder) (P : PQueue QueEnt QueEnt.gt) {s : Seqlock.State Addr}
    (hobj : 1 ≤ L.nobj) (hobj' : L.nobj < 2 ^ 31) (hn : nthr ≤ 127)
    (hr : (Recorder.sys k L nthr prog m₀).Reach s) (hf : ∀ t < nthr, Recorder.Finished prog s t)
    (hlen : ((List.range nthr).flatMap s.done).length < 2 ^ 62)
    (hcount : ((List.range nthr).flatMap
      fun t => (recordThr L (s.done t)).waitMemop).length < 2 ^ 31)
    (inRtm : Nat → Nat → Bool) {B : Nat} (mm mm' : Nat → Nat → Nat) (hB : BufferSize B)
    (hmm : ∀ t n, mm t n % pageSize = 0) (hmm' : ∀ t n, mm' t n % pageSize = 0) :
    ∃ fin : Nat → RecThr, ∃ version memop : Nat → List UInt8,
        ∃ sorted : Nat → Option (List WaitMemop), ∃ files readers,
      (∀ t, k.files L (inRtm t) (s.done t) = some (fin t) ∧
        writeLog B (mm t) (logWaitVersion B (mm t)) (fin t).waitVersion = .ok (version t) ∧
        writeLog B (mm' t) (logOtherWaitMemop B (mm' t)) (fin t).waitMemop = .ok (memop t)) ∧
      (∀ t < nthr, ∀ addr, reorderMain L.nobj addr (memop t) = .ok (sorted t)) ∧
      (∀ sortedFile : Nat → Option (List UInt8),
        (∀ t < nthr, Option.Rel waitMemop.Holds (sortedFile t) (sorted t)) →
        mergeMain P L.nobj nthr (fun t => (sortedFile t).map waitMemop.records) = .ok files) ∧
      (∀ merged indexFile, Option.Rel replayWaitMemop.Holds merged (files.map Prod.fst) →
        Option.Rel index.Holds indexFile (files.map Prod.snd) →
          (∀ addr addr', loadWaitReaderLog L.nobj addr addr' merged indexFile = .ok readers) ∧
          Reproduces L nthr prog m₀ (fun t => waitVersion.records (version t))
            (loadedSlice readers ((merged.map replayWaitMemop.records).getD []))
            (fun t => (s.done t).map Event.made) s.mem.val) ∧
      (∀ t < nthr, Option.Rel waitMemop.Holds ((sorted t).map waitMemop.file) (sorted t)) ∧
      Option.Rel replayWaitMemop.Holds ((files.map Prod.fst).map replayWaitMemop.file)
        (files.map Prod.fst) ∧
      Option.Rel index.Holds ((files.map Prod.snd).map index.file) (files.map Prod.snd) := by
  obtain ⟨R, hdone, hmem⟩ := Recorder.exists_run hr hf
  -- the bounds, in terms of the order of the run
  have hlen' : R.trace.length < 2 ^ 62 := by
    rw [← length_threads R]
    simpa only [hdone] using hlen
  have hcount' : ((List.range nthr).flatMap (runEntries L R.trace)).length < 2 ^ 31 := by
    refine Nat.lt_of_le_of_lt (runEntries_length_le _) ?_
    simpa only [hdone] using hcount
  -- what the recorder leaves, on lists and on disk
  have hfiles : ∀ t, ∃ fin, k.files L (inRtm t) (thread t R.trace) = some fin ∧
      fin.waitVersion = (recordThr L (thread t R.trace)).waitVersion ∧
      fin.waitMemop = (recordThr L (thread t R.trace)).waitMemop :=
    fun t => Recorder.files_eq (R.legal.seen t)
  choose fin hfin hversion hmemop using hfiles
  choose version hwrite hholds _ _ using fun t => versionLog_ok hlen' hB (hmm t) t
  choose memop hwrite' _ hreorder _ using fun t => memopLog_ok hlen' hB (hmm' t) hobj' t
  -- what the tools make of it
  obtain ⟨out, hm, hord, hmerge⟩ := mergeMain_ok P hobj hn (fun t _ => runEntries_valid R.legal t)
    (fun t _ => memopEntries_sorted (R.legal.seen t)) hcount'
  have hl := loaded_filesOf hn (fun t _ => runEntries_valid R.legal t) hm hord
  have hout := length_out hm
  refine ⟨fin, version, memop, grouped L.nobj (runEntries L R.trace), filesOf L.nobj out,
    (List.range L.nobj).map (readerOf out), ?_, fun t _ addr => hreorder t addr, ?_, ?_, ?_, ?_, ?_⟩
  · intro t
    rw [← hdone, hversion, hmemop]
    exact ⟨hfin t, hwrite t, hwrite' t⟩
  · intro sortedFile hsorted
    rw [← hmerge]
    exact mergeMain_congr P (fun t ht => map_records (by decide) (hsorted t ht))
  · intro merged indexFile hmerged hindex
    rw [map_records (by decide) hmerged]
    constructor
    · intro addr addr'
      rw [loadWaitReaderLog_eq hmerged hindex]
      exact loadWaitReaderLog_ok hobj out
    · have hrep := reproduces_run R (merged_of_loaded R.legal hl)
      -- the version logs are read from disk too
      have hv : ReplayTso.versionLogs L R.trace = fun t => waitVersion.records (version t) := by
        funext t
        rw [(hholds t).records_eq (by decide)]
        rfl
      rw [hv, hmem] at hrep
      simpa only [hdone] using hrep
  -- last, files that hold what the tools have computed: every value is small enough for its field
  · intro t _
    refine rel_file ?_
    intro w hw
    rw [grouped_getD] at hw
    exact memopEntries_fit hlen' hobj' t w (mem_classes.mp hw).1
  · refine rel_file ?_
    intro w hw
    unfold filesOf at hw
    split at hw
    · cases hw
    · obtain ⟨qe, hqe, rfl⟩ := List.mem_map.mp hw
      exact entry_fits hm hlen' hobj' hn hqe
  · refine rel_file ?_
    intro i hi
    unfold filesOf at hi
    split at hi
    · cases hi
    · obtain ⟨o, -, hio⟩ := List.mem_flatMap.mp hi
      exact indexRecord_fits (by omega) hio

/-- The replay of the example, on the files: thread 1's version log has one entry and the sentinel.
-/
theorem disk_record_replay_litmus : ∃ version : Nat → List UInt8, ∃ logs,
    (∀ t < 2, writeLog 4096 (fun _ => 8192) (logWaitVersion 4096 fun _ => 8192)
      [⟨1, 2⟩, ⟨-1, -1⟩] = .ok (version t)) ∧
    Reproduces pairLayout 2 Recorder.litmusProg (fun _ => 0)
      (fun t => waitVersion.records (version t)) logs
      (fun t => (Recorder.litmusEnd.done t).map Event.made) Recorder.litmusEnd.mem.val := by
  obtain ⟨fin, version, memop, sorted, files, readers, hwrite, -, -, hload, -, hmerged, hindex⟩ :=
    disk_record_replay .rtmseq (listQueue _ queEnt_comparison) (by decide) (by decide) (by decide)
      Recorder.litmus_reach Recorder.litmus_finished (by decide) (by decide) (fun _ _ => true)
      (B := 4096) (fun _ _ => 8192) (fun _ _ => 8192) ⟨by decide, by decide, by decide⟩
      (fun _ _ => by decide) (fun _ _ => by decide)
  refine ⟨version, _, ?_, (hload _ _ hmerged hindex).2⟩
  intro t ht
  have h := congrArg (Option.map RecThr.waitVersion) (hwrite t).1
  have hv : (fin t).waitVersion = [⟨1, 2⟩, ⟨-1, -1⟩] := by
    match t, ht with
    | 0, _ => exact (Option.some.inj h).symm
    | 1, _ => exact (Option.some.inj h).symm
  rw [← hv]
  exact (hwrite t).2.1

end MemOrder.Disk
