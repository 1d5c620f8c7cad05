/-
# Deferred logging (`mem-record-seqbatch.c`, `mem-record-rtmcluster.c`)

Both recorders queue what an access saw and take the logs later: when the queue is full, at the
end of a transaction, and before the thread finishes.  A queued write is marked by the
complement of its object number.  The seqlock recorder logs at once, and `mem-record-rtmseq.c` does
it in the same words.  `process_1log` is not that path run late: it brings `last->version` up to
date on a write too, where `mem_write` of the seqlock recorder leaves the version of the last
read, and it numbers an access when it is processed.

The two agree on what a run can show a thread (`Seen`).  The queue is an index discipline --
what was added and not yet processed is the front of the array (`Batched`), wherever the calls
of `batch_process_log` stand -- and the processed part is related to the immediate recorder by
`Deferred`: the same logs, the same pending reads, and a `last->version` that is the version of
the thread's previous access (`prevVersion`).
-/
import MemOrder.Record.Exact

namespace MemOrder

variable {Addr : Type}

/-! ## 1. The queue and its operations

The queue is an array and an index, as in the source; what is at the index and behind it is left
from before. -/

/-- `struct batmem_acc`: a negative `objid` marks a write. -/
structure BatmemAcc where
  objid : Int
  version : Int
deriving DecidableEq, Repr

/-- `process_1log`. -/
def RecThr.process1log (r : RecThr) (acc : BatmemAcc) : RecThr :=
  let isWrite := acc.objid < 0
  let objid := (if isWrite then ~~~acc.objid else acc.objid).toNat
  let last := r.last objid
  let r :=
    if last.version ≠ acc.version then
      let r := r.logOrder objid acc.version last
      { r with last := Function.update r.last objid { last with version := acc.version } }
    else r
  let memop : Int := if isWrite then -1 else r.memop
  { r with
    last := Function.update r.last objid { r.last objid with memop := memop }
    memop := r.memop + 1 }

/-- The recording thread with its queue: `g_batch_q` and `g_batch_idx`. -/
structure BatThr where
  thr : RecThr
  batchQ : List BatmemAcc
  batchIdx : Nat

namespace BatThr

/-- `mem_init_thr`; the thread-local array of `size` elements starts zeroed. -/
def memInitThr (size : Nat) : BatThr := ⟨RecThr.memInitThr, List.replicate size ⟨0, 0⟩, 0⟩

/-- `batch_process_log`; `none` is a read outside the array. -/
def batchProcessLog (d : BatThr) : Option BatThr := do
  let thr ← (List.range d.batchIdx).foldlM (fun r i => (d.batchQ[i]?).map r.process1log) d.thr
  some { d with thr := thr, batchIdx := 0 }

/-- `batch_add_log` with a queue of `size` elements; `none` is a write outside the array. -/
def batchAddLog (size : Nat) (d : BatThr) (objid version : Int) : Option BatThr :=
  if d.batchIdx < d.batchQ.length then
    let d := { d with batchQ := d.batchQ.set d.batchIdx ⟨objid, version⟩
                      batchIdx := d.batchIdx + 1 }
    if d.batchIdx = size then d.batchProcessLog else some d
  else none

/-- `batch_read_log`. -/
def batchReadLog (size : Nat) (d : BatThr) (objid version : Int) : Option BatThr :=
  d.batchAddLog size objid version

/-- `batch_write_log`. -/
def batchWriteLog (size : Nat) (d : BatThr) (objid version : Int) : Option BatThr :=
  d.batchAddLog size (~~~objid) version

/-- `before_finish_thr`; closing the transaction of an unfinished block takes no log. -/
def beforeFinishThr (d : BatThr) : Option BatThr := d.batchProcessLog

/-- `mem_finish_thr`: the common part of `mem-record.c` after `before_finish_thr`. -/
def memFinishThr (d : BatThr) (nobj : Nat) : Option RecThr :=
  d.beforeFinishThr.map (fun d => d.thr.memFinishThr nobj)

end BatThr

/-- What a thread does to its queue: an access queues its version, and a transaction's end
processes the queue. -/
inductive BatCall (Addr : Type)
  | access (e : Event Addr)
  | process

/-- The accesses among the calls. -/
def accesses (cs : List (BatCall Addr)) : List (Event Addr) :=
  cs.filterMap fun
    | .access e => some e
    | .process => none

def BatThr.call (L : Layout Addr) (size : Nat) (d : BatThr) : BatCall Addr → Option BatThr
  | .access e =>
    match e.op with
    | .R => d.batchReadLog size (L.obj e) e.version
    | .W => d.batchWriteLog size (L.obj e) e.version
  | .process => d.batchProcessLog

/-- The thread after the calls `cs`. -/
def batRun (L : Layout Addr) (size : Nat) (cs : List (BatCall Addr)) : Option BatThr :=
  cs.foldlM (BatThr.call L size) (BatThr.memInitThr size)

/-- `BATCH_LOG_SIZE` of `mem-record-seqbatch.c`. -/
def batchLogSize : Nat := 97

/-- The calls of `mem-record-seqbatch.c`: the accesses, and nothing in between. -/
def seqbatchCalls (es : List (Event Addr)) : List (BatCall Addr) := es.map .access

/-- The calls of `mem-record-rtmcluster.c`, whose queue has `RTM_BATCH_N` elements: the last access
of a block processes the queue, if the block's transaction has not fallen back (`inRtm`).  Before
access `n` of the thread `g_sim_bbcnt` is `n` as an `int`: past 2^31 accesses it is negative, its
remainder is never `RTM_BATCH_N - 1`, and the queue is processed when it is full.  Where exactly the
blocks end does not matter below. -/
def rtmclusterCalls (inRtm : Nat → Bool) (es : List (Event Addr)) : List (BatCall Addr) :=
  es.zipIdx.flatMap fun (e, n) =>
    if inRtm n && (int32 n).tmod rtmBatchN == (rtmBatchN : Int) - 1 then [.access e, .process]
    else [.access e]

/-! ## 2. What processing one access does

The four parts of the state again, next to those of `access` in `MemOrder.Record`.  They differ in
`process1log_last` alone. -/

/-- The queue element of an access. -/
def batmemAcc (L : Layout Addr) (e : Event Addr) : BatmemAcc :=
  match e.op with
  | .R => ⟨L.obj e, e.version⟩
  | .W => ⟨~~~(L.obj e : Int), e.version⟩

section Process

variable {L : Layout Addr} {r : RecThr} {e : Event Addr}

/-- **The mark is read back**: processing finds the object and the kind of the access. -/
theorem process1log_batmemAcc :
    r.process1log (batmemAcc L e) =
      let objid := L.obj e
      let last := r.last objid
      let r :=
        if last.version ≠ e.version then
          let r := r.logOrder objid e.version last
          { r with last := Function.update r.last objid { last with version := e.version } }
        else r
      let memop : Int := match e.op with
        | .R => r.memop
        | .W => -1
      { r with
        last := Function.update r.last objid { r.last objid with memop := memop }
        memop := r.memop + 1 } := by
  unfold RecThr.process1log batmemAcc
  cases e.op with
  | R =>
    have hpos : ¬ ((L.obj e : Int) < 0) := by omega
    simp only [hpos, if_false, Int.toNat_natCast]
  | W =>
    have hneg : ~~~(L.obj e : Int) < 0 := Int.negSucc_lt_zero _
    have hnot : ~~~(~~~(L.obj e : Int)) = L.obj e := rfl
    simp only [hneg, if_true, hnot, Int.toNat_natCast]

/-- An access is counted when it is processed. -/
theorem process1log_memop : (r.process1log (batmemAcc L e)).memop = r.memop + 1 := by
  rw [process1log_batmemAcc]
  dsimp only
  split <;> simp

/-- The version log, as for the immediate recorder. -/
theorem process1log_waitVersion :
    (r.process1log (batmemAcc L e)).waitVersion = r.waitVersion ++
      if (r.last (L.obj e)).version ≠ e.version then [⟨r.memop, e.version⟩] else [] := by
  rw [process1log_batmemAcc]
  dsimp only
  split <;> simp

/-- The memop log, as for the immediate recorder. -/
theorem process1log_waitMemop :
    (r.process1log (batmemAcc L e)).waitMemop = r.waitMemop ++
      if (r.last (L.obj e)).version ≠ e.version ∧ 0 ≤ (r.last (L.obj e)).memop then
        [⟨L.obj e, (r.last (L.obj e)).version, (r.last (L.obj e)).memop⟩] else [] := by
  rw [process1log_batmemAcc]
  dsimp only
  split <;> simp [*]

/-- Unlike `mem_write`, a processed write leaves its own version in `last->version`. -/
theorem process1log_last (o : Nat) :
    (r.process1log (batmemAcc L e)).last o =
      if L.obj e = o then
        match e.op with
        | .R => ⟨e.version, r.memop⟩
        | .W => ⟨e.version, -1⟩
      else r.last o := by
  rw [process1log_batmemAcc]
  dsimp only
  by_cases ho : L.obj e = o
  · subst ho
    cases e.op with
    | R => split <;> simp_all
    | W => split <;> simp_all
  · rw [if_neg ho]
    split <;> simp [Function.update_of_ne (Ne.symm ho)]

end Process

/-! ## 3. The processed accesses, next to the immediate recorder

The relation does not mention the queue: it is about the accesses that have been processed, however
many these are. -/

/-- The accesses `es`, processed one after the other. -/
def processed (L : Layout Addr) (es : List (Event Addr)) : RecThr :=
  (es.map (batmemAcc L)).foldl RecThr.process1log RecThr.memInitThr

/-- The deferred recorder `d` and the immediate one `r` after the accesses `es`: one pair of logs,
one counter, the same pending reads.  `last->version` is the previous access's in `d`; in `r` it
may be behind. -/
structure Deferred (L : Layout Addr) (es : List (Event Addr)) (d r : RecThr) : Prop where
  memop : d.memop = r.memop
  waitVersion : d.waitVersion = r.waitVersion
  waitMemop : d.waitMemop = r.waitMemop
  lastMemop : ∀ o, (d.last o).memop = (r.last o).memop
  lastVersion : ∀ o, (d.last o).version = prevVersion L es o

section Sim

variable {L : Layout Addr} {es : List (Event Addr)}

/-- What some of the accesses have seen. -/
theorem Seen.sublist {fs : List (Event Addr)} (h : Seen L es) (hs : fs.Sublist es) : Seen L fs :=
  ⟨fun e he => h.nonneg e (hs.subset he), h.rising.sublist hs⟩

/-- One more access. -/
theorem processed_snoc (e : Event Addr) :
    processed L (es ++ [e]) = (processed L es).process1log (batmemAcc L e) := by
  simp [processed]

/-- One access keeps the relation.  The comparison with the up-to-date version and the one with
the stale version have the same outcome, and a read that is flushed is up to date in both. -/
theorem Deferred.step {d : RecThr} {e : Event Addr} (hd : Deferred L es d (record L es))
    (h : Seen L (es ++ [e])) :
    Deferred L (es ++ [e]) (d.process1log (batmemAcc L e)) (record L (es ++ [e])) := by
  have hver := hd.lastVersion (L.obj e)
  have hmem := hd.lastMemop (L.obj e)
  rw [record_snoc]
  constructor
  · rw [process1log_memop, access_memop, hd.memop]
  · rw [process1log_waitVersion, access_waitVersion, hd.waitVersion, hd.memop, hver]
    simp only [h.last_ne_iff]
  · rw [process1log_waitMemop, access_waitMemop, hd.waitMemop, hver, hmem]
    by_cases h0 : 0 ≤ ((record L es).last (L.obj e)).memop
    · rw [record_pending_version es _ h0]
    · rw [if_neg (fun hc => h0 hc.2), if_neg (fun hc => h0 hc.2)]
  · intro o
    rw [process1log_last, access_last]
    by_cases ho : L.obj e = o
    · rw [if_pos ho, if_pos ho]
      cases e.op with
      | R => rw [hd.memop]
      | W => rfl
    · rw [if_neg ho, if_neg ho]
      exact hd.lastMemop o
  · intro o
    rw [process1log_last, prevVersion_snoc]
    by_cases ho : L.obj e = o
    · rw [if_pos ho, if_pos ho]
      cases e.op <;> rfl
    · rw [if_neg ho, if_neg ho]
      exact hd.lastVersion o

/-- **The relation holds after any accesses that a run can show.** -/
theorem processed_deferred (h : Seen L es) : Deferred L es (processed L es) (record L es) := by
  induction es using List.reverseRecOn with
  | nil => exact ⟨rfl, rfl, rfl, fun _ => rfl, fun _ => rfl⟩
  | append_singleton es e ih =>
    rw [processed_snoc]
    exact (ih h.init).step h

/-- The processed accesses are counted. -/
theorem processed_memop (es : List (Event Addr)) : (processed L es).memop = es.length := by
  induction es using List.reverseRecOn with
  | nil => rfl
  | append_singleton es e ih => rw [processed_snoc, process1log_memop, ih]; simp

/-- The final reads are the pending ones, which both recorders have at one version. -/
theorem Deferred.finalEntries_eq {d : RecThr} (hd : Deferred L es d (record L es)) (n : Nat) :
    finalEntries d n = finalEntries (record L es) n := by
  unfold finalEntries
  congr 1
  funext o
  rw [hd.lastMemop o, hd.lastVersion o]
  by_cases h0 : 0 ≤ ((record L es).last o).memop
  · rw [record_pending_version es o h0]
  · rw [if_neg h0, if_neg h0]

/-- `mem_finish_thr` leaves the same two logs. -/
theorem Deferred.finish {d : RecThr} (hd : Deferred L es d (record L es)) :
    (d.memFinishThr L.nobj).waitVersion = (recordThr L es).waitVersion ∧
      (d.memFinishThr L.nobj).waitMemop = (recordThr L es).waitMemop := by
  constructor
  · rw [memFinishThr_waitVersion, recordThr_waitVersion, hd.waitVersion]
  · rw [memFinishThr_waitMemop, recordThr, memFinishThr_waitMemop, hd.waitMemop,
      hd.finalEntries_eq]

end Sim

/-! ## 4. The queue

What has been added and not been processed is the front of the array, up to the index. -/

section Queue

variable {L : Layout Addr} {size : Nat}

/-- The loop over the front of the array. -/
theorem foldlM_range_process (q : List BatmemAcc) (r : RecThr) (n : Nat) (hn : n ≤ q.length) :
    (List.range n).foldlM (fun r i => (q[i]?).map r.process1log) r
      = some ((q.take n).foldl RecThr.process1log r) := by
  induction n with
  | zero => rfl
  | succ n ih =>
    have hlt : n < q.length := hn
    rw [List.range_succ, List.foldlM_append, ih (Nat.le_of_lt hlt),
      List.take_succ_eq_append_getElem hlt, List.foldl_append]
    simp [List.getElem?_eq_getElem hlt]

/-- **`batch_process_log`** processes what is in front of the index, in order, and empties it. -/
theorem batchProcessLog_eq {d : BatThr} (h : d.batchIdx ≤ d.batchQ.length) :
    d.batchProcessLog = some { d with
      thr := (d.batchQ.take d.batchIdx).foldl RecThr.process1log d.thr
      batchIdx := 0 } := by
  rw [BatThr.batchProcessLog, foldlM_range_process _ _ _ h]
  rfl

/-- The thread after the accesses `es`, `k` of them processed: the others are the front of the
queue, in order, and the index has room for one more. -/
structure Batched (L : Layout Addr) (size : Nat) (es : List (Event Addr)) (k : Nat) (d : BatThr) :
    Prop where
  le : k ≤ es.length
  thr : d.thr = processed L (es.take k)
  length : d.batchQ.length = size
  idx : d.batchIdx < size
  queued : d.batchQ.take d.batchIdx = (es.drop k).map (batmemAcc L)

/-- Processing the queue leaves nothing queued, whenever it is called. -/
theorem batchProcessLog_batched {d : BatThr} {es : List (Event Addr)} {k : Nat}
    (hthr : d.thr = processed L (es.take k)) (hlen : d.batchQ.length = size) (h0 : 0 < size)
    (hidx : d.batchIdx ≤ size)
    (hq : d.batchQ.take d.batchIdx = (es.drop k).map (batmemAcc L)) :
    ∃ d', d.batchProcessLog = some d' ∧ Batched L size es es.length d' := by
  refine ⟨_, batchProcessLog_eq (by omega), ?_⟩
  constructor
  · exact Nat.le_refl _
  · rw [List.take_length, hq, hthr, processed, processed, ← List.foldl_append, ← List.map_append,
      List.take_append_drop]
  · exact hlen
  · exact h0
  · simp

/-- **Adding an access** queues it behind the others; the queue is processed when it is full. -/
theorem batchAddLog_batched {d : BatThr} {es : List (Event Addr)} {k : Nat}
    (h : Batched L size es k d) (e : Event Addr) :
    ∃ d' k', d.batchAddLog size (batmemAcc L e).objid (batmemAcc L e).version = some d' ∧
      Batched L size (es ++ [e]) k' d' := by
  have hlt : d.batchIdx < d.batchQ.length := by rw [h.length]; exact h.idx
  have hle : k ≤ (es ++ [e]).length := by
    rw [List.length_append]
    exact Nat.le_add_right_of_le h.le
  have hthr : d.thr = processed L ((es ++ [e]).take k) := by
    rw [List.take_append_of_le_length h.le]
    exact h.thr
  have hlen : (d.batchQ.set d.batchIdx (batmemAcc L e)).length = size := by
    rw [List.length_set]
    exact h.length
  have hq : (d.batchQ.set d.batchIdx (batmemAcc L e)).take (d.batchIdx + 1)
      = ((es ++ [e]).drop k).map (batmemAcc L) := by
    rw [List.drop_append_of_le_length h.le, List.map_append, ← h.queued,
      List.take_succ_eq_append_getElem (by rw [List.length_set]; exact hlt),
      List.take_set_of_le (Nat.le_refl _), List.getElem_set_self]
    rfl
  rw [BatThr.batchAddLog, if_pos hlt]
  by_cases hfull : d.batchIdx + 1 = size
  · rw [if_pos hfull]
    obtain ⟨d', hd', hb⟩ := batchProcessLog_batched
      (d := ⟨d.thr, d.batchQ.set d.batchIdx (batmemAcc L e), d.batchIdx + 1⟩) hthr hlen
      (by omega) (Nat.le_of_eq hfull) hq
    exact ⟨d', _, hd', hb⟩
  · rw [if_neg hfull]
    have hroom : d.batchIdx + 1 < size := Nat.lt_of_le_of_ne h.idx hfull
    exact ⟨_, k, rfl, hle, hthr, hlen, hroom, hq⟩

/-- Both kinds of access queue their element. -/
theorem call_access (d : BatThr) (e : Event Addr) :
    d.call L size (.access e)
      = d.batchAddLog size (batmemAcc L e).objid (batmemAcc L e).version := by
  cases hop : e.op with
  | R => simp only [BatThr.call, batmemAcc, hop, BatThr.batchReadLog]
  | W => simp only [BatThr.call, batmemAcc, hop, BatThr.batchWriteLog]

/-- The accesses of calls that go on. -/
theorem accesses_append (cs cs' : List (BatCall Addr)) :
    accesses (cs ++ cs') = accesses cs ++ accesses cs' := List.filterMap_append

/-- One call, an access or a processing of the queue. -/
theorem call_batched {d : BatThr} {cs : List (BatCall Addr)} {k : Nat}
    (h : Batched L size (accesses cs) k d) (c : BatCall Addr) :
    ∃ d' k', d.call L size c = some d' ∧ Batched L size (accesses (cs ++ [c])) k' d' := by
  cases c with
  | access e =>
    rw [accesses_append, call_access]
    exact batchAddLog_batched h e
  | process =>
    have hsame : accesses (cs ++ [.process]) = accesses cs := by
      rw [accesses_append]
      exact List.append_nil _
    have h0 : 0 < size := Nat.lt_of_le_of_lt (Nat.zero_le _) h.idx
    obtain ⟨d', hd', hb⟩ := batchProcessLog_batched h.thr h.length h0 (Nat.le_of_lt h.idx) h.queued
    rw [hsame]
    exact ⟨d', _, hd', hb⟩

/-- **Whole runs**, with any calls of `batch_process_log` among the accesses: nothing outside the
array is touched, and what is not processed is queued. -/
theorem batRun_batched (hs : 1 ≤ size) (cs : List (BatCall Addr)) :
    ∃ d k, batRun L size cs = some d ∧ Batched L size (accesses cs) k d := by
  induction cs using List.reverseRecOn with
  | nil => exact ⟨_, 0, rfl, Nat.le_refl _, rfl, List.length_replicate .., hs, rfl⟩
  | append_singleton cs c ih =>
    obtain ⟨d, k, hd, hb⟩ := ih
    obtain ⟨d', k', hd', hb'⟩ := call_batched hb c
    refine ⟨d', k', ?_, hb'⟩
    unfold batRun at hd ⊢
    rw [List.foldlM_append, hd]
    simpa using hd'

end Queue

/-! ## 5. Deferred logging is immediate logging

`before_finish_thr` processes what is still queued, so in the end everything is processed. -/

section Finish

variable {L : Layout Addr} {size : Nat}

/-- An access is processed or queued. -/
theorem Batched.idx_eq {es : List (Event Addr)} {k : Nat} {d : BatThr}
    (h : Batched L size es k d) : k + d.batchIdx = es.length := by
  have hlen := congrArg List.length h.queued
  rw [List.length_take, h.length, Nat.min_eq_left (Nat.le_of_lt h.idx), List.length_map,
    List.length_drop] at hlen
  have := h.le
  omega

/-- The finished logs, the queue included, are those of the immediate recorder. -/
theorem batRun_finish (hs : 1 ≤ size) {cs : List (BatCall Addr)} (h : Seen L (accesses cs)) :
    ∃ d fin, batRun L size cs = some d ∧ d.memFinishThr L.nobj = some fin ∧
      fin.waitVersion = (recordThr L (accesses cs)).waitVersion ∧
      fin.waitMemop = (recordThr L (accesses cs)).waitMemop := by
  obtain ⟨d, k, hd, hb⟩ := batRun_batched (L := L) hs cs
  obtain ⟨d', hd', hb'⟩ := batchProcessLog_batched hb.thr hb.length hs (Nat.le_of_lt hb.idx) hb.queued
  refine ⟨d, d'.thr.memFinishThr L.nobj, hd, ?_, ?_⟩
  · rw [BatThr.memFinishThr, BatThr.beforeFinishThr, hd']
    rfl
  · have hthr : d'.thr = processed L (accesses cs) := by rw [hb'.thr, List.take_length]
    rw [hthr]
    exact (processed_deferred h).finish

end Finish

/-- **The logs of a finished thread do not depend on when they are taken.**  For a queue of any
size and any placement of `batch_process_log`: at every point of the thread the accesses split
into a processed part, numbered as the immediate recorder numbers it and with its logs, and the
queued rest, for which the queue has room; and the two finished logs are those of the recorders
that log at once. -/
theorem batRun_immediate (L : Layout Addr) (size : Nat) (hs : 1 ≤ size) (cs : List (BatCall Addr))
    (h : Seen L (accesses cs)) :
    (∀ pre, pre <+: cs → ∃ d k, batRun L size pre = some d ∧ d.batchQ.length = size ∧
      d.batchIdx < size ∧ k + d.batchIdx = (accesses pre).length ∧
      d.batchQ.take d.batchIdx = ((accesses pre).drop k).map (batmemAcc L) ∧
      d.thr = processed L ((accesses pre).take k) ∧ d.thr.memop = k ∧
      d.thr.waitVersion = (record L ((accesses pre).take k)).waitVersion ∧
      d.thr.waitMemop = (record L ((accesses pre).take k)).waitMemop) ∧
    ∃ d fin, batRun L size cs = some d ∧ d.memFinishThr L.nobj = some fin ∧
      fin.waitVersion = (recordThr L (accesses cs)).waitVersion ∧
      fin.waitMemop = (recordThr L (accesses cs)).waitMemop := by
  refine ⟨?_, batRun_finish hs h⟩
  rintro pre ⟨post, rfl⟩
  obtain ⟨d, k, hd, hb⟩ := batRun_batched (L := L) hs pre
  have hseen : Seen L ((accesses pre).take k) := by
    refine h.sublist ?_
    rw [accesses_append]
    exact (List.take_sublist _ _).trans (List.sublist_append_left _ _)
  have hdef := processed_deferred hseen
  rw [← hb.thr] at hdef
  refine ⟨d, k, hd, hb.length, hb.idx, hb.idx_eq, hb.queued, hb.thr, ?_, hdef.waitVersion,
    hdef.waitMemop⟩
  rw [hb.thr, processed_memop, List.length_take]
  exact Nat.min_eq_left hb.le

/-- A queue of two elements, processed once by hand and once when it is full. -/
theorem batRun_immediate_two :
    let cs : List (BatCall Bool) := [.access ⟨0, 0, .R, true, 0, 5⟩, .process,
      .access ⟨0, 1, .W, true, 2, 6⟩, .access ⟨0, 2, .R, true, 4, 6⟩]
    ∃ d fin, batRun pairLayout 2 cs = some d ∧ d.memFinishThr pairLayout.nobj = some fin ∧
      fin.waitVersion = [⟨1, 2⟩, ⟨2, 4⟩, ⟨-1, -1⟩] ∧
      fin.waitMemop = [⟨1, 0, 0⟩, ⟨1, 4, 2⟩, ⟨-1, -1, -1⟩] := by
  intro cs
  have hseen : Seen pairLayout (accesses cs) := ⟨by decide, by decide⟩
  obtain ⟨-, d, fin, hd, hfin, hv, hm⟩ := batRun_immediate pairLayout 2 (by decide) cs hseen
  exact ⟨d, fin, hd, hfin, hv.trans (by decide), hm.trans (by decide)⟩

/-- `mem-record-seqbatch.c`. -/
theorem seqbatch_finish {L : Layout Addr} {es : List (Event Addr)} (h : Seen L es) :
    ∃ d fin, batRun L batchLogSize (seqbatchCalls es) = some d ∧
      d.memFinishThr L.nobj = some fin ∧ fin.waitVersion = (recordThr L es).waitVersion ∧
      fin.waitMemop = (recordThr L es).waitMemop := by
  have hcalls : accesses (seqbatchCalls es) = es := by simp [accesses, seqbatchCalls]
  rw [← hcalls] at h
  have hfin := batRun_finish (show 1 ≤ batchLogSize by decide) h
  rwa [hcalls] at hfin

/-- The calls are of the thread's accesses. -/
theorem accesses_rtmclusterCalls (inRtm : Nat → Bool) (es : List (Event Addr)) :
    accesses (rtmclusterCalls inRtm es) = es := by
  have hflat : ∀ l : List (Event Addr × Nat), accesses (l.flatMap fun (e, n) =>
      if inRtm n && (int32 n).tmod rtmBatchN == (rtmBatchN : Int) - 1 then [.access e, .process]
      else [.access e]) = l.map Prod.fst := by
    intro l
    induction l with
    | nil => rfl
    | cons p l ih =>
      obtain ⟨e, n⟩ := p
      rw [List.flatMap_cons, accesses_append, ih]
      by_cases hend : (inRtm n && (int32 n).tmod rtmBatchN == (rtmBatchN : Int) - 1) = true
      · simp [hend, accesses]
      · simp [hend, accesses]
  rw [rtmclusterCalls, hflat, List.zipIdx_map_fst]

/-- `mem-record-rtmcluster.c`, whichever of its blocks fell back. -/
theorem rtmcluster_finish {L : Layout Addr} {es : List (Event Addr)} (inRtm : Nat → Bool)
    (h : Seen L es) :
    ∃ d fin, batRun L rtmBatchN (rtmclusterCalls inRtm es) = some d ∧
      d.memFinishThr L.nobj = some fin ∧ fin.waitVersion = (recordThr L es).waitVersion ∧
      fin.waitMemop = (recordThr L es).waitMemop := by
  have hcalls := accesses_rtmclusterCalls inRtm es
  rw [← hcalls] at h
  have hfin := batRun_finish (show 1 ≤ rtmBatchN by decide) h
  rwa [hcalls] at hfin

end MemOrder
