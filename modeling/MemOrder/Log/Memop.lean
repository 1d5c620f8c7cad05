/-
# `reorder-memop.cpp`, `merge-memop.cpp` and `load_wait_reader_log`

Each thread's `memop` log lists reads in the order in which the thread found out about them.
`reorder-memop` groups a log by object, `merge-memop` merges the grouped logs of all threads by
(object, version) and writes an index, and the replayer uses the index to find each object's part
of the merged log.

The index has two integers for each object, a position and a count, or -1 and 0 for an object
without entries.  `merge_memop` writes an object's position at its first entry and its count at the
first entry of the next object, with the records of the objects skipped between them.
-/
import MemOrder.Lib.KMerge
import MemOrder.Log.File

namespace MemOrder.Memop

open KMerge

/-- `assert`. -/
def assert (p : Prop) [Decidable p] : Except Stop Unit :=
  if p then .ok () else .error .assertFailed

/-- `sizeof(struct wait_memop)`. -/
def sizeofWaitMemop : Nat := 24

/-! ## 1. `reorder-memop` -/

/-- `load_wait_memop_log`, from the entry `wmlog` points to: the entries of each object and their
number.  The loop looks for the sentinel only, not for the end of the file. -/
def loadWaitMemopLog (nobj : Nat) : List WaitMemop → (Nat → List WaitMemop) → Int →
    Except Stop ((Nat → List WaitMemop) × Int)
  | [], _, _ => .error .outOfBounds
  | e :: rest, all, total =>
    if e.objid = -1 then .ok (all, total)
    else if e.memop = -1 then loadWaitMemopLog nobj rest all total
    else if e.objid < 0 ∨ e.objid ≥ nobj then .error .assertFailed
    else loadWaitMemopLog nobj rest
      (Function.update all e.objid.toNat (all e.objid.toNat ++ [e])) (total + 1)

/-- `write_out_memop_log`. -/
def writeOutMemopLog (nobj : Nat) (all : Nat → List WaitMemop) (total : Int) :
    Except Stop (List WaitMemop) := do
  let buf ← Mapped.create total
  let buf ← (List.range nobj).foldlM (fun buf o => buf.putAll (all o)) buf
  return buf.file ⟨0, 0, 0⟩

/-- `main` of `reorder-memop`: the `sorted-memop` file, if one is made. -/
def reorderMain (nobj : Nat) (file : Option (List WaitMemop)) :
    Except Stop (Option (List WaitMemop)) := do
  let log ← openMappedLog file
  let r ← loadWaitMemopLog nobj (log.getD []) (fun _ => []) 0
  if r.2 ≠ 0 then
    let sorted ← writeOutMemopLog nobj r.1 r.2
    return some sorted
  else return none

/-! ## 2. `merge-memop` -/

/-- `struct QueEnt`. -/
structure QueEnt where
  tid : Int
  wop : WaitMemop
deriving DecidableEq, Repr

/-- `operator>` of `QueEnt`. -/
def QueEnt.gt (a b : QueEnt) : Bool :=
  if a.wop.objid = b.wop.objid then decide (a.wop.version > b.wop.version)
  else decide (a.wop.objid > b.wop.objid)

/-- What is written to the merged log. -/
def QueEnt.entry (qe : QueEnt) : ReplayWaitMemop := ⟨qe.wop.version, qe.wop.memop, qe.tid.toNat⟩

/-- The variables of the merge loop. -/
structure MergeState where
  prevId : Int
  cnt : Int
  prevCnt : Int
  prevVersion : Int
  /-- `next_mwm`. -/
  mwm : Mapped ReplayWaitMemop
  /-- `indexbuf`. -/
  index : Mapped Int

/-- The index records of the objects from `lo` to `hi - 1`, which have no entry. -/
def writeGaps (index : Mapped Int) (lo hi : Int) : Except Stop (Mapped Int) :=
  index.putAll ((List.range (hi - lo).toNat).flatMap (fun _ => [-1, 0]))

/-- The index is written up to the position of object `objid`. -/
def writeIndex (s : MergeState) (objid : Int) : Except Stop MergeState := do
  let index ←
    if s.prevId ≠ -1 then do
      let index ← s.index.put (int32 (s.cnt - s.prevCnt))
      assert (int32 (s.cnt - s.prevCnt) > 0)
      pure index
    else pure s.index
  let index ← writeGaps index (s.prevId + 1) objid
  let index ← index.put s.cnt
  return { s with index := index, prevCnt := s.cnt, prevId := objid }

/-- The body of the merge loop. -/
def writeEntry (s : MergeState) (qe : QueEnt) : Except Stop MergeState := do
  -- the assertions of the debug build
  assert (qe.wop.objid ≥ s.prevId)
  assert (qe.wop.objid = s.prevId → qe.wop.version ≥ s.prevVersion)
  let s ← if s.prevId ≠ qe.wop.objid then writeIndex s qe.wop.objid else pure s
  let mwm ← s.mwm.put qe.entry
  return { s with prevVersion := qe.wop.version, mwm := mwm, cnt := int32 (s.cnt + 1) }

/-- After the loop: the count of the last object and the records of those behind it. -/
def finishIndex (nobj : Nat) (s : MergeState) : Except Stop (Mapped Int) := do
  let index ← s.index.put (int32 (s.cnt - s.prevCnt))
  writeGaps index (s.prevId + 1) nobj

/-- The queue, the merge loop and what follows it. -/
def mergeInto (P : PQueue QueEnt QueEnt.gt) (nobj : Nat) (log : List (Option (List WaitMemop)))
    (mwm : Mapped ReplayWaitMemop) (index : Mapped Int) :
    Except Stop (List ReplayWaitMemop × List Int) :=
  let pq := enqueueAll P (fun i wop => ⟨tidT i, wop⟩) log.length (entries log)
  match mergeLoopWith P (fun qe => qe.tid.toNat) (fun qe wop => ⟨qe.tid, wop⟩) writeEntry
      ((List.range log.length).flatMap (entries log)).length pq.1 pq.2 ⟨-1, 0, 0, -1, mwm, index⟩ with
  | none => .error .diverges
  | some r => do
    let s ← r
    let index ← finishIndex nobj s
    return (s.mwm.file ⟨0, 0, 0⟩, index.file 0)

/-- The sizes of the opened logs together. -/
def totalSize (log : List (Option (List WaitMemop))) : Nat :=
  ((List.range log.length).map (fun i => (entries log i).length * sizeofWaitMemop)).sum

/-- `merge_memop`: the files `memop` and `memop-index`, if they are made. -/
def mergeMemop (P : PQueue QueEnt QueEnt.gt) (nobj : Nat) (log : List (Option (List WaitMemop)))
    (nthr : Int) : Except Stop (Option (List ReplayWaitMemop × List Int)) := do
  assert ((log.length : Int) = nthr)
  if totalSize log = 0 then return none
  else
    assert (totalSize log % sizeofWaitMemop = 0)
    let mwm ← Mapped.create (int32 (totalSize log / sizeofWaitMemop : Nat))
    let index ← Mapped.create (nobj * 2 : Nat)
    let files ← mergeInto P nobj log mwm index
    return some files

/-- `main` of `merge-memop`. -/
def mergeMain (P : PQueue QueEnt QueEnt.gt) (nobj nthr : Nat) (file : Nat → Option (List WaitMemop)) :
    Except Stop (Option (List ReplayWaitMemop × List Int)) := do
  let log ← (List.range nthr).mapM (fun i => openMappedLog (file i))
  mergeMemop P nobj log (tidT nthr)

/-! ## 3. `load_wait_reader_log` -/

/-- `struct replay_wait_memop_log`; `log` is a position in the merged log, `none` is `NULL`. -/
structure WaitReaderLog where
  log : Option Int
  n : Int
  size : Int
deriving DecidableEq, Repr

/-- The loop over the objects, from the integer `index` points to. -/
def loadIndex : Nat → List Int → Except Stop (List WaitReaderLog)
  | 0, _ => .ok []
  | _ + 1, [] => .error .outOfBounds
  | nobj + 1, i :: rest =>
    if i = -1 then do
      let logs ← loadIndex nobj (rest.drop 1)
      return ⟨none, 0, -1⟩ :: logs
    else
      match rest with
      | [] => .error .outOfBounds
      | size :: rest => do
        let logs ← loadIndex nobj rest
        return ⟨some i, 0, size⟩ :: logs

/-- `load_wait_reader_log`. -/
def loadWaitReaderLog (nobj : Nat) (memop : Option (List ReplayWaitMemop))
    (index : Option (List Int)) : Except Stop (List WaitReaderLog) := do
  match ← openMappedLog memop with
  | none => return List.replicate nobj ⟨none, 0, -1⟩
  | some _ =>
    match ← openMappedLog index with
    | none => .error .exit
    | some ix => loadIndex nobj ix

/-- The part of the merged log that belongs to an object. -/
def WaitReaderLog.slice (r : WaitReaderLog) (memop : List ReplayWaitMemop) : List ReplayWaitMemop :=
  match r.log with
  | none => []
  | some i => (memop.drop i.toNat).take r.size.toNat

/-- Position `p` of the merged log belongs to the object. -/
def WaitReaderLog.Covers (r : WaitReaderLog) (p : Nat) : Prop :=
  ∃ i, r.log = some i ∧ i ≤ p ∧ p < i + r.size

end MemOrder.Memop
