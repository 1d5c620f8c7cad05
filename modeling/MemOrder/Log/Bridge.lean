/-
# From the recorder's logs to the replayer's

The replayer's model is given merged logs and what they have to satisfy (`Replay.Merged`).  Here
they are computed: the wait_memop logs of a recorded run go through `reorder-memop`, `merge-memop`
and `load_wait_reader_log`, and what is loaded is `Merged`, with the sizes the replayer's model
starts from.  So nothing about the replay rests on an idealised merge.

An object without entries is where the two could differ: the tools leave its `log` null and its
`size` -1, and the replayer looks at `size` before it looks at `log`.
-/
import MemOrder.Log.Pipeline
import MemOrder.Replay.Model

namespace MemOrder.Memop

open KMerge

variable {Addr : Type} [DecidableEq Addr] {L : Layout Addr} {nthr : Nat} {prog : Nat → Prog Addr}
  {m₀ : Addr → Val}

/-- The wait_memop entries of every thread of a run. -/
def runEntries (L : Layout Addr) (tr : List (Event Addr)) (t : Nat) : List WaitMemop :=
  memopEntries L (thread t tr)

/-- The recorder's entries are entries of its objects, whose numbers are not negative. -/
theorem runEntries_valid {tr : List (Event Addr)} (h : Legal L m₀ tr) (t : Nat) :
    ∀ w ∈ runEntries L tr t, Valid L.nobj w := by
  intro w hw
  obtain ⟨e, -, -, ho, -, hm⟩ := memopEntries_sound (h.numbered t) hw
  have := L.calcObjid_lt e.addr
  have hobj : L.obj e < L.nobj := this
  exact ⟨by omega, by omega, by omega⟩

omit [DecidableEq Addr] in
/-- The end marker is no entry of an object. -/
theorem objEntries_run (tr : List (Event Addr)) (o : Nat) :
    Replay.objEntries L nthr tr o = (List.range nthr).flatMap (objEntries (runEntries L tr) o) := by
  unfold Replay.objEntries
  refine List.flatMap_congr ?_
  intro t _
  have hend : ((⟨-1, -1, -1⟩ : WaitMemop).objid = (o : Int)) ↔ False := by simp
  rw [recordThr_waitMemop, List.filter_append, objEntries, runEntries, List.map_append]
  simp [hend, beq_eq_decide]

/-- What object `o` has been given; nothing outside the array. -/
def loadedSlice (readers : List WaitReaderLog) (memop : List ReplayWaitMemop) (o : Nat) :
    List ReplayWaitMemop :=
  match readers[o]? with
  | none => []
  | some r => r.slice memop

/-- **What is loaded is merged**: for each object the entries of all threads, in the order of their
versions. -/
theorem merged_of_loaded {tr : List (Event Addr)} (h : Legal L m₀ tr)
    {files : Option (List ReplayWaitMemop × List Int)} {readers : List WaitReaderLog}
    (hl : Loaded L.nobj nthr (runEntries L tr) files readers) :
    Replay.Merged L nthr tr (loadedSlice readers ((files.map Prod.fst).getD [])) := by
  constructor
  · intro o
    rw [objEntries_run]
    unfold loadedSlice
    cases hr : readers[o]? with
    | some r => exact (hl.slices o r hr).perm
    | none =>
      -- no entry is about an object that does not exist
      have hge : L.nobj ≤ o := by
        rw [← hl.length]
        exact List.getElem?_eq_none_iff.mp hr
      have hnil : (List.range nthr).flatMap (objEntries (runEntries L tr) o) = [] := by
        rw [List.flatMap_eq_nil_iff]
        intro t _
        rw [objEntries, List.map_eq_nil_iff, List.filter_eq_nil_iff]
        intro w hw hwo
        have := (runEntries_valid h t w hw).2.1
        rw [beq_iff_eq] at hwo
        omega
      rw [hnil]
  · intro o
    unfold loadedSlice
    cases hr : readers[o]? with
    | some r => exact (hl.slices o r hr).sorted
    | none => exact List.Pairwise.nil

/-- The size the replayer starts from: -1 where there is no entry. -/
theorem size_of_loaded {logs : Nat → List WaitMemop}
    {files : Option (List ReplayWaitMemop × List Int)} {nobj : Nat} {readers : List WaitReaderLog}
    (hl : Loaded nobj nthr logs files readers) {o : Nat} {r : WaitReaderLog}
    (hr : readers[o]? = some r) : r.size =
      (Replay.ReaderLog.loaded (loadedSlice readers ((files.map Prod.fst).getD []) o)).size := by
  have hs := hl.slices o r hr
  simp only [Replay.ReaderLog.loaded, loadedSlice, hr]
  by_cases hnil : r.slice ((files.map Prod.fst).getD []) = []
  · rw [if_pos hnil]
    refine (hs.empty ?_).2
    have hperm := hs.perm
    rw [hnil, List.nil_perm, List.flatMap_eq_nil_iff] at hperm
    intro t ht
    exact hperm t (List.mem_range.mpr ht)
  · rw [if_neg hnil]
    exact hs.size hnil

/-- **The tools make merged logs of what the recorder wrote**, and the replayer starts from them. -/
theorem pipeline_merged (P : PQueue QueEnt QueEnt.gt) (R : Run L nthr prog m₀) (hobj : 1 ≤ L.nobj)
    (hn : nthr ≤ 127) (hcount : ((List.range nthr).flatMap (runEntries L R.trace)).length < 2 ^ 31) :
    ∃ sorted files readers,
      (∀ t < nthr, reorderMain L.nobj (some (recordThr L (thread t R.trace)).waitMemop) =
        .ok (sorted t)) ∧
      mergeMain P L.nobj nthr sorted = .ok files ∧
      loadWaitReaderLog L.nobj (files.map Prod.fst) (files.map Prod.snd) = .ok readers ∧
      Replay.Merged L nthr R.trace (loadedSlice readers ((files.map Prod.fst).getD [])) ∧
      ∀ o r, readers[o]? = some r → r.n = 0 ∧ r.size =
        (Replay.ReaderLog.loaded (loadedSlice readers ((files.map Prod.fst).getD []) o)).size := by
  have hvalid : ∀ t < nthr, ∀ w ∈ runEntries L R.trace t, Valid L.nobj w :=
    fun t _ => runEntries_valid R.legal t
  obtain ⟨out, hm, hord, hmerge⟩ := mergeMain_ok P hobj hn hvalid
    (fun t _ => memopEntries_sorted (R.legal.seen t)) hcount
  have hl := loaded_filesOf hn hvalid hm hord
  refine ⟨grouped L.nobj (runEntries L R.trace), filesOf L.nobj out,
    (List.range L.nobj).map (readerOf out), ?_, hmerge, loadWaitReaderLog_ok hobj out,
    merged_of_loaded R.legal hl, ?_⟩
  · intro t ht
    rw [recordThr_waitMemop]
    exact reorderMain_ok rfl (hvalid t ht)
  · intro o r hr
    refine ⟨?_, size_of_loaded hl hr⟩
    obtain ⟨o', -, rfl⟩ := List.mem_map.mp (List.mem_of_getElem? hr)
    unfold readerOf
    split <;> rfl

end MemOrder.Memop
