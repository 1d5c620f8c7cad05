/-
# `merge-commit.cpp`: the stamps become an order of threads

`merge_commit` merges the threads' stamp logs with a priority queue and writes the thread of each
popped stamp.  The logs of a complete recorded run hold the positions of their threads in the
stamp order, so the merged log IS that order: the popped stamps are sorted and are `0, 1, 2, ...`
without gaps, whatever the queue does with ties.
-/
import MemOrder.Commit.Record
import MemOrder.Lib.KMerge
import MemOrder.Log.File

namespace MemOrder.Commit

open KMerge
open scoped List

/-! ## 1. The code

`merge_commit` is the loop of `MemOrder.Lib.KMerge`, with the stamps as keys; that it returns is
part of what is shown. -/

namespace Merge

/-- `struct q_ent`. -/
structure QEnt where
  tid : Int
  ts : Nat
deriving DecidableEq, Repr

/-- `operator>` of `q_ent`. -/
def QEnt.gt (a b : QEnt) : Bool := decide (a.ts > b.ts)

/-- `merge_commit`: the popped elements, in order.  Their `tid`s are what is written. -/
def mergeCommit (P : PQueue QEnt QEnt.gt) (log : List (Option (List Nat))) (nthr : Int) :
    Except Stop (List QEnt) :=
  if (log.length : Int) ≠ nthr then .error .assertFailed
  else
    let r := enqueueAll P (fun i ts => ⟨tidT i, ts⟩) log.length (entries log)
    match mergeLoop P (fun e => e.tid.toNat) (fun e nts => ⟨e.tid, nts⟩)
        ((List.range log.length).flatMap (entries log)).length r.1 r.2 with
    | some out => .ok out
    | none => .error .diverges

/-- `main`: open the log of every thread, merge, write the threads. -/
def main (P : PQueue QEnt QEnt.gt) (nthr : Nat) (file : Nat → Option (List Nat)) :
    Except Stop (List Int) := do
  let log ← (List.range nthr).mapM (fun i => openMappedLog (file i))
  let out ← mergeCommit P log (tidT nthr)
  return out.map QEnt.tid

/-! ## 2. The merge of any logs

Nothing is assumed of the stamps: logs may be missing, out of order, or have stamps in common. -/

/-- Stamps that are not greater are not greater in a chain. -/
theorem qent_trans (a b c : QEnt) (h1 : a.gt b = false) (h2 : b.gt c = false) :
    a.gt c = false := by
  simp only [QEnt.gt, decide_eq_false_iff_not] at *
  omega

/-- The comparison by stamp. -/
theorem qent_comparison : Comparison QEnt.gt where
  total a b := by
    simp only [QEnt.gt, decide_eq_false_iff_not]
    omega
  trans := qent_trans

/-- An entry is tagged with its log's number. -/
theorem qent_tagging : Tagging (fun e : QEnt => e.tid.toNat) (fun e nts => (⟨e.tid, nts⟩ : QEnt)) :=
  ⟨fun _ _ => rfl, fun _ _ _ => rfl⟩

/-- **`merge_commit` returns, and what it pops is a merge of the logs**, each stamp with the
number of its log. -/
theorem mergeCommit_merges (P : PQueue QEnt QEnt.gt) (log : List (Option (List Nat)))
    (hn : log.length ≤ 127) :
    ∃ out, mergeCommit P log log.length = .ok out ∧
      Merges QEnt.gt log.length (fun i => (entries log i).map (fun ts => ⟨tidT i, ts⟩)) out := by
  obtain ⟨out, hout, hm⟩ := merge_merges P qent_tagging (fun i ts => (⟨tidT i, ts⟩ : QEnt))
    (entries log) log.length (fun _ _ _ => by dsimp only) (fun i hi ts => by
      simp only [tidT_of_lt (i := i) (by omega)]
      omega)
  refine ⟨out, ?_, hm⟩
  simp only [mergeCommit, ne_eq, not_true_eq_false, if_false, hout]

/-- A merge of stamp logs that do not fall does not fall. -/
theorem merges_sorted_ts {n : Nat} {tid : Nat → Int} {stamps : Nat → List Nat} {out : List QEnt}
    (hm : Merges QEnt.gt n (fun i => (stamps i).map (fun ts => ⟨tid i, ts⟩)) out)
    (hs : ∀ i < n, (stamps i).Pairwise (· ≤ ·)) :
    out.Pairwise (fun a b => a.ts ≤ b.ts) := by
  refine (hm.sorted qent_trans ?_).imp (fun h => by simpa [QEnt.gt] using h)
  intro i hi
  rw [List.pairwise_map]
  exact (hs i hi).imp (fun h => by simpa [QEnt.gt] using h)

/-- All stamps of the logs, each with its thread. -/
def stampPairs (log : List (Option (List Nat))) : List QEnt :=
  (List.range log.length).flatMap (fun i => (entries log i).map (fun ts => ⟨i, ts⟩))

section Kway

variable {log : List (Option (List Nat))} {out : List QEnt}

/-- The popped elements, with the thread numbers as they are: below 128 nothing is lost in
`tid_t`. -/
theorem merges_tid (hn : log.length ≤ 127)
    (hm : Merges QEnt.gt log.length (fun i => (entries log i).map (fun ts => ⟨tidT i, ts⟩)) out) :
    Merges QEnt.gt log.length (fun i => (entries log i).map (fun ts => ⟨i, ts⟩)) out := by
  refine hm.congr _ ?_
  intro i hi
  rw [tidT_of_lt (by omega)]

/-- The popped elements of one thread are its log. -/
theorem merges_filter_tid
    (hm : Merges QEnt.gt log.length (fun i => (entries log i).map (fun ts => ⟨i, ts⟩)) out)
    {i : Nat} (hi : i < log.length) :
    out.filter (fun e => e.tid == (i : Int)) = (entries log i).map (fun ts => ⟨i, ts⟩) := by
  rw [← hm.filter_eq (fun e => e.tid.toNat) ?_ i hi]
  · refine List.filter_congr ?_
    intro e he
    -- every popped thread number is a log's, so it is not negative
    obtain ⟨j, -, hj⟩ := mem_pending.mp (hm.perm.mem_iff.mp he)
    obtain ⟨ts, -, rfl⟩ := List.mem_map.mp hj
    simp
  · intro j _ e he
    obtain ⟨ts, -, rfl⟩ := List.mem_map.mp he
    exact Int.toNat_natCast j

/-- Sorted, and no stamp twice: strictly sorted. -/
theorem pairwise_lt_of_nodup (hs : out.Pairwise (fun a b => a.ts ≤ b.ts))
    (hd : (out.map QEnt.ts).Nodup) : out.Pairwise (fun a b => a.ts < b.ts) := by
  have hne : out.Pairwise (fun a b => a.ts ≠ b.ts) := List.pairwise_map.mp hd
  exact (hs.and hne).imp (fun h => Nat.lt_of_le_of_ne h.1 h.2)

end Kway

/-- **`merge_commit` is a k-way merge.**  It returns for any logs, some of them missing, and any
queue; what it pops is every stamp of every log once, each with the thread whose log it is from,
and the part of a thread is its log in order.  If the logs do not fall, neither do the popped
stamps; and if no stamp is in two places, the result is the only list of the stamps in rising
order, so what the queue does with ties has no say in it. -/
theorem mergeCommit_kway (P : PQueue QEnt QEnt.gt) (log : List (Option (List Nat)))
    (hn : log.length ≤ 127) :
    ∃ out, mergeCommit P log log.length = .ok out ∧ out.Perm (stampPairs log) ∧
      (∀ i < log.length,
        out.filter (fun e => e.tid == (i : Int)) = (entries log i).map (fun ts => ⟨i, ts⟩)) ∧
      (∀ e ∈ out, ∃ i < log.length, e.tid = i) ∧
      ((∀ i < log.length, (entries log i).Pairwise (· ≤ ·)) →
        out.Pairwise (fun a b => a.ts ≤ b.ts) ∧
        (((stampPairs log).map QEnt.ts).Nodup →
          out.Pairwise (fun a b => a.ts < b.ts) ∧
          ∀ out', out'.Perm (stampPairs log) → out'.Pairwise (fun a b => a.ts < b.ts) →
            out' = out)) := by
  obtain ⟨out, hout, hmt⟩ := mergeCommit_merges P log hn
  have hm := merges_tid hn hmt
  have hperm : out.Perm (stampPairs log) := hm.perm
  refine ⟨out, hout, hperm, fun i hi => merges_filter_tid hm hi, ?_, ?_⟩
  · intro e he
    obtain ⟨i, hi, hei⟩ := mem_pending.mp (hm.perm.mem_iff.mp he)
    obtain ⟨ts, -, rfl⟩ := List.mem_map.mp hei
    exact ⟨i, hi, rfl⟩
  · intro hs
    have hsorted := merges_sorted_ts hm hs
    refine ⟨hsorted, ?_⟩
    intro hd
    have hlt := pairwise_lt_of_nodup hsorted ((hperm.map QEnt.ts).nodup_iff.mpr hd)
    refine ⟨hlt, ?_⟩
    intro out' hp' hlt'
    -- two strictly sorted lists of the same elements are equal
    refine (hp'.trans hperm.symm).eq_of_pairwise ?_ hlt' hlt
    intro a b _ _ hab hba
    exact absurd (Nat.lt_trans hab hba) (Nat.lt_irrefl _)

/-- Three logs, one of them missing, and a stamp that two threads have. -/
theorem mergeCommit_kway_three :
    ∃ out, mergeCommit (listQueue QEnt.gt qent_comparison) [some [2, 5], none, some [2, 9]] 3
        = .ok out ∧
      out.filter (fun e => e.tid == 2) = [⟨2, 2⟩, ⟨2, 9⟩] ∧ out.Pairwise (fun a b => a.ts ≤ b.ts) := by
  obtain ⟨out, hout, -, hfilter, -, hsorted⟩ :=
    mergeCommit_kway (listQueue QEnt.gt qent_comparison) [some [2, 5], none, some [2, 9]] (by decide)
  exact ⟨out, hout, hfilter 2 (by decide), (hsorted (by decide)).1⟩

/-! ## 3. The merge of a recorded run

Here the stamps are the positions of an order, each once. -/

/-- The stamps of all threads are the positions of the order. -/
theorem stamps_perm_range (order : List Nat) (nthr : Nat) (hlt : ∀ t ∈ order, t < nthr) :
    ((List.range nthr).flatMap (Record.stamps order)).Perm (List.range order.length) := by
  induction order using List.reverseRecOn with
  | nil =>
    have : (List.range nthr).flatMap (Record.stamps []) = [] :=
      List.flatMap_eq_nil_iff.mpr (fun t _ => rfl)
    rw [this]
    rfl
  | append_singleton order u ih =>
    have hu : u < nthr := hlt u (by simp)
    have ih := ih (fun t ht => hlt t (by simp [ht]))
    rw [List.length_append, List.length_singleton, List.range_succ]
    -- the new stamp goes to thread `u`, the others have the stamps they had
    have h1 := flatMap_range_perm (Record.stamps (order ++ [u])) nthr hu
    have h2 := flatMap_range_perm (Record.stamps order) nthr hu
    have hrest : (List.range nthr).flatMap
          (fun j => if j = u then [] else Record.stamps (order ++ [u]) j)
        = (List.range nthr).flatMap (fun j => if j = u then [] else Record.stamps order j) := by
      refine List.flatMap_congr ?_
      intro j _
      by_cases hj : j = u
      · rw [if_pos hj, if_pos hj]
      · rw [if_neg hj, if_neg hj, Record.stamps_snoc, if_neg (Ne.symm hj), List.append_nil]
    rw [hrest, Record.stamps_snoc, if_pos rfl] at h1
    calc (List.range nthr).flatMap (Record.stamps (order ++ [u]))
        ~ (Record.stamps order u ++ [order.length]) ++ _ := h1
      _ ~ (Record.stamps order u ++ _) ++ [order.length] := by
          rw [List.append_assoc, List.append_assoc]
          exact List.perm_append_comm.append_left _
      _ ~ List.range order.length ++ [order.length] := (h2.symm.trans ih).append_right _

/-- **A merge of all stamps is the stamp order.** -/
theorem merge_stamps {order : List Nat} {nthr : Nat} (hlt : ∀ t ∈ order, t < nthr)
    (hn : nthr ≤ 127) {out : List QEnt}
    (hm : Merges QEnt.gt nthr (fun i => (Record.stamps order i).map (fun ts => ⟨tidT i, ts⟩)) out) :
    out.map QEnt.tid = order.map (fun t : Nat => (t : Int)) := by
  -- the stamps come out sorted, and they are the positions
  have hts : out.map QEnt.ts = List.range order.length := by
    have hsorted : (out.map QEnt.ts).Pairwise (· ≤ ·) := by
      rw [List.pairwise_map]
      exact merges_sorted_ts hm (fun i _ => List.pairwise_le_range.filter _)
    have hperm : (out.map QEnt.ts).Perm (List.range order.length) := by
      refine (hm.perm.map QEnt.ts).trans ?_
      have : (pending nthr (fun i => (Record.stamps order i).map (fun ts => (⟨tidT i, ts⟩ : QEnt)))).map
          QEnt.ts = (List.range nthr).flatMap (Record.stamps order) := by
        simp [pending, List.map_flatMap, Function.comp_def]
      rw [this]
      exact stamps_perm_range order nthr hlt
    exact hperm.eq_of_pairwise (fun a b _ _ => Nat.le_antisymm) hsorted List.pairwise_le_range
  have hlen : out.length = order.length := by
    have := congrArg List.length hts
    simpa using this
  -- the element with stamp `k` names the thread at position `k`
  refine List.ext_getElem (by simp [hlen]) ?_
  intro k hk _
  have hk' : k < out.length := by simpa using hk
  have hke : (out[k]).ts = k := by
    have := List.getElem_of_eq hts (i := k) (by simpa using hk')
    simpa using this
  obtain ⟨i, hi, hmem⟩ := mem_pending.mp (hm.perm.mem_iff.mp (List.getElem_mem hk'))
  obtain ⟨ts, hts', heq⟩ := List.mem_map.mp hmem
  have hpos := Record.mem_stamps.mp hts'
  have htk : ts = k := by rw [← hke, ← heq]
  rw [htk, List.getElem?_eq_getElem (by omega)] at hpos
  rw [List.getElem_map, List.getElem_map, ← heq, Option.some.inj hpos, tidT_of_lt (by omega)]

/-- **The merged log of a complete run is its stamp order**: `main` does not stop early, and
position `k` of what it writes is the thread with stamp `k`. -/
theorem main_stamps (P : PQueue QEnt QEnt.gt) {order : List Nat} {nthr : Nat}
    (hlt : ∀ t ∈ order, t < nthr) (hn : nthr ≤ 127)
    (hne : ∀ t < nthr, Record.stamps order t ≠ []) :
    main P nthr (fun t => some (Record.stamps order t)) = .ok (order.map (fun t : Nat => (t : Int))) := by
  have hopen := open_all (fun i => some (Record.stamps order i)) nthr
    (fun i hi hnil => hne i hi (Option.some.inj hnil))
  have hlog : ((List.range nthr).map (fun i => some (Record.stamps order i))).length = nthr := by
    simp
  obtain ⟨out, hout, hm⟩ := mergeCommit_merges P
    ((List.range nthr).map (fun i => some (Record.stamps order i))) (by rw [hlog]; exact hn)
  rw [hlog] at hout hm
  have hentries : ∀ i < nthr,
      entries ((List.range nthr).map (fun i => some (Record.stamps order i))) i
        = Record.stamps order i := by
    intro i hi
    rw [entries_map_range _ hi, Option.getD_some]
  have hcongr := hm.congr (fun i => (Record.stamps order i).map (fun ts => ⟨tidT i, ts⟩))
    (fun i hi => by rw [hentries i hi])
  rw [main, hopen, tidT_of_lt (by omega)]
  simp only [bind, Except.bind, hout, pure, Except.pure, merge_stamps hlt hn hcongr]

end Merge

end MemOrder.Commit
