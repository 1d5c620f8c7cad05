/-
# The version logs determine the run

`merge_memop` and the wait_memop logs only order accesses that are already determined.  Take two
complete runs of the same programs from the same memory.  If every thread wrote the same
wait_version log in both, then every thread made the same accesses in both, at the same versions
and with the same values, although the two total orders may differ everywhere.

The induction is along the order of the FIRST run.  When it comes to an access `e`, everything
before `e` is known to be in the second run too, so

* the thread has seen the same results and makes the same call (`Run.getElem?_of_prog`);
* the recorder is in the same state, so the rest of the log says whether the call is logged and
  with which version (`versionLog_inj`);
* the writes below that version all come before `e`, so they are in both runs, and the value of
  a version is a function of the writes below it (`valAt_congr`).
-/
import MemOrder.Record

namespace MemOrder

open Trace

variable {Addr : Type}

/-! ## 1. One log, two continuations

The recorder in one state, before two accesses of the same object, with the same log in the end.  If
one access is logged and the other is not, the logs differ at once; if both are, the entries have
the versions; and if neither is, both saw the version the recorder remembers. -/

section Log

variable {L : Layout Addr}

/-- What is left of the log after an access that is not logged never starts with an entry for
it: later entries have larger numbers, and the end marker has -1. -/
theorem versionLogFrom_ne (r : RecThr) (e : Event Addr) (es : List (Event Addr)) (v : Int)
    (ws : List WaitVersion) :
    versionLogFrom L (r.access L e) es ++ [⟨-1, -1⟩] ≠ ⟨r.memop, v⟩ :: ws := by
  intro h
  cases hl : versionLogFrom L (r.access L e) es with
  | nil =>
    rw [hl] at h
    simp only [List.nil_append, List.cons.injEq, WaitVersion.mk.injEq] at h
    omega
  | cons w rest =>
    have hw := memop_le_of_mem_versionLogFrom es _ w (by rw [hl]; exact List.mem_cons_self)
    rw [hl, List.cons_append] at h
    simp only [List.cons.injEq] at h
    rw [access_memop, h.1] at hw
    simp only at hw
    omega

/-- **The log gives the version.**  From one recorder state, with the rest of the log the same,
the next access to an object has the same version. -/
theorem versionLog_inj {r : RecThr} {e f : Event Addr} {es fs : List (Event Addr)}
    (ho : L.obj e = L.obj f)
    (h : versionLogFrom L r (e :: es) ++ [⟨-1, -1⟩] = versionLogFrom L r (f :: fs) ++ [⟨-1, -1⟩]) :
    e.version = f.version := by
  rw [versionLogFrom, versionLogFrom, ho] at h
  by_cases he : (r.last (L.obj f)).version = e.version
  · by_cases hf : (r.last (L.obj f)).version = f.version
    · rw [← he, hf]
    · rw [if_neg (not_not.mpr he), if_pos hf, List.nil_append] at h
      exact absurd h (versionLogFrom_ne r e es _ _)
  · by_cases hf : (r.last (L.obj f)).version = f.version
    · rw [if_pos he, if_neg (not_not.mpr hf), List.nil_append] at h
      exact absurd h.symm (versionLogFrom_ne r f fs _ _)
    · rw [if_pos he, if_pos hf] at h
      simp only [List.cons_append, List.cons.injEq, WaitVersion.mk.injEq, true_and] at h
      exact h.1

/-- The finished log of a thread, cut after its first accesses. -/
theorem recordThr_waitVersion_append (es fs : List (Event Addr)) :
    (recordThr L (es ++ fs)).waitVersion
      = (record L es).waitVersion ++ (versionLogFrom L (record L es) fs ++ [⟨-1, -1⟩]) := by
  rw [recordThr_waitVersion, record, List.foldl_append, ← record, foldl_waitVersion,
    List.append_assoc]

end Log

/-! ## 2. One set of writes, two orders

The value of a version depends on the writes below it, and there is one write for each even number
below. -/

section Values

variable [DecidableEq Addr] {L : Layout Addr} {m₀ : Addr → Val} {tr tr' : List (Event Addr)}

/-- Two orders that share the writes below a version agree on its value. -/
theorem valAt_congr (h : Legal L m₀ tr) (h' : Legal L m₀ tr') (a : Addr) :
    ∀ n : Nat, (∀ v : Int, 0 ≤ v → v % 2 = 0 → v < 2 * n →
      ∃ w, w ∈ tr ∧ w ∈ tr' ∧ w.op = .W ∧ L.obj w = L.calcObjid a ∧ w.version = v) →
    valAt m₀ tr a (2 * n) = valAt m₀ tr' a (2 * n)
  | 0, _ => by simpa using (h.valAt_zero a).trans (h'.valAt_zero a).symm
  | n + 1, hw => by
    have ih := valAt_congr h h' a n (fun v h0 h2 hlt => hw v h0 h2 (by omega))
    obtain ⟨w, hm, hm', hW, ho, hv⟩ := hw (2 * n) (by omega) (by omega) (by omega)
    have heq : (2 * ((n + 1 : Nat) : Int)) = w.version + 2 := by rw [hv]; omega
    rw [heq, h.valAt_write hm hW ho.symm, h'.valAt_write hm' hW ho.symm, hv, ih]

end Values

/-! ## 3. Two runs with the same version logs

The induction, and what it gives: the two runs have the same accesses, thread by thread in the same
order. -/

section Runs

variable [DecidableEq Addr] {L : Layout Addr} {nthr : Nat} {prog : Nat → Prog Addr}
  {m₀ : Addr → Val} {R R' : Run L nthr prog m₀}

/-- The threads' version logs agree. -/
def SameVersionLogs (R R' : Run L nthr prog m₀) : Prop :=
  ∀ t < nthr, (recordThr L (thread t R.trace)).waitVersion
    = (recordThr L (thread t R'.trace)).waitVersion

/-- A read's value, from the writes below its version. -/
theorem val_eq_of_shared {e f : Event Addr} {pre post : List (Event Addr)}
    (heq : R.trace = pre ++ e :: post) (hpre : ∀ x ∈ pre, x ∈ R'.trace) (hf : f ∈ R'.trace)
    (hre : e.op = .R) (hrf : f.op = .R) (ha : e.addr = f.addr) (hv : e.version = f.version) :
    e.val = f.val := by
  have he : e ∈ R.trace := by rw [heq]; simp
  rw [R.legal.read_val he hre, R'.legal.read_val hf hrf, ← ha, ← hv, R.legal.version_split heq]
  refine valAt_congr R.legal R'.legal e.addr _ ?_
  intro v h0 h2 hlt
  obtain ⟨w, hw, hW, ho, hwv⟩ := R.legal.exists_write_of_lt heq h0 h2
    (by rw [R.legal.version_split heq]; exact hlt)
  exact ⟨w, by rw [heq]; exact List.mem_append_left _ hw, hpre w hw, hW, ho, hwv⟩

/-- A thread's accesses before `e` are its first accesses in the other run as well. -/
theorem thread_pre_eq {e : Event Addr} {pre post : List (Event Addr)}
    (heq : R.trace = pre ++ e :: post) (hpre : ∀ x ∈ pre, x ∈ R'.trace) :
    (thread e.tid R'.trace).take e.memop = thread e.tid pre := by
  obtain ⟨hl, hen⟩ := R.legal.split heq
  have hidx : ∀ (k : Nat) x, (thread e.tid pre)[k]? = some x → (thread e.tid R'.trace)[k]? = some x := by
    intro k x hk
    obtain ⟨hx, ht, hm⟩ := hl.memop_of_getElem? hk
    have := R'.legal.thread_getElem? (hpre x hx)
    rwa [ht, hm] at this
  refine List.ext_getElem? ?_
  intro k
  rcases Nat.lt_or_ge k (thread e.tid pre).length with hk | hk
  · rw [List.getElem?_take, if_pos (by rw [hen.memop]; exact hk), List.getElem?_eq_getElem hk]
    exact hidx k _ (List.getElem?_eq_getElem hk)
  · rw [List.getElem?_take, if_neg (by rw [hen.memop]; omega), List.getElem?_eq_none hk]

/-- **The step of the induction**: an access whose predecessors are all in the other run is in
the other run. -/
theorem SameVersionLogs.mem_step (h : SameVersionLogs R R') {e : Event Addr}
    {pre post : List (Event Addr)} (heq : R.trace = pre ++ e :: post)
    (hpre : ∀ x ∈ pre, x ∈ R'.trace) : e ∈ R'.trace := by
  have ht : e.tid < nthr := R.tid_lt e (by rw [heq]; simp)
  have htake := thread_pre_eq heq hpre
  -- the same call
  obtain ⟨f, hfk, hacc⟩ : ∃ f, (thread e.tid R'.trace)[e.memop]? = some f ∧ f.acc = e.acc := by
    refine R'.getElem?_of_prog ht ?_
    rw [htake]
    exact R.follows pre e post heq
  obtain ⟨hf, hft, hfm⟩ := R'.legal.memop_of_getElem? hfk
  have haddr : e.addr = f.addr := by
    have := congrArg Acc.addr hacc
    unfold Event.acc at this
    cases he : e.op <;> cases hf : f.op <;> simp_all [Acc.addr]
  have hop : e.op = f.op := by
    unfold Event.acc at hacc
    cases he : e.op <;> cases hf : f.op <;> simp_all
  -- the same version
  have hver : e.version = f.version := by
    have hlog := h e.tid ht
    have hsplit : thread e.tid R'.trace
        = thread e.tid pre ++ f :: (thread e.tid R'.trace).drop (e.memop + 1) := by
      obtain ⟨hlt, hfe⟩ := List.getElem?_eq_some_iff.mp hfk
      rw [← htake, ← hfe, ← List.drop_eq_getElem_cons hlt, List.take_append_drop]
    rw [hsplit, heq, thread_append, thread_cons, if_pos rfl, List.singleton_append,
      recordThr_waitVersion_append, recordThr_waitVersion_append] at hlog
    refine versionLog_inj ?_ (List.append_cancel_left hlog)
    rw [Layout.obj, Layout.obj, haddr]
  -- the same value
  have hval : e.val = f.val := by
    cases he : e.op with
    | R => exact val_eq_of_shared heq hpre hf he (by rw [← hop, he]) haddr hver
    | W =>
      unfold Event.acc at hacc
      rw [← hop, he] at hacc
      simp only [Acc.write.injEq] at hacc
      exact hacc.2.symm
  have hef : e = f := by
    cases e; cases f
    simp_all
  rw [hef]
  exact hf

/-- Every access of the first run is an access of the second, by induction along the order of the
first. -/
theorem SameVersionLogs.subset (h : SameVersionLogs R R') : ∀ e ∈ R.trace, e ∈ R'.trace := by
  by_contra hne
  push Not at hne
  obtain ⟨pre, e, post, heq, he, hpre⟩ := exists_first hne
  exact he (h.mem_step heq (fun x hx => not_not.mp (hpre x hx)))

/-- The hypothesis is about both alike. -/
theorem SameVersionLogs.symm (h : SameVersionLogs R R') : SameVersionLogs R' R :=
  fun t ht => (h t ht).symm

/-- The two orders are orders of the same accesses. -/
theorem SameVersionLogs.perm (h : SameVersionLogs R R') : R.trace.Perm R'.trace :=
  (List.perm_ext_iff_of_nodup R.legal.nodup R'.legal.nodup).mpr
    (fun e => ⟨h.subset e, h.symm.subset e⟩)

/-- A thread's accesses are numbered, so the same accesses are the same list. -/
theorem SameVersionLogs.thread_eq (h : SameVersionLogs R R') (t : Nat) :
    thread t R.trace = thread t R'.trace := by
  refine List.ext_getElem? ?_
  intro k
  have hsub : ∀ {A B : Run L nthr prog m₀}, SameVersionLogs A B → ∀ e,
      (thread t A.trace)[k]? = some e → (thread t B.trace)[k]? = some e := by
    intro A B hAB e hk
    obtain ⟨he, ht, hm⟩ := A.legal.memop_of_getElem? hk
    have := B.legal.thread_getElem? (hAB.subset e he)
    rwa [ht, hm] at this
  exact Option.ext (fun e => ⟨hsub h e, hsub h.symm e⟩)

/-- The final memory is the value of the final versions, which count the writes. -/
theorem SameVersionLogs.finalMem_eq (h : SameVersionLogs R R') : R.finalMem = R'.finalMem := by
  funext a
  have hver : (Shared.after L m₀ R.trace).ver (L.calcObjid a)
      = (Shared.after L m₀ R'.trace).ver (L.calcObjid a) := by
    rw [after_ver, after_ver, writesTo, writesTo, (h.perm.filter _).length_eq]
  rw [Run.finalMem, Run.finalMem, ← R.legal.valAt_after a (Int.le_refl _),
    ← R'.legal.valAt_after a (Int.le_refl _), ← hver, after_ver]
  refine valAt_congr R.legal R'.legal a _ ?_
  intro v h0 h2 hlt
  obtain ⟨w, hw, hW, ho, hwv⟩ := R.legal.exists_write_of_lt_after h0 h2 (by rw [after_ver]; exact hlt)
  exact ⟨w, hw, h.subset w hw, hW, ho, hwv⟩

/-- **The version logs alone determine the execution.**  Two complete runs of the same programs
from the same memory, with the same wait_version log for every thread, have for every thread the
same accesses, versions and values, and the same final memory. -/
theorem version_logs_determine (R R' : Run L nthr prog m₀)
    (h : ∀ t < nthr, (recordThr L (thread t R.trace)).waitVersion
      = (recordThr L (thread t R'.trace)).waitVersion) :
    (∀ t < nthr, thread t R.trace = thread t R'.trace) ∧ R.finalMem = R'.finalMem := by
  have hs : SameVersionLogs R R' := h
  exact ⟨fun t _ => hs.thread_eq t, hs.finalMem_eq⟩

end Runs

/-! ## 4. Two orders of one execution

An example in which the total orders do differ. -/

/-- Thread 0 writes one object and reads the other, which thread 1 writes. -/
def pairProg : Nat → Prog Bool
  | 0 => fun rs => match rs.length with
    | 0 => some (.write false 7)
    | 1 => some (.read true)
    | _ => none
  | 1 => fun rs => if rs.length = 0 then some (.write true 9) else none
  | _ => fun _ => none

/-- Thread 0's write first. -/
def pairRun : Run pairLayout 2 pairProg (fun _ => 0) where
  trace := [⟨0, 0, .W, false, 0, 7⟩, ⟨1, 0, .W, true, 0, 9⟩, ⟨0, 1, .R, true, 2, 9⟩]
  legal := .snoc (.snoc (.snoc .nil ⟨rfl, rfl, fun h => by cases h⟩)
    ⟨rfl, rfl, fun h => by cases h⟩) ⟨rfl, rfl, fun _ => rfl⟩
  tid_lt := by decide
  follows pre e post h := by
    match pre with
    | [] => cases h; rfl
    | [_] => cases h; rfl
    | [_, _] => cases h; rfl
    | _ :: _ :: _ :: pre => simp at h
  complete := by decide

/-- Thread 1's write first. -/
def pairRun' : Run pairLayout 2 pairProg (fun _ => 0) where
  trace := [⟨1, 0, .W, true, 0, 9⟩, ⟨0, 0, .W, false, 0, 7⟩, ⟨0, 1, .R, true, 2, 9⟩]
  legal := .snoc (.snoc (.snoc .nil ⟨rfl, rfl, fun h => by cases h⟩)
    ⟨rfl, rfl, fun h => by cases h⟩) ⟨rfl, rfl, fun _ => rfl⟩
  tid_lt := by decide
  follows pre e post h := by
    match pre with
    | [] => cases h; rfl
    | [_] => cases h; rfl
    | [_, _] => cases h; rfl
    | _ :: _ :: _ :: pre => simp at h
  complete := by decide

/-- The orders differ, the logs do not, and so the threads and the final memory do not. -/
theorem version_logs_determine_pair :
    pairRun.trace ≠ pairRun'.trace ∧ (∀ t < 2, thread t pairRun.trace = thread t pairRun'.trace) ∧
      pairRun.finalMem = pairRun'.finalMem :=
  ⟨by decide, version_logs_determine pairRun pairRun' (by decide)⟩

end MemOrder
