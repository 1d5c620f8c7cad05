/-
# The recorder's logs (`mem-record.c`, and the logging half of `mem-record-seqlock.c`)

Logging is thread-local: once an access has its version, what `mem_read` and `mem_write` write
to the two logs is a function of the versions the thread has seen.  This module has that
function -- `log_order` and its callers, as the source computes them -- and what the replayer
relies on:

* the wait_version log, read from any point of the thread on (`versionLogFrom`), and that an
  access left OUT of it saw version 0 or the version of an earlier read
  (`record_last_version`);
* every wait_memop entry names a read of the thread (`record_waitMemop_sound`), and every read
  is COVERED: an entry at its version names it or a later access, unless the thread itself
  overwrote that version (`memFinishThr_covers`).

`mem_write` leaves `lastobj->version` at the version of the thread's last READ of the object.
Nothing below needs more: a stale version differs from every version the thread can still see.
-/
import MemOrder.Atomic

namespace MemOrder

variable {Addr : Type}

/-! ## 1. The thread-local state and its operations

Line by line what the source does to `g_last`, `memop` and the two logs.  The logs are lists that
grow at the end; that they are files with a mapping is the subject of `MemOrder.Log.MappedLog`. -/

/-- `struct last_objinfo`. -/
structure LastObjinfo where
  version : Int
  memop : Int
deriving DecidableEq, Repr

/-- The recording thread: `g_last`, `memop` and the two logs. -/
structure RecThr where
  last : Nat → LastObjinfo
  memop : Nat
  waitVersion : List WaitVersion
  waitMemop : List WaitMemop

namespace RecThr

/-- `mem_init_thr`: no previous access (`memop` -1), versions 0, empty logs. -/
def memInitThr : RecThr := ⟨fun _ => ⟨0, -1⟩, 0, [], []⟩

/-- `log_wait_version`. -/
def logWaitVersion (r : RecThr) (currentVersion : Int) : RecThr :=
  { r with waitVersion := r.waitVersion ++ [⟨r.memop, currentVersion⟩] }

/-- `log_other_wait_memop`. -/
def logOtherWaitMemop (r : RecThr) (objid : Nat) (lastobj : LastObjinfo) : RecThr :=
  { r with waitMemop := r.waitMemop ++ [⟨objid, lastobj.version, lastobj.memop⟩] }

/-- `log_order`. -/
def logOrder (r : RecThr) (objid : Nat) (currentVersion : Int) (lastobj : LastObjinfo) : RecThr :=
  let r := r.logWaitVersion currentVersion
  if 0 ≤ lastobj.memop then r.logOtherWaitMemop objid lastobj else r

/-- The logging half of `mem_read`, from `lastobj = &g_last[objid]` on. -/
def memRead (r : RecThr) (objid : Nat) (version : Int) : RecThr :=
  let lastobj := r.last objid
  let r :=
    if lastobj.version ≠ version then
      let r := r.logOrder objid version lastobj
      { r with last := Function.update r.last objid { lastobj with version := version } }
    else r
  { r with
    last := Function.update r.last objid { r.last objid with memop := r.memop }
    memop := r.memop + 1 }

/-- The logging half of `mem_write`: `lastobj->version` is not updated. -/
def memWrite (r : RecThr) (objid : Nat) (version : Int) : RecThr :=
  let lastobj := r.last objid
  let r := if lastobj.version ≠ version then r.logOrder objid version lastobj else r
  { r with
    last := Function.update r.last objid { lastobj with memop := -1 }
    memop := r.memop + 1 }

/-- One access of the thread, logged. -/
def access (L : Layout Addr) (r : RecThr) (e : Event Addr) : RecThr :=
  match e.op with
  | .R => r.memRead (L.obj e) e.version
  | .W => r.memWrite (L.obj e) e.version

/-- `mark_log_end`. -/
def markLogEnd (r : RecThr) : RecThr :=
  { r with
    waitVersion := r.waitVersion ++ [⟨-1, -1⟩]
    waitMemop := r.waitMemop ++ [⟨-1, -1, -1⟩] }

/-- The loop of `mem_finish_thr` over the objects below `n`. -/
def finalReads (r : RecThr) (n : Nat) : RecThr :=
  (List.range n).foldl
    (fun r i => if 0 ≤ (r.last i).memop then r.logOtherWaitMemop i (r.last i) else r) r

/-- `mem_finish_thr`. -/
def memFinishThr (r : RecThr) (nobj : Nat) : RecThr := (r.finalReads nobj).markLogEnd

end RecThr

/-- The recording thread after the accesses `es`. -/
def record (L : Layout Addr) (es : List (Event Addr)) : RecThr :=
  es.foldl (RecThr.access L) RecThr.memInitThr

/-- The logs of a finished thread whose accesses were `es`. -/
def recordThr (L : Layout Addr) (es : List (Event Addr)) : RecThr :=
  (record L es).memFinishThr L.nobj

/-! ## 2. What one access does

One lemma for each part of the state, for reads and writes alike, so that the proofs below do not
unfold the operations. -/

section LogOrder

variable (r : RecThr) (objid : Nat) (version : Int) (lastobj : LastObjinfo)

@[simp] theorem logOrder_memop : (r.logOrder objid version lastobj).memop = r.memop := by
  unfold RecThr.logOrder
  dsimp only
  split <;> rfl

@[simp] theorem logOrder_last : (r.logOrder objid version lastobj).last = r.last := by
  unfold RecThr.logOrder
  dsimp only
  split <;> rfl

/-- `log_order` always logs the version ... -/
@[simp] theorem logOrder_waitVersion :
    (r.logOrder objid version lastobj).waitVersion = r.waitVersion ++ [⟨r.memop, version⟩] := by
  unfold RecThr.logOrder
  dsimp only
  split <;> rfl

/-- ... and the previous read, if there is one. -/
@[simp] theorem logOrder_waitMemop :
    (r.logOrder objid version lastobj).waitMemop = r.waitMemop ++
      if 0 ≤ lastobj.memop then [⟨objid, lastobj.version, lastobj.memop⟩] else [] := by
  unfold RecThr.logOrder
  dsimp only
  split
  · rfl
  · exact (List.append_nil _).symm

end LogOrder

section Access

variable {L : Layout Addr} {r : RecThr} {e : Event Addr}

@[simp] theorem access_memop : (r.access L e).memop = r.memop + 1 := by
  unfold RecThr.access
  cases e.op with
  | R =>
    unfold RecThr.memRead
    dsimp only
    split <;> simp
  | W =>
    unfold RecThr.memWrite
    dsimp only
    split <;> simp

/-- An access is logged when it sees another version than `lastobj->version`. -/
theorem access_waitVersion :
    (r.access L e).waitVersion = r.waitVersion ++
      if (r.last (L.obj e)).version ≠ e.version then [⟨r.memop, e.version⟩] else [] := by
  unfold RecThr.access
  cases e.op with
  | R =>
    unfold RecThr.memRead
    dsimp only
    split <;> simp
  | W =>
    unfold RecThr.memWrite
    dsimp only
    split <;> simp

/-- The pending read of the object is flushed by the next access that sees another version. -/
theorem access_waitMemop :
    (r.access L e).waitMemop = r.waitMemop ++
      if (r.last (L.obj e)).version ≠ e.version ∧ 0 ≤ (r.last (L.obj e)).memop then
        [⟨L.obj e, (r.last (L.obj e)).version, (r.last (L.obj e)).memop⟩] else [] := by
  unfold RecThr.access
  cases e.op with
  | R =>
    unfold RecThr.memRead
    dsimp only
    split <;> simp [*]
  | W =>
    unfold RecThr.memWrite
    dsimp only
    split <;> simp [*]

/-- After a read `last_objinfo` names it; after a write only the -1 is new. -/
theorem access_last (o : Nat) :
    (r.access L e).last o =
      if L.obj e = o then
        match e.op with
        | .R => ⟨e.version, r.memop⟩
        | .W => ⟨(r.last o).version, -1⟩
      else r.last o := by
  unfold RecThr.access
  by_cases ho : L.obj e = o
  · subst ho
    cases e.op with
    | R =>
      unfold RecThr.memRead
      dsimp only
      split <;> simp_all
    | W =>
      unfold RecThr.memWrite
      dsimp only
      split <;> simp
  · rw [if_neg ho]
    cases e.op with
    | R =>
      unfold RecThr.memRead
      dsimp only
      split <;> simp [Function.update_of_ne (Ne.symm ho)]
    | W =>
      unfold RecThr.memWrite
      dsimp only
      split <;> simp [Function.update_of_ne (Ne.symm ho)]

end Access

/-! ## 3. The wait_version log, from any point on

`record` is a fold from the left, and the replayer reads its log from the front.  `versionLogFrom`
is the log from the front: what the accesses still to come will add. -/

section VersionLog

variable {L : Layout Addr}

@[simp] theorem record_nil : record L [] = RecThr.memInitThr := rfl

theorem record_snoc (es : List (Event Addr)) (e : Event Addr) :
    record L (es ++ [e]) = (record L es).access L e := by
  simp [record]

@[simp] theorem record_memop (es : List (Event Addr)) : (record L es).memop = es.length := by
  induction es using List.reverseRecOn with
  | nil => rfl
  | append_singleton es e ih => rw [record_snoc, access_memop, ih]; simp

/-- The wait_version entries the accesses `es` add when the thread is at `r`. -/
def versionLogFrom (L : Layout Addr) (r : RecThr) : List (Event Addr) → List WaitVersion
  | [] => []
  | e :: es =>
    (if (r.last (L.obj e)).version ≠ e.version then [⟨r.memop, e.version⟩] else []) ++
      versionLogFrom L (r.access L e) es

/-- The log is what it was, and what the accesses add. -/
theorem foldl_waitVersion : ∀ (es : List (Event Addr)) (r : RecThr),
    (es.foldl (RecThr.access L) r).waitVersion = r.waitVersion ++ versionLogFrom L r es
  | [], r => by simp [versionLogFrom]
  | e :: es, r => by
    rw [List.foldl_cons, foldl_waitVersion es, access_waitVersion, versionLogFrom,
      List.append_assoc]

/-- Every entry still to come carries a number not below the current one. -/
theorem memop_le_of_mem_versionLogFrom : ∀ (es : List (Event Addr)) (r : RecThr) (w : WaitVersion),
    w ∈ versionLogFrom L r es → (r.memop : Int) ≤ w.memop
  | [], _, _, h => absurd h (by simp [versionLogFrom])
  | e :: es, r, w, h => by
    rw [versionLogFrom, List.mem_append] at h
    rcases h with h | h
    · split at h
      · rw [List.mem_singleton] at h
        subst h
        exact Int.le_refl _
      · exact absurd h (by simp)
    · have := memop_le_of_mem_versionLogFrom es _ w h
      rw [access_memop] at this
      omega

/-- **What is left out of the log.**  `lastobj->version` is 0 or the version of a read the
thread has made; so an access that is not logged saw such a version. -/
theorem record_last_version (es : List (Event Addr)) (o : Nat) :
    ((record L es).last o).version = 0 ∨
      ∃ e ∈ es, e.op = .R ∧ L.obj e = o ∧ e.version = ((record L es).last o).version := by
  induction es using List.reverseRecOn with
  | nil => exact Or.inl rfl
  | append_singleton es x ih =>
    rw [record_snoc, access_last]
    have hold : ((record L es).last o).version = 0 ∨ ∃ e ∈ es ++ [x], e.op = .R ∧
        L.obj e = o ∧ e.version = ((record L es).last o).version := by
      rcases ih with h | ⟨e, he, h⟩
      · exact Or.inl h
      · exact Or.inr ⟨e, List.mem_append_left _ he, h⟩
    by_cases ho : L.obj x = o
    · rw [if_pos ho]
      cases hop : x.op with
      | R => exact Or.inr ⟨x, by simp, hop, ho, rfl⟩
      | W => exact hold
    · rw [if_neg ho]
      exact hold

end VersionLog

/-! ## 4. The wait_memop log

Two directions.  Everything in the log is a read of the thread; and every read of the thread is in
the log, is pending in `g_last`, or needs no entry because the thread itself wrote at the version it
has read. -/

section MemopLog

variable {L : Layout Addr}

/-- The accesses of a list carry the numbers `0, 1, 2, ...`. -/
def Numbered (es : List (Event Addr)) : Prop := ∀ (k : Nat) (e : Event Addr), es[k]? = some e → e.memop = k

/-- The first accesses of a thread. -/
theorem Numbered.of_append {es fs : List (Event Addr)} (h : Numbered (es ++ fs)) :
    Numbered es := by
  intro k e hk
  refine h k e ?_
  rw [List.getElem?_append_left (List.getElem?_eq_some_iff.mp hk).1]
  exact hk

/-- The last one. -/
theorem Numbered.last {es : List (Event Addr)} {e : Event Addr} (h : Numbered (es ++ [e])) :
    e.memop = es.length := h _ e (by simp)

/-- An access of a thread comes before the next number. -/
theorem Numbered.memop_lt {es : List (Event Addr)} (h : Numbered es) {e : Event Addr}
    (he : e ∈ es) : e.memop < es.length := by
  obtain ⟨k, hk, hke⟩ := List.getElem_of_mem he
  rw [h k e (by rw [List.getElem?_eq_getElem hk, hke])]
  exact hk

/-- The accesses of a thread in a legal order are numbered. -/
theorem Legal.numbered [DecidableEq Addr] {m₀ : Addr → Val} {tr : List (Event Addr)}
    (h : Legal L m₀ tr) (t : Nat) : Numbered (thread t tr) :=
  fun _ _ hk => (h.memop_of_getElem? hk).2.2

/-- The `last_objinfo` of an object names a read of the thread, unless it is -1.  A write makes it
-1, a read makes it name the read, and an access of another object leaves it. -/
theorem record_last_memop {es : List (Event Addr)} (hn : Numbered es) (o : Nat)
    (h0 : 0 ≤ ((record L es).last o).memop) :
    ∃ e ∈ es, e.op = .R ∧ L.obj e = o ∧ e.version = ((record L es).last o).version ∧
      (e.memop : Int) = ((record L es).last o).memop := by
  induction es using List.reverseRecOn with
  | nil => exact absurd h0 (by simp [RecThr.memInitThr])
  | append_singleton es x ih =>
    rw [record_snoc, access_last] at h0 ⊢
    by_cases ho : L.obj x = o
    · rw [if_pos ho] at h0 ⊢
      cases hop : x.op with
      | R =>
        rw [hop] at h0
        exact ⟨x, by simp, hop, ho, rfl, by simp [hn.last]⟩
      | W => rw [hop] at h0; exact absurd h0 (by simp)
    · rw [if_neg ho] at h0 ⊢
      obtain ⟨e, he, h⟩ := ih hn.of_append h0
      exact ⟨e, List.mem_append_left _ he, h⟩

/-- **Soundness.**  Every wait_memop entry names a read of the thread. -/
theorem record_waitMemop_sound {es : List (Event Addr)} (hn : Numbered es) {w : WaitMemop}
    (hw : w ∈ (record L es).waitMemop) :
    ∃ e ∈ es, e.op = .R ∧ (L.obj e : Int) = w.objid ∧ e.version = w.version ∧
      (e.memop : Int) = w.memop := by
  induction es using List.reverseRecOn with
  | nil => exact absurd hw (by simp [RecThr.memInitThr])
  | append_singleton es x ih =>
    rw [record_snoc, access_waitMemop, List.mem_append] at hw
    rcases hw with hw | hw
    · obtain ⟨e, he, h⟩ := ih hn.of_append hw
      exact ⟨e, List.mem_append_left _ he, h⟩
    · split at hw
      · rename_i hc
        rw [List.mem_singleton] at hw
        subst hw
        obtain ⟨e, he, h1, h2, h3, h4⟩ := record_last_memop hn.of_append _ hc.2
        exact ⟨e, List.mem_append_left _ he, h1, by simp [h2], h3, h4⟩
      · exact absurd hw (by simp)

/-- The read `e` is accounted for in the recorder `r`: by an entry, by the pending read of its
object, or by a write of the thread at its version. -/
def Covered (L : Layout Addr) (es : List (Event Addr)) (r : RecThr) (e : Event Addr) : Prop :=
  (∃ w ∈ r.waitMemop, w.objid = L.obj e ∧ w.version = e.version ∧ (e.memop : Int) ≤ w.memop) ∨
    ((r.last (L.obj e)).version = e.version ∧ (e.memop : Int) ≤ (r.last (L.obj e)).memop) ∨
    ∃ w ∈ es, w.op = .W ∧ L.obj w = L.obj e ∧ w.version = e.version

/-- **Every read is covered**, by induction on the accesses after it.  The read is pending at first.
While the thread sees the same version another read takes its place; when it sees another one the
entry is written; and a write of the thread's own removes the pending read, which is then covered by
the write if its version was the same and by the entry if not. -/
theorem record_covers {es : List (Event Addr)} (hn : Numbered es) {e : Event Addr}
    (he : e ∈ es) (hr : e.op = .R) : Covered L es (record L es) e := by
  induction es using List.reverseRecOn with
  | nil => exact absurd he (by simp)
  | append_singleton es x ih =>
    rw [record_snoc]
    rcases List.mem_append.mp he with he | he
    · rcases ih hn.of_append he with ⟨w, hw, h⟩ | ⟨hv, hm⟩ | ⟨w, hw, h⟩
      · refine Or.inl ⟨w, ?_, h⟩
        rw [access_waitMemop]
        exact List.mem_append_left _ hw
      · -- the pending read: replaced by a later one, flushed, or overwritten
        by_cases ho : L.obj x = L.obj e
        · by_cases hxv : x.version = e.version
          · cases hop : x.op with
            | R =>
              refine Or.inr (Or.inl ?_)
              rw [access_last, if_pos ho, hop]
              have := hn.of_append.memop_lt he
              exact ⟨hxv, by simpa using Nat.le_of_lt this⟩
            | W => exact Or.inr (Or.inr ⟨x, by simp, hop, ho, hxv⟩)
          · refine Or.inl ⟨⟨L.obj e, e.version, ((record L es).last (L.obj e)).memop⟩, ?_, rfl,
              rfl, hm⟩
            rw [access_waitMemop, ho, hv, if_pos ⟨fun h => hxv h.symm, by omega⟩]
            simp
        · refine Or.inr (Or.inl ?_)
          rw [access_last, if_neg ho]
          exact ⟨hv, hm⟩
      · exact Or.inr (Or.inr ⟨w, List.mem_append_left _ hw, h⟩)
    · rw [List.mem_singleton] at he
      subst he
      refine Or.inr (Or.inl ?_)
      rw [access_last, if_pos rfl, hr]
      exact ⟨rfl, by simp [hn.last]⟩

/-! ## 5. The finished logs

`mem_finish_thr` flushes what is pending in `g_last`, so in the finished log the second of these
cases is gone. -/

/-- The entries the last loop of `mem_finish_thr` adds. -/
def finalEntries (r : RecThr) (n : Nat) : List WaitMemop :=
  (List.range n).flatMap (fun i =>
    if 0 ≤ (r.last i).memop then [⟨i, (r.last i).version, (r.last i).memop⟩] else [])

/-- The loop adds its entries and changes nothing else. -/
theorem finalReads_eq (r : RecThr) (n : Nat) :
    r.finalReads n = { r with waitMemop := r.waitMemop ++ finalEntries r n } := by
  induction n with
  | zero => simp [RecThr.finalReads, finalEntries]
  | succ n ih =>
    have hstep : r.finalReads (n + 1)
        = if 0 ≤ ((r.finalReads n).last n).memop then
            (r.finalReads n).logOtherWaitMemop n ((r.finalReads n).last n)
          else r.finalReads n := by
      rw [RecThr.finalReads, List.range_succ, List.foldl_append]; rfl
    rw [hstep, ih]
    by_cases h : 0 ≤ (r.last n).memop
    · simp [h, RecThr.logOtherWaitMemop, finalEntries, List.range_succ]
    · simp [h, finalEntries, List.range_succ]

/-- A finished version log: the entries and the end marker. -/
theorem memFinishThr_waitVersion (r : RecThr) (nobj : Nat) :
    (r.memFinishThr nobj).waitVersion = r.waitVersion ++ [⟨-1, -1⟩] := by
  rw [RecThr.memFinishThr, finalReads_eq]; rfl

/-- A finished memop log: the entries, those of the last loop, and the end marker. -/
theorem memFinishThr_waitMemop (r : RecThr) (nobj : Nat) :
    (r.memFinishThr nobj).waitMemop
      = r.waitMemop ++ finalEntries r nobj ++ [⟨-1, -1, -1⟩] := by
  rw [RecThr.memFinishThr, finalReads_eq]; rfl

/-- The version log of a finished thread. -/
theorem recordThr_waitVersion (es : List (Event Addr)) :
    (recordThr L es).waitVersion = (record L es).waitVersion ++ [⟨-1, -1⟩] :=
  memFinishThr_waitVersion _ _

/-- The entries of a finished thread, its end marker apart. -/
def memopEntries (L : Layout Addr) (es : List (Event Addr)) : List WaitMemop :=
  (record L es).waitMemop ++ finalEntries (record L es) L.nobj

/-- The memop log of a finished thread. -/
theorem recordThr_waitMemop (es : List (Event Addr)) :
    (recordThr L es).waitMemop = memopEntries L es ++ [⟨-1, -1, -1⟩] :=
  memFinishThr_waitMemop _ _

/-- Soundness of the finished log. -/
theorem memopEntries_sound {es : List (Event Addr)} (hn : Numbered es) {w : WaitMemop}
    (hw : w ∈ memopEntries L es) :
    ∃ e ∈ es, e.op = .R ∧ (L.obj e : Int) = w.objid ∧ e.version = w.version ∧
      (e.memop : Int) = w.memop := by
  rcases List.mem_append.mp hw with hw | hw
  · exact record_waitMemop_sound hn hw
  · obtain ⟨i, -, hi⟩ := List.mem_flatMap.mp hw
    split at hi
    · rename_i h0
      rw [List.mem_singleton] at hi
      subst hi
      obtain ⟨e, he, h1, h2, h3, h4⟩ := record_last_memop hn i h0
      exact ⟨e, he, h1, by simp [h2], h3, h4⟩
    · exact absurd hi (by simp)

/-- **Coverage.**  In the finished log every read is named by an entry at its version (its own
or a later one), unless the thread itself wrote at that version. -/
theorem memFinishThr_covers {es : List (Event Addr)} (hn : Numbered es) {e : Event Addr}
    (he : e ∈ es) (hr : e.op = .R) :
    (∃ w ∈ memopEntries L es, w.objid = L.obj e ∧ w.version = e.version ∧
        (e.memop : Int) ≤ w.memop) ∨
      ∃ w ∈ es, w.op = .W ∧ L.obj w = L.obj e ∧ w.version = e.version := by
  rcases record_covers (L := L) hn he hr with ⟨w, hw, h⟩ | ⟨hv, hm⟩ | h
  · exact Or.inl ⟨w, List.mem_append_left _ hw, h⟩
  · refine Or.inl ⟨⟨L.obj e, e.version, ((record L es).last (L.obj e)).memop⟩, ?_, rfl, rfl, hm⟩
    refine List.mem_append_right _ (List.mem_flatMap.mpr ⟨L.obj e, ?_, ?_⟩)
    · exact List.mem_range.mpr (L.calcObjid_lt _)
    · rw [if_pos (by omega : 0 ≤ ((record L es).last (L.obj e)).memop), hv]
      simp
  · exact Or.inr h

end MemopLog

/-! ## 6. The order of a thread's entries

`reorder-memop` relies on this: it collects a thread's entries by object, and keeps the order in
which they were logged. -/

section Order

variable {L : Layout Addr}

/-- What a thread can see of the versions: per object they do not fall, and a write of its own is
followed by larger ones. -/
structure Seen (L : Layout Addr) (es : List (Event Addr)) : Prop where
  nonneg : ∀ e ∈ es, 0 ≤ e.version
  rising : es.Pairwise (fun a b => L.obj a = L.obj b →
    a.version ≤ b.version ∧ (a.op = .W → a.version < b.version))

/-- What has been seen up to the last access. -/
theorem Seen.init {es : List (Event Addr)} {e : Event Addr} (h : Seen L (es ++ [e])) : Seen L es :=
  ⟨fun x hx => h.nonneg x (List.mem_append_left _ hx), (List.pairwise_append.mp h.rising).1⟩

/-- An object's version at the last access is not behind any before. -/
theorem Seen.le_last {es : List (Event Addr)} {e x : Event Addr} (h : Seen L (es ++ [e]))
    (hx : x ∈ es) (ho : L.obj x = L.obj e) : x.version ≤ e.version :=
  ((List.pairwise_append.mp h.rising).2.2 x hx e (by simp) ho).1

/-- The threads of a recorded run see such versions. -/
theorem Legal.seen [DecidableEq Addr] {m₀ : Addr → Val} {tr : List (Event Addr)}
    (h : Legal L m₀ tr) (t : Nat) : Seen L (thread t tr) := by
  constructor
  · intro e he
    exact h.version_nonneg (mem_thread.mp he).1
  · refine List.Pairwise.filter _ ?_
    rw [List.pairwise_iff_getElem]
    intro i j hi hj hij ho
    have hb : Trace.Before tr tr[i] tr[j] := by
      refine ⟨tr.take j, tr.drop (j + 1), ?_, ?_⟩
      · rw [← List.drop_eq_getElem_cons hj, List.take_append_drop]
      · rw [List.mem_take_iff_getElem]
        exact ⟨i, by omega, rfl⟩
    have hle := h.le_of_before hb ho
    constructor
    · split at hle <;> omega
    · intro hW
      rw [if_pos hW] at hle
      omega

/-- `lastobj->version` is behind what the thread sees next. -/
theorem Seen.last_le {es : List (Event Addr)} {e : Event Addr} (h : Seen L (es ++ [e])) :
    ((record L es).last (L.obj e)).version ≤ e.version := by
  rcases record_last_version (L := L) es (L.obj e) with h0 | ⟨x, hx, -, ho, hv⟩
  · rw [h0]
    exact h.nonneg e (by simp)
  · rw [← hv]
    exact h.le_last hx ho

/-- No entry is ahead of `lastobj->version`, and the entries of an object are in version order.  The
two are proved together: a new entry is at `lastobj->version`, and by the first part none before it
is ahead. -/
theorem record_waitMemop_sorted {es : List (Event Addr)} (h : Seen L es) :
    (∀ w ∈ (record L es).waitMemop, ∀ o : Nat, w.objid = o →
      w.version ≤ ((record L es).last o).version) ∧
    (record L es).waitMemop.Pairwise (fun a b => a.objid = b.objid → a.version ≤ b.version) := by
  induction es using List.reverseRecOn with
  | nil => exact ⟨fun w hw => absurd hw (by simp [RecThr.memInitThr]), List.Pairwise.nil⟩
  | append_singleton es e ih =>
    obtain ⟨hle, hsort⟩ := ih h.init
    have hlast := h.last_le
    -- `lastobj->version` only grows
    have hgrow : ∀ o, ((record L es).last o).version ≤ ((record L (es ++ [e])).last o).version := by
      intro o
      rw [record_snoc, access_last]
      by_cases ho : L.obj e = o
      · subst ho
        rw [if_pos rfl]
        cases e.op with
        | R => exact hlast
        | W => exact Int.le_refl _
      · rw [if_neg ho]
    have hnew : ∀ w ∈ (record L (es ++ [e])).waitMemop, w ∈ (record L es).waitMemop ∨
        w = ⟨L.obj e, ((record L es).last (L.obj e)).version, ((record L es).last (L.obj e)).memop⟩ := by
      intro w hw
      rw [record_snoc, access_waitMemop, List.mem_append] at hw
      rcases hw with hw | hw
      · exact Or.inl hw
      · split at hw
        · exact Or.inr (List.mem_singleton.mp hw)
        · exact absurd hw (by simp)
    constructor
    · intro w hw o ho
      rcases hnew w hw with hw | rfl
      · exact Int.le_trans (hle w hw o ho) (hgrow o)
      · have : L.obj e = o := Int.ofNat_inj.mp ho
        subst this
        exact hgrow _
    · rw [record_snoc, access_waitMemop]
      split
      · rw [List.pairwise_append]
        refine ⟨hsort, List.pairwise_singleton _ _, ?_⟩
        intro a ha b hb ho
        rw [List.mem_singleton] at hb
        subst hb
        exact hle a ha _ ho
      · rw [List.append_nil]
        exact hsort

/-- **The entries of an object are in version order**, those of `mem_finish_thr` included. -/
theorem memopEntries_sorted {es : List (Event Addr)} (h : Seen L es) :
    (memopEntries L es).Pairwise (fun a b => a.objid = b.objid → a.version ≤ b.version) := by
  obtain ⟨hle, hsort⟩ := record_waitMemop_sorted h
  -- an object has at most one final entry, at `lastobj->version`
  have hfinal : ∀ w ∈ finalEntries (record L es) L.nobj, ∃ o : Nat, w.objid = o ∧
      w.version = ((record L es).last o).version := by
    intro w hw
    obtain ⟨o, -, ho⟩ := List.mem_flatMap.mp hw
    split at ho
    · rw [List.mem_singleton.mp ho]
      exact ⟨o, rfl, rfl⟩
    · exact absurd ho (by simp)
  rw [memopEntries, List.pairwise_append]
  refine ⟨hsort, ?_, ?_⟩
  · rw [List.pairwise_iff_forall_sublist]
    intro a b hab ho
    obtain ⟨o, h1, h2⟩ := hfinal a (hab.subset (by simp))
    obtain ⟨o', h1', h2'⟩ := hfinal b (hab.subset (by simp))
    obtain rfl : o = o' := by omega
    rw [h2, h2']
  · intro a ha b hb ho
    obtain ⟨o, h1, h2⟩ := hfinal b hb
    rw [h2]
    exact hle a ha o (ho.trans h1)

end Order

end MemOrder
