/-
# The memop pipeline loses, duplicates and misplaces nothing

Each recording thread leaves a log of `wait_memop` entries, in the order in which it wrote them,
with one sentinel at the end.  Three programs make the replayer's data of them: `reorder-memop`
groups a thread's log by object, `merge-memop` merges the grouped logs of all threads into one log
sorted by (object, version) and writes an index of it, and `load_wait_reader_log` turns the index
into one slice of the merged log for each object.  `memop_pipeline` says that every object ends up
with all its entries and no others, by version, each thread's in the thread's order.

* `reorder-memop` is `classes` of a thread's log (`reorderMain_ok`): the entries of object 0, then
  of object 1, and so on, each in the order of the log.
* The merge loop sees the grouped logs of all threads in order of (object, version); that is the
  general merge of `Lib/KMerge.lean`.  `after l` is what it has written when it has seen `l`, and
  the step lemma is that one turn leads from `after l` to `after (l ++ [qe])`
  (`Ordered.writeEntry_ok`).
* The index is then `indexRecord` of every object (`Ordered.finishIndex_ok`), which the loader turns
  back into the segments of the classes (`loadIndex_records`, `slice_readerOf`).

What makes the last step work is a fact about sorted lists (`Classes.cls_eq_segment`): in a list
sorted by key the elements of a class are a segment, which begins after as many elements as there
are with a smaller key.  The position written at the first entry of an object is the count of
entries so far, and the length is written when the next object begins or the loop is over; so the
index is these segments.

The assertions of the code are part of the statement: nothing is written past the end of a file that
was created with the right size, `cnt - prev_cnt` is positive when it is written, and the debug
build sees no element out of order (`Ordered.in_order`).
-/
import MemOrder.Lib.Classes
import MemOrder.Log.Memop

namespace MemOrder.Memop

open KMerge Classes
open scoped List

/-- The object of a log entry. -/
def key (e : WaitMemop) : Nat := e.objid.toNat

/-- The entry can be processed: its object exists and it is about an access. -/
def Valid (nobj : Nat) (e : WaitMemop) : Prop := 0 ≤ e.objid ∧ e.objid < nobj ∧ 0 ≤ e.memop

/-- So the lists and the index have a place for it. -/
theorem Valid.key_lt {nobj : Nat} {e : WaitMemop} (h : Valid nobj e) : key e < nobj := by
  have := h.1
  have := h.2.1
  unfold key
  omega

/-! ## 1. Grouping

`load_wait_memop_log` appends each entry to the list of its object until it meets the sentinel, and
`write_out_memop_log` writes the lists one after the other. -/

/-- The scan ends at the sentinel with all entries in the lists of their objects.  The induction is
on the entries, with the lists filled so far as they are. -/
theorem loadWaitMemopLog_ok {nobj : Nat} {sentinel : WaitMemop} (hs : sentinel.objid = -1) :
    ∀ {es : List WaitMemop}, (∀ e ∈ es, Valid nobj e) → ∀ (all : Nat → List WaitMemop) (total : Int),
    loadWaitMemopLog nobj (es ++ [sentinel]) all total =
      .ok (fun o => all o ++ cls key es o, total + es.length)
  | [], _, all, total => by
    have hnil : (fun o => all o ++ cls key [] o) = all := funext (fun o => List.append_nil _)
    rw [List.nil_append, loadWaitMemopLog, if_pos hs, hnil]
    simp
  | e :: es, hes, all, total => by
    obtain ⟨h0, hlt, hmem⟩ := hes e List.mem_cons_self
    rw [List.cons_append, loadWaitMemopLog, if_neg (by omega), if_neg (by omega),
      if_neg (by omega), loadWaitMemopLog_ok hs (fun x hx => hes x (List.mem_cons_of_mem _ hx))]
    have hall : (fun o => Function.update all e.objid.toNat (all e.objid.toNat ++ [e]) o ++ cls key es o)
        = fun o => all o ++ cls key (e :: es) o := by
      funext o
      -- the entry goes to the list of its object and to no other
      by_cases ho : o = key e
      · subst ho
        rw [key, Function.update_self, List.append_assoc]
        have : cls key (e :: es) e.objid.toNat = e :: cls key es e.objid.toNat :=
          List.filter_cons_of_pos (by simp [key])
        rw [this]
        rfl
      · have : cls key (e :: es) o = cls key es o :=
          List.filter_cons_of_neg (by simpa using Ne.symm ho)
        rw [Function.update_of_ne (show o ≠ e.objid.toNat from ho), this]
    rw [hall, List.length_cons]
    congr 2
    push_cast
    omega

/-- **`reorder-memop` groups the log by object**, and makes no file for an empty one.  The file is
created with room for all entries and filled by them, so no zeros are left in it. -/
theorem reorderMain_ok {nobj : Nat} {es : List WaitMemop} {sentinel : WaitMemop}
    (hs : sentinel.objid = -1) (hes : ∀ e ∈ es, Valid nobj e) :
    reorderMain nobj (some (es ++ [sentinel])) =
      .ok (if es = [] then none else some (classes key nobj es)) := by
  have hopen : openMappedLog (some (es ++ [sentinel])) = .ok (some (es ++ [sentinel])) := by
    cases es <;> rfl
  have hload := loadWaitMemopLog_ok hs hes (fun _ => []) 0
  simp only [List.nil_append, Int.zero_add] at hload
  by_cases hnil : es = []
  · subst hnil
    rw [reorderMain, hopen]
    simp only [bind, Except.bind, Option.getD_some, hload, List.length_nil, if_true]
    rfl
  · have hpos : 0 < es.length := List.length_pos_iff.mpr hnil
    have hlen : (classes key nobj es).length = es.length := by
      rw [length_classes, before_eq_length (fun e he => (hes e he).key_lt)]
    have hwrite : writeOutMemopLog nobj (cls key es) (es.length : Int) = .ok (classes key nobj es) := by
      rw [writeOutMemopLog, Mapped.create_ok hpos]
      simp only [bind, Except.bind]
      rw [Mapped.foldlM_putAll_ok (by rw [← classes, hlen]; simp)]
      simp only [List.nil_append, pure, Except.pure]
      rw [Mapped.file_of_full _ hlen]
      rfl
    have hne : (es.length : Int) ≠ 0 := by omega
    rw [reorderMain, hopen]
    simp only [bind, Except.bind, Option.getD_some, hload, hwrite, if_neg hnil]
    rw [if_pos hne]
    rfl

/-! ## 2. What the merge loop writes

The variables of the loop, told by the list `l` of elements popped so far: the last object and
version, the count, the position of the last object, the merged log, and the index, which is
complete up to the object before the last and has the position of the last.  `Ordered` is what the
order of the elements gives; the lemmas about `before` and `cls` say what a new element at the end
does to the positions and lengths. -/

/-- The object of an element of the queue. -/
def qkey (qe : QueEnt) : Nat := key qe.wop

/-- The index record of an object. -/
def indexRecord (l : List QueEnt) (o : Nat) : List Int :=
  if cls qkey l o = [] then [-1, 0] else [(before qkey l o : Int), ((cls qkey l o).length : Int)]

/-- What has been written when the elements `l` have been popped. -/
def after (nobj cap : Nat) (l : List QueEnt) : MergeState :=
  match l.getLast? with
  | none => ⟨-1, 0, 0, -1, ⟨cap, []⟩, ⟨nobj * 2, []⟩⟩
  | some qe =>
    ⟨qe.wop.objid, l.length, before qkey l (qkey qe), qe.wop.version, ⟨cap, l.map QueEnt.entry⟩,
      ⟨nobj * 2, (List.range (qkey qe)).flatMap (indexRecord l) ++ [(before qkey l (qkey qe) : Int)]⟩⟩

/-- What the loop relies on: the elements come in order of (object, version), with objects that
exist. -/
structure Ordered (nobj : Nat) (l : List QueEnt) : Prop where
  valid : ∀ qe ∈ l, Valid nobj qe.wop
  sorted : l.Pairwise (fun a b => a.gt b = false)

/-- The comparison of the queue, as the order of (object, version). -/
theorem gt_eq_false {a b : QueEnt} : a.gt b = false ↔
    a.wop.objid ≤ b.wop.objid ∧ (a.wop.objid = b.wop.objid → a.wop.version ≤ b.wop.version) := by
  unfold QueEnt.gt
  split <;> simp <;> omega

section Index

variable {nobj cap : Nat} {l : List QueEnt} {x y : QueEnt}

/-- An index record is a position and a length. -/
theorem length_indexRecord (l : List QueEnt) (o : Nat) : (indexRecord l o).length = 2 := by
  unfold indexRecord
  split <;> rfl

/-- So the index of `k` objects has `2 * k` numbers. -/
theorem length_indexRecords (l : List QueEnt) (k : Nat) :
    ((List.range k).flatMap (indexRecord l)).length = 2 * k := by
  induction k with
  | zero => rfl
  | succ k ih =>
    rw [List.range_succ, List.flatMap_append, List.length_append, ih]
    simp [length_indexRecord]
    omega

/-- A new element changes nothing about the objects before its own. -/
theorem indexRecords_snoc (l : List QueEnt) (x : QueEnt) :
    (List.range (qkey x)).flatMap (indexRecord (l ++ [x])) =
      (List.range (qkey x)).flatMap (indexRecord l) := by
  refine List.flatMap_congr ?_
  intro o ho
  have hlt := List.mem_range.mp ho
  have hc : cls qkey (l ++ [x]) o = cls qkey l o := by
    rw [cls_append, cls_eq_nil (l := [x]), List.append_nil]
    intro y hy
    rw [List.mem_singleton.mp hy]
    omega
  have hb : before qkey (l ++ [x]) o = before qkey l o := by
    rw [before_append]
    have : before qkey [x] o = 0 := by
      simp only [before, List.countP_singleton, decide_eq_true_eq]
      rw [if_neg (by omega)]
    omega
  rw [indexRecord, indexRecord, hc, hb]

/-- Nor about the position of its own. -/
theorem before_snoc (l : List QueEnt) (x : QueEnt) :
    before qkey (l ++ [x]) (qkey x) = before qkey l (qkey x) := by
  rw [before_append]
  simp [before]

/-- Objects without entries, from `a` on. -/
theorem indexRecords_gap {a b : Nat} (h : a ≤ b) (hgap : ∀ o, a ≤ o → o < b → cls qkey l o = []) :
    (List.range b).flatMap (indexRecord l) =
      (List.range a).flatMap (indexRecord l) ++ (List.range (b - a)).flatMap (fun _ => [-1, 0]) := by
  obtain ⟨d, rfl⟩ := Nat.exists_eq_add_of_le h
  rw [Nat.add_sub_cancel_left, List.range_add, List.flatMap_append, List.flatMap_map]
  congr 1
  refine List.flatMap_congr ?_
  intro i hi
  rw [indexRecord, if_pos (hgap _ (by omega) (by have := List.mem_range.mp hi; omega))]

/-- What has come before an element came in order. -/
theorem Ordered.init (h : Ordered nobj (l ++ [x])) : Ordered nobj l :=
  ⟨fun z hz => h.valid z (List.mem_append_left _ hz), (List.pairwise_append.mp h.sorted).1⟩

/-- The last element has the greatest key. -/
theorem Ordered.key_le_last (h : Ordered nobj (l ++ [y])) : ∀ z ∈ l ++ [y], qkey z ≤ qkey y := by
  intro z hz
  rcases List.mem_append.mp hz with hz' | hz'
  · have := gt_eq_false.mp ((List.pairwise_append.mp h.sorted).2.2 z hz' y (by simp))
    have := (h.valid z hz).1
    rw [qkey, qkey, key, key]
    omega
  · rw [List.mem_singleton.mp hz']

/-- The index up to and including the object of the last element. -/
theorem Ordered.indexRecords_last (h : Ordered nobj (l ++ [y])) {b : Nat} (hb : qkey y < b) :
    (List.range b).flatMap (indexRecord (l ++ [y])) =
      ((List.range (qkey y)).flatMap (indexRecord (l ++ [y])) ++
        [(before qkey (l ++ [y]) (qkey y) : Int)]) ++
        [((cls qkey (l ++ [y]) (qkey y)).length : Int)] ++
        (List.range (b - (qkey y + 1))).flatMap (fun _ => [-1, 0]) := by
  have hne : cls qkey (l ++ [y]) (qkey y) ≠ [] :=
    List.ne_nil_of_mem (mem_cls.mpr ⟨List.mem_append_right _ (by simp), rfl⟩)
  rw [indexRecords_gap (a := qkey y + 1) hb (fun o ho _ => cls_eq_nil (fun z hz => by
      have := h.key_le_last z hz
      omega)),
    List.range_succ, List.flatMap_append]
  simp [indexRecord, if_neg hne]

/-- The entries of the last object end the list. -/
theorem Ordered.count_last (h : Ordered nobj (l ++ [y])) :
    (l ++ [y]).length =
      before qkey (l ++ [y]) (qkey y) + (cls qkey (l ++ [y]) (qkey y)).length ∧
      0 < (cls qkey (l ++ [y]) (qkey y)).length := by
  rw [← before_succ, before_eq_length (fun z hz => Nat.lt_succ_of_le (h.key_le_last z hz))]
  exact ⟨rfl, List.length_pos_of_mem (mem_cls.mpr ⟨List.mem_append_right _ (by simp), rfl⟩)⟩

/-- Before the first element nothing is written; -1 stands for no object and no version. -/
theorem after_nil (nobj cap : Nat) :
    after nobj cap [] = ⟨-1, 0, 0, -1, ⟨cap, []⟩, ⟨nobj * 2, []⟩⟩ := rfl

/-- After an element the loop is at its object. -/
theorem after_snoc (nobj cap : Nat) (l : List QueEnt) (y : QueEnt) : after nobj cap (l ++ [y]) =
    ⟨y.wop.objid, (l ++ [y]).length, before qkey (l ++ [y]) (qkey y), y.wop.version,
      ⟨cap, (l ++ [y]).map QueEnt.entry⟩,
      ⟨nobj * 2, (List.range (qkey y)).flatMap (indexRecord (l ++ [y])) ++
        [(before qkey (l ++ [y]) (qkey y) : Int)]⟩⟩ := by
  rw [after, List.getLast?_concat]

theorem assert_ok {p : Prop} [Decidable p] (h : p) : assert p = .ok () := if_pos h

/-- The records of objects without entries, as long as the index has room. -/
theorem writeGaps_ok (index : Mapped Int) {a b : Nat} (h : index.out.length + 2 * (b - a) ≤ index.cap) :
    writeGaps index a b =
      .ok { index with out := index.out ++ (List.range (b - a)).flatMap (fun _ => [-1, 0]) } := by
  have hn : ((b : Int) - a).toNat = b - a := by omega
  have hlen : ((List.range (b - a)).flatMap (fun _ => [(-1 : Int), 0])).length = 2 * (b - a) := by
    simp [List.length_flatMap, Nat.mul_comm]
  rw [writeGaps, hn, Mapped.putAll_ok (by rw [hlen]; exact h)]

/-- The count of the last object and the records of the objects between it and `b`.  This is done in
two places: when a new object begins, with `b` that object, and after the loop, with `b` the number
of objects. -/
theorem Ordered.closeObject (h : Ordered nobj (l ++ [y])) (hcap : cap < 2 ^ 31)
    (hlen : (l ++ [y]).length ≤ cap) {b : Nat} (hy : qkey y < b) (hb : b ≤ nobj) :
    ∃ index, (after nobj cap (l ++ [y])).index.put
        (int32 ((after nobj cap (l ++ [y])).cnt - (after nobj cap (l ++ [y])).prevCnt)) = .ok index ∧
      int32 ((after nobj cap (l ++ [y])).cnt - (after nobj cap (l ++ [y])).prevCnt) > 0 ∧
      writeGaps index ((after nobj cap (l ++ [y])).prevId + 1) b =
        .ok ⟨nobj * 2, (List.range b).flatMap (indexRecord (l ++ [y]))⟩ := by
  obtain ⟨hcount, hpos⟩ := h.count_last
  have hid : y.wop.objid = (qkey y : Int) := by
    have := (h.valid y (by simp)).1
    rw [qkey, key]
    omega
  -- `cnt - prev_cnt` is the number of entries of the last object
  have hval : int32 (((l ++ [y]).length : Int) - (before qkey (l ++ [y]) (qkey y) : Nat)) =
      ((cls qkey (l ++ [y]) (qkey y)).length : Int) := by
    rw [int32_of_lt (by omega) (by omega)]
    omega
  have hrec := length_indexRecords (l ++ [y]) (qkey y)
  rw [after_snoc]
  simp only [hval]
  refine ⟨_, Mapped.put_ok ?_, by omega, ?_⟩
  · simp only [List.length_append, hrec, List.length_singleton]
    omega
  · have hgaps := writeGaps_ok
      ⟨nobj * 2, ((List.range (qkey y)).flatMap (indexRecord (l ++ [y])) ++
        [(before qkey (l ++ [y]) (qkey y) : Int)]) ++ [((cls qkey (l ++ [y]) (qkey y)).length : Int)]⟩
      (a := qkey y + 1) (b := b) (by simp only [List.length_append, hrec, List.length_singleton]; omega)
    rw [hid, show ((qkey y : Int) + 1) = ((qkey y + 1 : Nat) : Int) by push_cast; rfl, hgaps,
      h.indexRecords_last hy]

/-- The index is written up to the position of a new object. -/
theorem Ordered.writeIndex_ok (h : Ordered nobj (l ++ [x])) (hcap : cap < 2 ^ 31)
    (hlen : (l ++ [x]).length ≤ cap) (hnew : ∀ z ∈ l, qkey z < qkey x) :
    writeIndex (after nobj cap l) x.wop.objid = .ok { after nobj cap l with
      index := ⟨nobj * 2, (List.range (qkey x)).flatMap (indexRecord l) ++ [(l.length : Int)]⟩
      prevCnt := l.length
      prevId := x.wop.objid } := by
  have hx := h.valid x (by simp)
  have hid : x.wop.objid = (qkey x : Int) := by
    have := hx.1
    rw [qkey, key]
    omega
  have hxlt : qkey x < nobj := hx.key_lt
  have hrec := length_indexRecords l (qkey x)
  -- the position of the new object is the number of entries so far
  have hput : ∀ cnt : Int, cnt = l.length → (Mapped.mk (nobj * 2) ((List.range (qkey x)).flatMap
      (indexRecord l))).put cnt = .ok ⟨nobj * 2, (List.range (qkey x)).flatMap (indexRecord l) ++
        [(l.length : Int)]⟩ := by
    intro cnt hcnt
    rw [hcnt]
    exact Mapped.put_ok (by show _ < nobj * 2; rw [hrec]; omega)
  -- the first entry of all has no object before it to close; the others have
  rcases List.eq_nil_or_concat' l with rfl | ⟨pre, y, rfl⟩
  · have hgap : writeGaps ⟨nobj * 2, []⟩ ((-1 : Int) + 1) x.wop.objid =
        .ok ⟨nobj * 2, (List.range (qkey x)).flatMap (indexRecord [])⟩ := by
      have := writeGaps_ok ⟨nobj * 2, []⟩ (a := 0) (b := qkey x)
        (by simp only [List.length_nil]; omega)
      rw [hid, show ((-1 : Int) + 1) = ((0 : Nat) : Int) by rfl, this]
      rfl
    rw [writeIndex, after_nil]
    simp only [bind, Except.bind, ne_eq, not_true_eq_false, if_false, pure, Except.pure, hgap,
      hput 0 rfl]
    rfl
  · have hpre := h.init
    obtain ⟨index, h1, h2, h3⟩ := hpre.closeObject hcap (by simp at hlen ⊢; omega)
      (hnew y (by simp)) (Nat.le_of_lt hxlt)
    rw [← hid] at h3
    have hne : (after nobj cap (pre ++ [y])).prevId ≠ -1 := by
      have := (hpre.valid y (by simp)).1
      rw [after_snoc]
      show y.wop.objid ≠ -1
      omega
    have hcnt : (after nobj cap (pre ++ [y])).cnt = ((pre ++ [y]).length : Int) := by rw [after_snoc]
    unfold writeIndex
    simp only [bind, Except.bind, if_pos hne, h1, assert_ok h2, pure, Except.pure, h3]
    rw [hput _ hcnt, hcnt]

/-- What has been written of the merged log. -/
theorem after_mwm (nobj cap : Nat) (l : List QueEnt) :
    (after nobj cap l).mwm = ⟨cap, l.map QueEnt.entry⟩ := by
  rcases List.eq_nil_or_concat' l with rfl | ⟨pre, y, rfl⟩
  · rfl
  · rw [after_snoc]

/-- `cnt` counts what has been popped. -/
theorem after_cnt (nobj cap : Nat) (l : List QueEnt) : (after nobj cap l).cnt = (l.length : Int) := by
  rcases List.eq_nil_or_concat' l with rfl | ⟨pre, y, rfl⟩
  · rfl
  · rw [after_snoc]

/-- The assertions of the debug build hold, since the elements come in order: the object is not
smaller than the last, and in the same object the version is not. -/
theorem Ordered.in_order (h : Ordered nobj (l ++ [x])) (cap : Nat) : x.wop.objid ≥ (after nobj cap l).prevId ∧
    (x.wop.objid = (after nobj cap l).prevId → x.wop.version ≥ (after nobj cap l).prevVersion) := by
  rcases List.eq_nil_or_concat' l with rfl | ⟨pre, y, rfl⟩
  · have := (h.valid x (by simp)).1
    rw [after_nil]
    exact ⟨by show x.wop.objid ≥ -1; omega, fun heq => absurd heq (by show x.wop.objid ≠ -1; omega)⟩
  · have := gt_eq_false.mp ((List.pairwise_append.mp h.sorted).2.2 y (by simp) x (by simp))
    rw [after_snoc]
    exact ⟨this.1, fun heq => this.2 heq.symm⟩

/-- The first entry of an object comes after all entries of smaller objects. -/
theorem Ordered.new_object (h : Ordered nobj (l ++ [x]))
    (hnew : (after nobj cap l).prevId ≠ x.wop.objid) : ∀ z ∈ l, qkey z < qkey x := by
  intro z hz
  have hle := (h.in_order cap).1
  rcases List.eq_nil_or_concat' l with rfl | ⟨pre, y, rfl⟩
  · cases hz
  · have hzy := h.init.key_le_last z hz
    have hy := (h.init.valid y (by simp)).1
    rw [after_snoc] at hle hnew
    have h1 : x.wop.objid ≥ y.wop.objid := hle
    have h2 : y.wop.objid ≠ x.wop.objid := hnew
    have : qkey y < qkey x := by
      rw [qkey, qkey, key, key]
      omega
    omega

/-- **One turn of the merge loop** leads from `after l` to `after (l ++ [x])`.  An element of the
object the loop is at only adds an entry.  One of another object first closes the last object's
record and opens its own, at the position it gets. -/
theorem Ordered.writeEntry_ok (h : Ordered nobj (l ++ [x])) (hcap : cap < 2 ^ 31)
    (hlen : (l ++ [x]).length ≤ cap) :
    writeEntry (after nobj cap l) x = .ok (after nobj cap (l ++ [x])) := by
  have hlen' : l.length < cap := by simp at hlen; omega
  have hput : (Mapped.mk cap (l.map QueEnt.entry)).put x.entry =
      .ok ⟨cap, (l ++ [x]).map QueEnt.entry⟩ := by
    rw [Mapped.put_ok (by show (l.map QueEnt.entry).length < cap; simpa using hlen'), List.map_append]
    rfl
  have hnext : int32 ((l.length : Int) + 1) = ((l ++ [x]).length : Int) := by
    rw [int32_of_lt (by omega) (by omega)]
    simp
  obtain ⟨h1, h2⟩ := h.in_order cap
  unfold writeEntry
  simp only [bind, Except.bind, assert_ok h1, assert_ok h2, pure, Except.pure]
  -- the object the loop is at, or a new one
  by_cases hsame : (after nobj cap l).prevId = x.wop.objid
  · rw [if_neg (not_not.mpr hsame)]
    simp only [after_mwm, after_cnt, hput, hnext]
    rcases List.eq_nil_or_concat' l with rfl | ⟨pre, y, rfl⟩
    · have := (h.valid x (by simp)).1
      have : (-1 : Int) = x.wop.objid := hsame
      omega
    · rw [after_snoc nobj cap pre y] at hsame ⊢
      have hid : y.wop.objid = x.wop.objid := hsame
      have hkey : qkey y = qkey x := by rw [qkey, qkey, key, key, hid]
      rw [after_snoc nobj cap (pre ++ [y]) x, before_snoc (pre ++ [y]) x,
        indexRecords_snoc (pre ++ [y]) x, hkey, hid]
  · have hnew := h.new_object hsame
    have hbefore : before qkey l (qkey x) = l.length := before_eq_length hnew
    rw [if_pos hsame, h.writeIndex_ok hcap hlen hnew]
    simp only [after_mwm, after_cnt, hput, hnext]
    rw [after_snoc nobj cap l x, before_snoc, indexRecords_snoc, hbefore]

/-- **All turns of the merge loop.** -/
theorem Ordered.writeEntries_ok (hcap : cap < 2 ^ 31) (h : Ordered nobj l) (hlen : l.length ≤ cap) :
    l.foldlM writeEntry (after nobj cap []) = .ok (after nobj cap l) := by
  induction l using List.reverseRecOn with
  | nil => rfl
  | append_singleton l x ih =>
    rw [List.foldlM_append, ih h.init (by simp at hlen; omega)]
    show [x].foldlM writeEntry (after nobj cap l) = _
    rw [List.foldlM_cons, h.writeEntry_ok hcap hlen]
    rfl

/-- **The index has a record for every object**: the last object's is closed after the loop, and
those after it have no entries. -/
theorem Ordered.finishIndex_ok (hcap : cap < 2 ^ 31) (h : Ordered nobj l) (hlen : l.length ≤ cap)
    (hne : l ≠ []) :
    finishIndex nobj (after nobj cap l) =
      .ok ⟨nobj * 2, (List.range nobj).flatMap (indexRecord l)⟩ := by
  obtain ⟨pre, y, rfl⟩ : ∃ pre y, l = pre ++ [y] :=
    (List.eq_nil_or_concat' l).resolve_left hne
  obtain ⟨index, h1, -, h3⟩ :=
    h.closeObject hcap hlen (h.valid y (by simp)).key_lt (Nat.le_refl nobj)
  unfold finishIndex
  simp only [bind, Except.bind, h1, h3]

end Index

/-! ## 3. Reading the index back

A record is -1 and 0 for an object without entries, and otherwise a position in the merged log and a
length. -/

/-- What the loader makes of an object's index record. -/
def readerOf (l : List QueEnt) (o : Nat) : WaitReaderLog :=
  if cls qkey l o = [] then ⟨none, 0, -1⟩
  else ⟨some (before qkey l o : Int), 0, ((cls qkey l o).length : Int)⟩

/-- The loader makes a reader log of each record. -/
theorem loadIndex_records (l : List QueEnt) (os : List Nat) :
    loadIndex os.length (os.flatMap (indexRecord l)) = .ok (os.map (readerOf l)) := by
  induction os with
  | nil => rfl
  | cons o os ih =>
    rw [List.flatMap_cons, List.length_cons, List.map_cons, indexRecord, readerOf]
    by_cases hc : cls qkey l o = []
    · rw [if_pos hc, if_pos hc]
      simp only [List.cons_append, List.nil_append, loadIndex, if_true, List.drop_succ_cons,
        List.drop_zero, bind, Except.bind, ih]
      rfl
    · have hpos : ¬ ((before qkey l o : Int) = -1) := by omega
      rw [if_neg hc, if_neg hc]
      simp only [List.cons_append, List.nil_append, loadIndex, if_neg hpos, bind, Except.bind, ih]
      rfl

/-- **An object's slice of the merged log is its class.** -/
theorem slice_readerOf {l : List QueEnt} (hs : l.Pairwise (fun a b => qkey a ≤ qkey b)) (o : Nat) :
    (readerOf l o).slice (l.map QueEnt.entry) = (cls qkey l o).map QueEnt.entry := by
  unfold readerOf
  by_cases hc : cls qkey l o = []
  · rw [if_pos hc, hc]
    rfl
  · rw [if_neg hc, WaitReaderLog.slice]
    simp only [Int.toNat_natCast]
    rw [← List.map_drop, ← List.map_take, cls_eq_segment hs]

/-- Which places of the merged log belong to an object. -/
theorem covers_readerOf {l : List QueEnt} {o p : Nat} : (readerOf l o).Covers p ↔
    before qkey l o ≤ p ∧ p < before qkey l o + (cls qkey l o).length := by
  unfold readerOf
  by_cases hc : cls qkey l o = []
  · rw [if_pos hc, hc]
    simp only [WaitReaderLog.Covers, List.length_nil]
    constructor
    · rintro ⟨i, hi, -⟩
      cases hi
    · omega
  · rw [if_neg hc]
    simp only [WaitReaderLog.Covers, Option.some.injEq, exists_eq_left']
    omega

/-! ## 4. The merge of grouped logs

The comparison of `merge-memop` is by object, then by version, and says nothing about threads; ties
are broken by the priority queue, any one of the library's.  An element of the queue carries its
thread in a `tid_t`, a signed char, which is why there may be 127 threads. -/

/-- The comparison is transitive. -/
theorem queEnt_trans (a b c : QueEnt) (h1 : a.gt b = false) (h2 : b.gt c = false) :
    a.gt c = false := by
  rw [gt_eq_false] at *
  refine ⟨by omega, ?_⟩
  intro heq
  have := h1.2 (by omega)
  have := h2.2 (by omega)
  omega

/-- It is total, so the queue's order is an order. -/
theorem queEnt_comparison : Comparison QueEnt.gt where
  total a b := by
    rw [gt_eq_false, gt_eq_false]
    omega
  trans := queEnt_trans

/-- An element stays in its thread's log. -/
theorem queEnt_tagging :
    Tagging (fun qe : QueEnt => qe.tid.toNat) (fun qe wop => (⟨qe.tid, wop⟩ : QueEnt)) :=
  ⟨fun _ _ => rfl, fun _ _ _ => rfl⟩

/-- The elements a thread's log becomes. -/
def tagged (t : Nat) (wop : WaitMemop) : QueEnt := ⟨tidT t, wop⟩

/-- The size of the merged log, from the sizes of the files. -/
theorem totalSize_eq (log : List (Option (List WaitMemop))) : totalSize log =
    ((List.range log.length).flatMap (entries log)).length * sizeofWaitMemop := by
  unfold totalSize
  induction List.range log.length with
  | nil => simp
  | cons o os ih =>
    rw [List.map_cons, List.sum_cons, ih, List.flatMap_cons, List.length_append, Nat.add_mul]

/-- A merge of grouped logs comes in order: each log is sorted, and so the merge is. -/
theorem ordered_of_merges {nobj n : Nat} {q : Nat → List WaitMemop} {out : List QueEnt}
    (hm : Merges QueEnt.gt n (fun i => (q i).map (tagged i)) out)
    (hvalid : ∀ i < n, ∀ e ∈ q i, Valid nobj e)
    (hsorted : ∀ i < n, (q i).Pairwise (fun a b => (tagged i a).gt (tagged i b) = false)) :
    Ordered nobj out := by
  refine ⟨?_, hm.sorted queEnt_trans ?_⟩
  · intro qe hqe
    obtain ⟨i, hi, hmem⟩ := mem_pending.mp (hm.perm.mem_iff.mp hqe)
    obtain ⟨e, he, rfl⟩ := List.mem_map.mp hmem
    exact hvalid i hi e he
  · intro i hi
    rw [List.pairwise_map]
    exact hsorted i hi

/-- The merge loop and the index, for any entries in order. -/
theorem mergeInto_ok (P : PQueue QueEnt QueEnt.gt) {nobj : Nat}
    {log : List (Option (List WaitMemop))} {out : List QueEnt}
    (hout : mergeLoop P (fun qe => qe.tid.toNat) (fun qe wop => (⟨qe.tid, wop⟩ : QueEnt))
      ((List.range log.length).flatMap (entries log)).length
      (enqueueAll P tagged log.length (entries log)).1
      (enqueueAll P tagged log.length (entries log)).2 = some out)
    (hord : Ordered nobj out) (hcap : out.length < 2 ^ 31) (hne : out ≠ []) :
    mergeInto P nobj log ⟨out.length, []⟩ ⟨nobj * 2, []⟩ =
      .ok (out.map QueEnt.entry, (List.range nobj).flatMap (indexRecord out)) := by
  have hloop := mergeLoopWith_eq P writeEntry (s := after nobj out.length []) hout
  rw [hord.writeEntries_ok hcap (Nat.le_refl _), after_nil] at hloop
  have htag : (fun (i : Nat) wop => (⟨tidT i, wop⟩ : QueEnt)) = tagged := rfl
  unfold mergeInto
  simp only [htag, hloop]
  rw [ok_bind, hord.finishIndex_ok hcap (Nat.le_refl _) hne, ok_bind, after_mwm,
    Mapped.file_of_full _ (by simp), Mapped.file_of_full _ (by
      show ((List.range nobj).flatMap (indexRecord out)).length = nobj * 2
      rw [length_indexRecords, Nat.mul_comm])]
  rfl

/-- **`merge_memop`**: no file for no entries, else the merge and an index record for every object;
no assertion fails and nothing is written outside the files.  The merge is any of those the queue
may make; what follows from it is the same for all. -/
theorem mergeMemop_ok (P : PQueue QueEnt QueEnt.gt) {nobj : Nat} (hobj : 1 ≤ nobj)
    (log : List (Option (List WaitMemop))) (hn : log.length ≤ 127)
    (hvalid : ∀ i < log.length, ∀ e ∈ entries log i, Valid nobj e)
    (hsorted : ∀ i < log.length,
      (entries log i).Pairwise (fun a b => (tagged i a).gt (tagged i b) = false))
    (hcount : ((List.range log.length).flatMap (entries log)).length < 2 ^ 31) :
    ∃ out, Merges QueEnt.gt log.length (fun i => (entries log i).map (tagged i)) out ∧
      Ordered nobj out ∧
      mergeMemop P nobj log log.length = .ok (if out = [] then none
        else some (out.map QueEnt.entry, (List.range nobj).flatMap (indexRecord out))) := by
  obtain ⟨out, hout, hm⟩ := merge_merges P queEnt_tagging tagged (entries log) log.length
    (fun _ _ _ => by simp only [tagged]) (fun i hi e => by
      simp only [tagged, tidT_of_lt (i := i) (by omega)]
      omega)
  have hord := ordered_of_merges hm hvalid hsorted
  have hlen : ((List.range log.length).flatMap (entries log)).length = out.length := by
    rw [hm.perm.length_eq, pending, List.length_flatMap, List.length_flatMap]
    simp
  rw [hlen] at hcount
  have hsize : totalSize log = out.length * sizeofWaitMemop := by rw [totalSize_eq, hlen]
  refine ⟨out, hm, hord, ?_⟩
  rw [mergeMemop, assert_ok rfl, ok_bind, hsize]
  by_cases hnil : out = []
  · rw [if_pos hnil, if_pos (by rw [hnil]; rfl)]
    rfl
  · have hpos : 0 < out.length := List.length_pos_iff.mpr hnil
    have hne : out.length * sizeofWaitMemop ≠ 0 := Nat.mul_ne_zero (by omega) (by decide)
    rw [if_neg hnil, if_neg hne, assert_ok (Nat.mul_mod_left _ _), ok_bind,
      Nat.mul_div_cancel _ (by decide), int32_of_lt (by omega) (by omega), Mapped.create_ok hpos,
      ok_bind, Mapped.create_ok (by omega), ok_bind, mergeInto_ok P hout hord hcount hnil, ok_bind]
    rfl

/-! ## 5. The whole pipeline

`Loaded` is what the replayer relies on, and is stated without the programs: slices, positions,
sizes. -/

/-- The entries for object `o` in the log of thread `t`, tagged with the thread. -/
def objEntries (logs : Nat → List WaitMemop) (o t : Nat) : List ReplayWaitMemop :=
  ((logs t).filter (fun e => e.objid == (o : Int))).map (fun e => ⟨e.version, e.memop, t⟩)

/-- What object `o` has to get: the entries of all threads for it, by version, each thread's in the
thread's order. -/
structure SliceOf (nthr : Nat) (logs : Nat → List WaitMemop) (o : Nat) (r : WaitReaderLog)
    (memop : List ReplayWaitMemop) : Prop where
  perm : (r.slice memop).Perm ((List.range nthr).flatMap (objEntries logs o))
  sorted : (r.slice memop).Pairwise (fun a b => a.version ≤ b.version)
  order : ∀ t < nthr, (r.slice memop).filter (fun e => e.tid == t) = objEntries logs o t
  size : r.slice memop ≠ [] → r.size = (r.slice memop).length
  empty : (∀ t < nthr, objEntries logs o t = []) → r.log = none ∧ r.size = -1

/-- What the replayer has loaded from the files. -/
structure Loaded (nobj nthr : Nat) (logs : Nat → List WaitMemop)
    (files : Option (List ReplayWaitMemop × List Int)) (readers : List WaitReaderLog) : Prop where
  length : readers.length = nobj
  none_iff : files = none ↔ ∀ t < nthr, logs t = []
  index : ∀ memop index, files = some (memop, index) → index.length = 2 * nobj
  covered : ∀ p < ((files.map Prod.fst).getD []).length,
    ∃! o, o < nobj ∧ ∃ r, readers[o]? = some r ∧ r.Covers p
  inside : ∀ r ∈ readers, ∀ p, r.Covers p → p < ((files.map Prod.fst).getD []).length
  slices : ∀ o r, readers[o]? = some r → SliceOf nthr logs o r ((files.map Prod.fst).getD [])

section Pipeline

variable {nobj nthr : Nat} {logs : Nat → List WaitMemop} {out : List QueEnt}

/-- The entries of a thread for an object are a class of its log. -/
theorem objEntries_eq {t : Nat} (hvalid : ∀ e ∈ logs t, Valid nobj e) (o : Nat) (ht : t < 128) :
    objEntries logs o t = ((cls key (logs t) o).map (tagged t)).map QueEnt.entry := by
  have hfilter : (logs t).filter (fun e => e.objid == (o : Int)) = cls key (logs t) o := by
    refine List.filter_congr ?_
    intro e he
    have := (hvalid e he).1
    rw [Bool.eq_iff_iff, beq_iff_eq, beq_iff_eq, key]
    omega
  rw [objEntries, hfilter, List.map_map]
  refine List.map_congr_left ?_
  intro e _
  simp [QueEnt.entry, tagged, tidT_of_lt ht]

/-- Tagging does not move an entry to another object. -/
theorem cls_tagged (t o : Nat) (l : List WaitMemop) :
    cls qkey (l.map (tagged t)) o = (cls key l o).map (tagged t) := by
  rw [cls, List.filter_map]
  rfl

/-- A class of the merged log: the classes of all threads' logs. -/
theorem cls_merged_perm
    (hm : Merges QueEnt.gt nthr (fun i => (classes key nobj (logs i)).map (tagged i)) out) {o : Nat}
    (ho : o < nobj) :
    (cls qkey out o).Perm ((List.range nthr).flatMap (fun t => (cls key (logs t) o).map (tagged t))) := by
  refine (hm.perm.filter _).trans (List.Perm.of_eq ?_)
  rw [pending, List.filter_flatMap]
  refine List.flatMap_congr ?_
  intro t _
  rw [← cls, cls_tagged, cls_classes ho]

/-- A thread's part of a class: the entries of its own log for the object, in their order. -/
theorem cls_merged_thread (hn : nthr ≤ 127)
    (hm : Merges QueEnt.gt nthr (fun i => (classes key nobj (logs i)).map (tagged i)) out) {o t : Nat}
    (ho : o < nobj) (ht : t < nthr) :
    (cls qkey out o).filter (fun qe => qe.tid.toNat == t) = (cls key (logs t) o).map (tagged t) := by
  have hthr := hm.filter_eq (fun qe => qe.tid.toNat) (fun i hi x hx => by
    obtain ⟨e, -, rfl⟩ := List.mem_map.mp hx
    simp only [tagged, tidT_of_lt (i := i) (by omega)]
    omega) t ht
  have hcomm : (cls qkey out o).filter (fun qe => qe.tid.toNat == t) =
      cls qkey (out.filter (fun qe => qe.tid.toNat == t)) o := by
    rw [cls, cls, List.filter_filter, List.filter_filter]
    refine List.filter_congr (fun x _ => Bool.and_comm _ _)
  rw [hcomm, hthr, cls_tagged, cls_classes ho]

/-- **The slice of an object.**  It is the class of the merged log, so it has the entries of all
threads, sorted by version since the merge is sorted within an object, and each thread's in order
since a merge keeps the order of each of its inputs. -/
theorem sliceOf_readerOf (hn : nthr ≤ 127) (hvalid : ∀ t < nthr, ∀ e ∈ logs t, Valid nobj e)
    (hm : Merges QueEnt.gt nthr (fun i => (classes key nobj (logs i)).map (tagged i)) out)
    (hord : Ordered nobj out) {o : Nat} (ho : o < nobj) :
    SliceOf nthr logs o (readerOf out o) (out.map QueEnt.entry) := by
  -- the output is sorted by object, so the entries of one are a segment
  have hkeys : out.Pairwise (fun a b => qkey a ≤ qkey b) := by
    refine hord.sorted.imp_of_mem (fun {a b} ha _ hgt => ?_)
    have := (gt_eq_false.mp hgt).1
    have := (hord.valid a ha).1
    rw [qkey, qkey, key, key]
    omega
  have hslice := slice_readerOf hkeys o
  have hobj : ∀ t < nthr, objEntries logs o t = ((cls key (logs t) o).map (tagged t)).map QueEnt.entry :=
    fun t ht => objEntries_eq (hvalid t ht) o (by omega)
  have hperm : ((cls qkey out o).map QueEnt.entry).Perm ((List.range nthr).flatMap (objEntries logs o)) := by
    refine ((cls_merged_perm hm ho).map QueEnt.entry).trans (List.Perm.of_eq ?_)
    rw [List.map_flatMap]
    exact List.flatMap_congr (fun t ht => (hobj t (List.mem_range.mp ht)).symm)
  constructor
  · rw [hslice]
    exact hperm
  · rw [hslice, List.pairwise_map]
    refine (hord.sorted.filter _).imp_of_mem (fun {a b} ha hb hgt => ?_)
    obtain ⟨ha, hka⟩ := mem_cls.mp ha
    obtain ⟨hb, hkb⟩ := mem_cls.mp hb
    refine (gt_eq_false.mp hgt).2 ?_
    have := (hord.valid a ha).1
    have := (hord.valid b hb).1
    rw [qkey, key] at hka hkb
    omega
  · intro t ht
    rw [hslice, List.filter_map, hobj t ht, ← cls_merged_thread hn hm ho ht]
    rfl
  · intro hne
    rw [hslice] at hne ⊢
    rw [readerOf, if_neg (fun h => hne (by rw [h]; rfl)), List.length_map]
  · intro hempty
    have hnil : cls qkey out o = [] := by
      have hflat : (List.range nthr).flatMap (objEntries logs o) = [] :=
        List.flatMap_eq_nil_iff.mpr (fun t ht => hempty t (List.mem_range.mp ht))
      rw [hflat, List.perm_nil, List.map_eq_nil_iff] at hperm
      exact hperm
    rw [readerOf, if_pos hnil]
    exact ⟨rfl, rfl⟩

/-- The grouped log of a thread is sorted: by object since it is grouped, and by version within an
object since the recorder logs the versions of an object in rising order (`hver`). -/
theorem classes_sorted {l : List WaitMemop} (hvalid : ∀ e ∈ l, Valid nobj e)
    (hver : l.Pairwise (fun a b => a.objid = b.objid → a.version ≤ b.version)) (t : Nat) :
    (classes key nobj l).Pairwise (fun a b => (tagged t a).gt (tagged t b) = false) := by
  have hpos : ∀ e ∈ classes key nobj l, 0 ≤ e.objid := fun e he => (hvalid e (mem_classes.mp he).1).1
  have hlex : (classes key nobj l).Pairwise (fun a b => key a ≤ key b ∧
      (a.objid = b.objid → a.version ≤ b.version)) := by
    refine pairwise_classes (fun a b hlt => ⟨Nat.le_of_lt hlt, ?_⟩) ?_
    · intro heq
      rw [key, key, heq] at hlt
      exact absurd hlt (Nat.lt_irrefl _)
    · intro o
      refine (hver.filter _).imp_of_mem (fun {a b} ha hb h => ⟨?_, h⟩)
      rw [(mem_cls.mp ha).2, (mem_cls.mp hb).2]
  refine hlex.imp_of_mem (fun {a b} ha hb h => gt_eq_false.mpr ⟨?_, h.2⟩)
  have := hpos a ha
  have := hpos b hb
  have := h.1
  rw [key, key] at this
  simp only [tagged]
  omega

/-- The `sorted-memop` file of a thread. -/
def grouped (nobj : Nat) (logs : Nat → List WaitMemop) (t : Nat) : Option (List WaitMemop) :=
  if logs t = [] then none else some (classes key nobj (logs t))

/-- The files of the merge that pops `out`. -/
def filesOf (nobj : Nat) (out : List QueEnt) : Option (List ReplayWaitMemop × List Int) :=
  if out = [] then none
  else some (out.map QueEnt.entry, (List.range nobj).flatMap (indexRecord out))

/-- Missing files are empty logs. -/
theorem grouped_getD (t : Nat) : (grouped nobj logs t).getD [] = classes key nobj (logs t) := by
  unfold grouped
  split
  · rename_i hnil
    rw [hnil]
    exact (List.flatMap_eq_nil_iff.mpr (fun _ _ => rfl)).symm
  · rfl

/-- Grouping keeps all entries. -/
theorem length_grouped {t : Nat} (hvalid : ∀ e ∈ logs t, Valid nobj e) :
    (classes key nobj (logs t)).length = (logs t).length := by
  rw [length_classes, before_eq_length (fun e he => (hvalid e he).key_lt)]

/-- **`merge-memop` on the files of `reorder-memop`.** -/
theorem mergeMain_ok (P : PQueue QueEnt QueEnt.gt) (hobj : 1 ≤ nobj) (hn : nthr ≤ 127)
    (hvalid : ∀ t < nthr, ∀ e ∈ logs t, Valid nobj e)
    (hver : ∀ t < nthr, (logs t).Pairwise (fun a b => a.objid = b.objid → a.version ≤ b.version))
    (hcount : ((List.range nthr).flatMap logs).length < 2 ^ 31) :
    ∃ out, Merges QueEnt.gt nthr (fun i => (classes key nobj (logs i)).map (tagged i)) out ∧
      Ordered nobj out ∧ mergeMain P nobj nthr (grouped nobj logs) = .ok (filesOf nobj out) := by
  have hne : ∀ t < nthr, grouped nobj logs t ≠ some [] := by
    intro t ht h
    have hlen := length_grouped (hvalid t ht)
    unfold grouped at h
    split at h
    · cases h
    · rename_i hnil
      rw [Option.some.inj h] at hlen
      exact hnil (List.length_eq_zero_iff.mp hlen.symm)
  have hlog : ((List.range nthr).map (grouped nobj logs)).length = nthr := by simp
  -- what the merger reads of a thread's file is what `reorder-memop` has left
  have hent : ∀ t < nthr, entries ((List.range nthr).map (grouped nobj logs)) t =
      classes key nobj (logs t) := fun t ht => by rw [entries_map_range _ ht, grouped_getD]
  obtain ⟨out, hm, hord, hmerge⟩ := mergeMemop_ok P hobj ((List.range nthr).map (grouped nobj logs))
    (by rw [hlog]; exact hn)
    (by
      rw [hlog]
      intro t ht e he
      rw [hent t ht] at he
      exact hvalid t ht e (mem_classes.mp he).1)
    (by
      rw [hlog]
      intro t ht
      rw [hent t ht]
      exact classes_sorted (hvalid t ht) (hver t ht) t)
    (by
      rw [hlog]
      refine Nat.lt_of_le_of_lt (Nat.le_of_eq ?_) hcount
      rw [List.length_flatMap, List.length_flatMap]
      refine congrArg List.sum (List.map_congr_left ?_)
      intro t ht
      rw [hent t (List.mem_range.mp ht), length_grouped (hvalid t (List.mem_range.mp ht))])
  rw [hlog] at hm hmerge
  refine ⟨out, hm.congr _ (fun t ht => by rw [hent t ht]), hord, ?_⟩
  rw [mergeMain, open_all _ _ hne, ok_bind, tidT_of_lt (by omega), hmerge]
  rfl

/-- The loader finds the segments of the classes; without files it has empty logs for all objects.
-/
theorem loadWaitReaderLog_ok (hobj : 1 ≤ nobj) (out : List QueEnt) :
    loadWaitReaderLog nobj ((filesOf nobj out).map Prod.fst) ((filesOf nobj out).map Prod.snd) =
      .ok ((List.range nobj).map (readerOf out)) := by
  unfold filesOf
  by_cases hnil : out = []
  · rw [if_pos hnil, hnil]
    have hconst : (List.range nobj).map (readerOf []) = List.replicate nobj ⟨none, 0, -1⟩ := by
      rw [List.eq_replicate_iff]
      refine ⟨by simp, ?_⟩
      intro r hr
      obtain ⟨o, -, rfl⟩ := List.mem_map.mp hr
      rfl
    rw [hconst]
    rfl
  · obtain ⟨qe, rest, hcons⟩ := List.exists_cons_of_ne_nil hnil
    have hmemop : openMappedLog (some (out.map QueEnt.entry)) = .ok (some (out.map QueEnt.entry)) := by
      rw [hcons]
      rfl
    have hindex : openMappedLog (some ((List.range nobj).flatMap (indexRecord out))) =
        .ok (some ((List.range nobj).flatMap (indexRecord out))) := by
      have hlen := length_indexRecords out nobj
      match h : (List.range nobj).flatMap (indexRecord out) with
      | [] =>
        rw [h] at hlen
        simp only [List.length_nil] at hlen
        omega
      | i :: is => rfl
    have hload := loadIndex_records out (List.range nobj)
    rw [List.length_range] at hload
    rw [if_neg hnil, loadWaitReaderLog]
    simp only [Option.map_some, hmemop, hindex, ok_bind]
    exact hload

/-- **The replayer has what it has to get.**  Every place of the merged log belongs to one object:
the segments of the classes cover the list and do not overlap. -/
theorem loaded_filesOf (hn : nthr ≤ 127) (hvalid : ∀ t < nthr, ∀ e ∈ logs t, Valid nobj e)
    (hm : Merges QueEnt.gt nthr (fun i => (classes key nobj (logs i)).map (tagged i)) out)
    (hord : Ordered nobj out) :
    Loaded nobj nthr logs (filesOf nobj out) ((List.range nobj).map (readerOf out)) := by
  have hmemop : ((filesOf nobj out).map Prod.fst).getD [] = out.map QueEnt.entry := by
    unfold filesOf
    by_cases hnil : out = []
    · rw [if_pos hnil, hnil]
      rfl
    · rw [if_neg hnil]
      rfl
  -- every entry is of an object that the index has a record for
  have hkeys : ∀ qe ∈ out, qkey qe < nobj := fun qe hqe => (hord.valid qe hqe).key_lt
  have hget : ∀ o, o < nobj → ((List.range nobj).map (readerOf out))[o]? = some (readerOf out o) := by
    intro o ho
    simp [ho]
  refine ⟨by simp, ?_, ?_, ?_, ?_, ?_⟩
  · have hlen : out.length = ((List.range nthr).flatMap (fun t => classes key nobj (logs t))).length := by
      rw [hm.perm.length_eq, pending, List.length_flatMap, List.length_flatMap]
      simp
    have hiff : filesOf nobj out = none ↔ out = [] := by
      unfold filesOf
      split <;> simp [*]
    rw [hiff, ← List.length_eq_zero_iff, hlen, List.length_eq_zero_iff, List.flatMap_eq_nil_iff]
    refine forall_congr' ?_
    intro t
    rw [List.mem_range]
    refine imp_congr_right ?_
    intro ht
    rw [← List.length_eq_zero_iff, length_grouped (hvalid t ht), List.length_eq_zero_iff]
  · intro memop index hfiles
    unfold filesOf at hfiles
    split at hfiles
    · cases hfiles
    · cases hfiles
      exact length_indexRecords out nobj
  -- each position of the file is in the slice of one object
  · rw [hmemop, List.length_map]
    intro p hp
    obtain ⟨o, ⟨ho, hseg⟩, huniq⟩ := existsUnique_segment hkeys hp
    refine ⟨o, ⟨ho, readerOf out o, hget o ho, covers_readerOf.mpr hseg⟩, ?_⟩
    rintro o' ⟨ho', r, hr, hcov⟩
    rw [hget o' ho'] at hr
    cases hr
    exact huniq o' ⟨ho', covers_readerOf.mp hcov⟩
  -- and a slice does not go beyond the end
  · rw [hmemop, List.length_map]
    intro r hr p hcov
    obtain ⟨o, ho, rfl⟩ := List.mem_map.mp hr
    obtain ⟨-, hp⟩ := covers_readerOf.mp hcov
    rw [← before_succ] at hp
    have := before_mono qkey out (show o + 1 ≤ nobj from List.mem_range.mp ho)
    rw [before_eq_length hkeys] at this
    omega
  · intro o r hr
    have ho : o < nobj := by
      have := (List.getElem?_eq_some_iff.mp hr).1
      simpa using this
    rw [hget o ho] at hr
    cases hr
    rw [hmemop]
    exact sliceOf_readerOf hn hvalid hm hord ho

/-- **The pipeline loses, duplicates and misplaces nothing.**  `reorder-memop` for every thread,
`merge-memop` and `load_wait_reader_log` all come to their end, no assertion fails, and the
replayer has what it has to get. -/
theorem memop_pipeline (P : PQueue QueEnt QueEnt.gt) (hobj : 1 ≤ nobj) (hn : nthr ≤ 127)
    (sentinel : Nat → WaitMemop) (hsent : ∀ t < nthr, (sentinel t).objid = -1)
    (hvalid : ∀ t < nthr, ∀ e ∈ logs t, 0 ≤ e.objid ∧ e.objid < nobj ∧ 0 ≤ e.memop)
    (hver : ∀ t < nthr, (logs t).Pairwise (fun a b => a.objid = b.objid → a.version ≤ b.version))
    (hcount : ((List.range nthr).flatMap logs).length < 2 ^ 31) :
    ∃ sorted files readers,
      (∀ t < nthr, reorderMain nobj (some (logs t ++ [sentinel t])) = .ok (sorted t)) ∧
      mergeMain P nobj nthr sorted = .ok files ∧
      loadWaitReaderLog nobj (files.map Prod.fst) (files.map Prod.snd) = .ok readers ∧
      Loaded nobj nthr logs files readers := by
  obtain ⟨out, hm, hord, hmerge⟩ := mergeMain_ok P hobj hn hvalid hver hcount
  refine ⟨grouped nobj logs, filesOf nobj out, (List.range nobj).map (readerOf out), ?_,
    hmerge, loadWaitReaderLog_ok hobj out, loaded_filesOf hn hvalid hm hord⟩
  intro t ht
  rw [reorderMain_ok (hsent t ht) (hvalid t ht)]
  rfl

/-- Three logs, the second empty, and an object in the middle without entries. -/
def threeLogs : Nat → List WaitMemop
  | 0 => [⟨2, 0, 1⟩, ⟨0, 1, 3⟩, ⟨2, 4, 5⟩]
  | 2 => [⟨2, 0, 0⟩, ⟨0, 1, 2⟩]
  | _ => []

theorem memop_pipeline_three : ∃ sorted files readers,
    (∀ t < 3, reorderMain 3 (some (threeLogs t ++ [⟨-1, 0, 0⟩])) = .ok (sorted t)) ∧
      mergeMain (listQueue _ queEnt_comparison) 3 3 sorted = .ok files ∧
      loadWaitReaderLog 3 (files.map Prod.fst) (files.map Prod.snd) = .ok readers ∧
      Loaded 3 3 threeLogs files readers :=
  memop_pipeline _ (by decide) (by decide) (fun _ => ⟨-1, 0, 0⟩) (fun _ _ => rfl) (by decide)
    (by decide) (by decide)

end Pipeline

/-- The index of these logs, with the gap record of object 1. -/
example : mergeMain (listQueue _ queEnt_comparison) 3 3 (grouped 3 threeLogs) =
    .ok (some ([⟨1, 2, 2⟩, ⟨1, 3, 0⟩, ⟨0, 1, 0⟩, ⟨0, 0, 2⟩, ⟨4, 5, 0⟩], [0, 2, -1, 0, 2, 3])) := by
  decide

end MemOrder.Memop
