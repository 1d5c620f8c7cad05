/-
# Atomic runs of versioned accesses

What the recorders provide and the replayer relies on is one thing: the accesses take effect one
at a time, in some total order, each object's version starting at 0 and going up by 2 at each
write.  `Legal L m₀ tr` says that the list `tr` is such an order from initial memory `m₀`.

Everything later proofs need about a legal order is here:

* a version COUNTS the writes before it (`Legal.version_split`), so on one object the versions
  are monotone along the order, every even number below a version was written
  (`Legal.exists_write_of_lt`) and no two writes have the same version (`Legal.write_unique`);
* a value is a function of its version: `valAt m₀ tr a v` is what address `a` holds when its
  object is at version `v`, a read at version `v` returns it (`Legal.read_val`) and the write at
  version `v` sets it for `v + 2` (`Legal.valAt_write`).
-/
import MemOrder.Mem

namespace MemOrder

open Trace

variable {Addr : Type} [DecidableEq Addr]

/-! ## 1. The shared state and the legal orders

The meaning of an order of accesses: they are applied one after the other, and each has recorded
what it found. -/

/-- Shared memory and the version of every object. -/
structure Shared (Addr : Type) where
  mem : Addr → Val
  ver : Nat → Int

/-- The effect of one access. -/
def Shared.apply (L : Layout Addr) (s : Shared Addr) (e : Event Addr) : Shared Addr :=
  match e.op with
  | .R => s
  | .W => { mem := Function.update s.mem e.addr e.val
            ver := Function.update s.ver (L.obj e) (s.ver (L.obj e) + 2) }

/-- The shared state after the accesses `tr`, from memory `m₀` with all versions 0. -/
def Shared.after (L : Layout Addr) (m₀ : Addr → Val) (tr : List (Event Addr)) : Shared Addr :=
  tr.foldl (Shared.apply L) ⟨m₀, fun _ => 0⟩

/-- `e` can be the next access after `tr`: it is its thread's next, at the object's current
version, and a read returns the current value. -/
structure Enabled (L : Layout Addr) (m₀ : Addr → Val) (tr : List (Event Addr))
    (e : Event Addr) : Prop where
  memop : e.memop = (thread e.tid tr).length
  version : e.version = (Shared.after L m₀ tr).ver (L.obj e)
  value : e.op = .R → e.val = (Shared.after L m₀ tr).mem e.addr

/-- The legal total orders of atomic accesses. -/
inductive Legal (L : Layout Addr) (m₀ : Addr → Val) : List (Event Addr) → Prop
  | nil : Legal L m₀ []
  | snoc {tr : List (Event Addr)} {e : Event Addr} :
      Legal L m₀ tr → Enabled L m₀ tr e → Legal L m₀ (tr ++ [e])

/-- A complete recorded run: a legal order of the accesses of `nthr` threads in which every
thread makes the calls its program makes, to the program's end. -/
structure Run (L : Layout Addr) (nthr : Nat) (prog : Nat → Prog Addr) (m₀ : Addr → Val) where
  trace : List (Event Addr)
  legal : Legal L m₀ trace
  tid_lt : ∀ e ∈ trace, e.tid < nthr
  follows : ∀ pre e post, trace = pre ++ e :: post →
    prog e.tid (results (thread e.tid pre)) = some e.acc
  complete : ∀ t < nthr, prog t (results (thread t trace)) = none

/-- The memory a recorded run leaves. -/
def Run.finalMem {L : Layout Addr} {nthr : Nat} {prog : Nat → Prog Addr} {m₀ : Addr → Val}
    (r : Run L nthr prog m₀) : Addr → Val := (Shared.after L m₀ r.trace).mem

/-! ## 2. Versions count writes

Everything in this section is read off `after_ver`.  Two accesses of one object are compared by the
writes before them, so the recorded versions alone tell which of the two came first wherever that
matters. -/

section Versions

variable {L : Layout Addr} {m₀ : Addr → Val} {tr pre post : List (Event Addr)} {e w : Event Addr}

/-- The writes to object `o`, in order. -/
def writesTo (L : Layout Addr) (o : Nat) (tr : List (Event Addr)) : List (Event Addr) :=
  tr.filter (fun e => e.op == .W && L.obj e == o)

omit [DecidableEq Addr] in
/-- A write to object `o`. -/
@[simp] theorem mem_writesTo {o : Nat} : e ∈ writesTo L o tr ↔ e ∈ tr ∧ e.op = .W ∧ L.obj e = o := by
  simp [writesTo]

@[simp] theorem after_nil : Shared.after L m₀ [] = ⟨m₀, fun _ => 0⟩ := rfl

/-- One more access. -/
theorem after_snoc : Shared.after L m₀ (tr ++ [e]) = (Shared.after L m₀ tr).apply L e := by
  simp [Shared.after]

/-- One more access moves the version of the object it writes, and no other. -/
theorem after_ver_snoc (o : Nat) :
    (Shared.after L m₀ (tr ++ [e])).ver o
      = (Shared.after L m₀ tr).ver o + if e.op = .W ∧ L.obj e = o then 2 else 0 := by
  rw [after_snoc, Shared.apply]
  cases hop : e.op with
  | R => simp
  | W =>
    by_cases ho : L.obj e = o
    · subst ho; simp
    · simp [ho, Function.update_of_ne (Ne.symm ho)]

/-- One more access moves the memory word it writes, and no other. -/
theorem after_mem_snoc (a : Addr) :
    (Shared.after L m₀ (tr ++ [e])).mem a
      = if e.op = .W ∧ e.addr = a then e.val else (Shared.after L m₀ tr).mem a := by
  rw [after_snoc, Shared.apply]
  cases hop : e.op with
  | R => simp
  | W =>
    by_cases ha : e.addr = a
    · subst ha; simp
    · simp [ha, Function.update_of_ne (Ne.symm ha)]

/-- **A version counts the writes so far.** -/
theorem after_ver (L : Layout Addr) (m₀ : Addr → Val) (tr : List (Event Addr)) (o : Nat) :
    (Shared.after L m₀ tr).ver o = 2 * ((writesTo L o tr).length : Int) := by
  induction tr using List.reverseRecOn with
  | nil => simp [writesTo]
  | append_singleton tr e ih =>
    rw [after_ver_snoc, ih]
    by_cases h : e.op = .W ∧ L.obj e = o
    · simp [writesTo, List.filter_append, h.1, h.2]
      omega
    · rw [if_neg h]
      have : (e.op == Op.W && L.obj e == o) = false := by
        rw [Bool.eq_false_iff]; simpa using h
      simp [writesTo, List.filter_append, this]

/-- A prefix of a legal order is legal, and the next access was enabled there. -/
theorem Legal.split (h : Legal L m₀ tr) (heq : tr = pre ++ e :: post) :
    Legal L m₀ pre ∧ Enabled L m₀ pre e := by
  induction h generalizing post with
  | nil => simp at heq
  | snoc hl hen ih =>
    rcases snoc_split heq with ⟨rfl, rfl, -⟩ | ⟨post', -, h'⟩
    · exact ⟨hl, hen⟩
    · exact ih h'

/-- The last access of a legal order was enabled. -/
theorem Legal.last (h : Legal L m₀ (tr ++ [e])) : Enabled L m₀ tr e := (h.split rfl).2

/-- **The recorded version of an access counts the writes before it.** -/
theorem Legal.version_split (h : Legal L m₀ tr) (heq : tr = pre ++ e :: post) :
    e.version = 2 * ((writesTo L (L.obj e) pre).length : Int) := by
  rw [(h.split heq).2.version, after_ver]

/-- Versions are never negative. -/
theorem Legal.version_nonneg (h : Legal L m₀ tr) (he : e ∈ tr) : 0 ≤ e.version := by
  obtain ⟨pre, post, heq⟩ := List.append_of_mem he
  rw [h.version_split heq]
  omega

/-- Recorded versions are even. -/
theorem Legal.version_even (h : Legal L m₀ tr) (he : e ∈ tr) : e.version % 2 = 0 := by
  obtain ⟨pre, post, heq⟩ := List.append_of_mem he
  rw [h.version_split heq]
  omega

/-- No access is ahead of the object's version, and a write is behind it. -/
theorem Legal.version_le_after (h : Legal L m₀ tr) (he : e ∈ tr) :
    e.version + (if e.op = .W then 2 else 0) ≤ (Shared.after L m₀ tr).ver (L.obj e) := by
  induction h with
  | nil => exact absurd he (by simp)
  | @snoc tr x hl hen ih =>
    rw [after_ver_snoc]
    rcases List.mem_append.mp he with h1 | h1
    · have := ih h1
      by_cases hx : x.op = .W ∧ L.obj x = L.obj e
      · rw [if_pos hx]; omega
      · rw [if_neg hx]; omega
    · rw [List.mem_singleton] at h1
      subst h1
      rw [hen.version]
      simp

/-- **Along the order the versions of one object go up, and a write's are used up.**  The writes
before the later access include those before the earlier one, and the earlier one if it is a write.
-/
theorem Legal.le_of_before (h : Legal L m₀ tr) (hb : Before tr w e) (ho : L.obj w = L.obj e) :
    w.version + (if w.op = .W then 2 else 0) ≤ e.version := by
  obtain ⟨pre, post, heq, hw⟩ := hb
  obtain ⟨hpre, hen⟩ := h.split heq
  rw [hen.version, ← ho]
  exact hpre.version_le_after hw

/-- The writer of a smaller version comes before. -/
theorem Legal.before_of_lt (h : Legal L m₀ tr) (hw : w ∈ tr) (he : e ∈ tr)
    (ho : L.obj w = L.obj e) (hlt : w.version < e.version) : Before tr w e := by
  rcases before_trichotomy hw he with hb | rfl | hb
  · exact hb
  · omega
  · have := h.le_of_before hb ho.symm
    split at this <;> omega

/-- A read at version `v` comes before the write at version `v`. -/
theorem Legal.read_before_write (h : Legal L m₀ tr) (he : e ∈ tr) (hw : w ∈ tr)
    (ho : L.obj e = L.obj w) (hr : e.op = .R) (hW : w.op = .W) (hv : e.version = w.version) :
    Before tr e w := by
  rcases before_trichotomy he hw with hb | rfl | hb
  · exact hb
  · rw [hr] at hW; cases hW
  · have := h.le_of_before hb ho.symm
    rw [if_pos hW] at this
    omega

/-- **One writer for each version.**  Of two writes one comes first, and the other counts it. -/
theorem Legal.write_unique (h : Legal L m₀ tr) (he : e ∈ tr) (hw : w ∈ tr)
    (ho : L.obj e = L.obj w) (hE : e.op = .W) (hW : w.op = .W) (hv : e.version = w.version) :
    e = w := by
  rcases before_trichotomy he hw with hb | rfl | hb
  · have := h.le_of_before hb ho
    rw [if_pos hE] at this
    omega
  · rfl
  · have := h.le_of_before hb ho.symm
    rw [if_pos hW] at this
    omega

/-- Every even number below an object's version has been written. -/
theorem Legal.exists_write_of_lt_after (h : Legal L m₀ tr) {o : Nat} {v : Int} (h0 : 0 ≤ v)
    (h2 : v % 2 = 0) (hlt : v < (Shared.after L m₀ tr).ver o) :
    ∃ w ∈ tr, w.op = .W ∧ L.obj w = o ∧ w.version = v := by
  induction h with
  | nil => simp at hlt; omega
  | @snoc tr x hl hen ih =>
    rw [after_ver_snoc] at hlt
    by_cases hold : v < (Shared.after L m₀ tr).ver o
    · obtain ⟨w, hw, hrest⟩ := ih hold
      exact ⟨w, List.mem_append_left _ hw, hrest⟩
    · -- only the new access can have written `v`
      split at hlt
      · rename_i hx
        refine ⟨x, by simp, hx.1, hx.2, ?_⟩
        have hver := hen.version
        rw [hx.2] at hver
        rw [after_ver] at hver hlt hold
        omega
      · omega

/-- Every even number below a version was written BEFORE the access at that version. -/
theorem Legal.exists_write_of_lt (h : Legal L m₀ tr) (heq : tr = pre ++ e :: post) {v : Int}
    (h0 : 0 ≤ v) (h2 : v % 2 = 0) (hlt : v < e.version) :
    ∃ w ∈ pre, w.op = .W ∧ L.obj w = L.obj e ∧ w.version = v := by
  obtain ⟨hpre, hen⟩ := h.split heq
  exact hpre.exists_write_of_lt_after h0 h2 (hen.version ▸ hlt)

/-! ## 3. Numbers of accesses

The recorded `memop` of an access is its position among the accesses of its thread. -/

omit [DecidableEq Addr] in
/-- An access of the thread is still to come. -/
theorem thread_length_lt (heq : tr = pre ++ e :: post) :
    (thread e.tid pre).length < (thread e.tid tr).length := by
  subst heq
  simp [thread_cons]

/-- **An access is its thread's `memop`-th.** -/
theorem Legal.thread_getElem? (h : Legal L m₀ tr) (he : e ∈ tr) :
    (thread e.tid tr)[e.memop]? = some e := by
  obtain ⟨pre, post, heq⟩ := List.append_of_mem he
  have hm := (h.split heq).2.memop
  subst heq
  simp [thread_cons, hm]

/-- The access at a position of a thread is numbered by it. -/
theorem Legal.memop_of_getElem? (h : Legal L m₀ tr) {t k : Nat}
    (hk : (thread t tr)[k]? = some e) : e ∈ tr ∧ e.tid = t ∧ e.memop = k := by
  induction h with
  | nil => simp at hk
  | @snoc tr x hl hen ih =>
    rw [thread_append, thread_singleton] at hk
    by_cases hlt : k < (thread t tr).length
    · rw [List.getElem?_append_left hlt] at hk
      obtain ⟨h1, h2⟩ := ih hk
      exact ⟨List.mem_append_left _ h1, h2⟩
    · rw [List.getElem?_append_right (by omega)] at hk
      split at hk
      · rename_i hx
        rw [List.getElem?_singleton] at hk
        split at hk
        · simp only [Option.some.injEq] at hk
          subst hk
          refine ⟨by simp, hx, ?_⟩
          rw [hen.memop, hx]
          omega
        · exact absurd hk (by simp)
      · simp at hk

/-- In one thread, the order is the order of the numbers. -/
theorem Legal.memop_lt_of_before (h : Legal L m₀ tr) (hb : Before tr w e)
    (ht : w.tid = e.tid) : w.memop < e.memop := by
  obtain ⟨pre, post, heq, hw⟩ := hb
  obtain ⟨hpre, hen⟩ := h.split heq
  obtain ⟨p, q, hsplit⟩ := List.append_of_mem hw
  rw [hen.memop, (hpre.split hsplit).2.memop, ← ht]
  exact thread_length_lt hsplit

/-- A smaller number of the same thread comes before. -/
theorem Legal.before_of_memop_lt (h : Legal L m₀ tr) (hw : w ∈ tr) (he : e ∈ tr)
    (ht : w.tid = e.tid) (hlt : w.memop < e.memop) : Before tr w e := by
  rcases before_trichotomy hw he with hb | rfl | hb
  · exact hb
  · omega
  · have := h.memop_lt_of_before hb ht.symm
    omega

/-- No access occurs twice. -/
theorem Legal.nodup (h : Legal L m₀ tr) : tr.Nodup := by
  induction h with
  | nil => exact List.nodup_nil
  | @snoc tr x hl hen ih =>
    refine List.nodup_append.mpr ⟨ih, by simp, ?_⟩
    intro a ha b hb hab
    rw [List.mem_singleton] at hb
    subst hab hb
    have := (List.getElem?_eq_some_iff.mp (hl.thread_getElem? ha)).1
    rw [hen.memop] at this
    omega

/-- The thread's accesses before its `k`-th are those before it in the order. -/
theorem Legal.thread_take (h : Legal L m₀ tr) (heq : tr = pre ++ e :: post) :
    (thread e.tid tr).take e.memop = thread e.tid pre := by
  have hm := (h.split heq).2.memop
  rw [heq, thread_append, hm, List.take_left']
  rfl

end Versions

/-! ## 4. Values are functions of versions

The replayer does not know the order, only versions.  This is enough for the values: `valAt` is
defined from the whole order, and yet what it gives at a version is what every access at that
version finds. -/

section Values

variable {L : Layout Addr} {m₀ : Addr → Val} {tr : List (Event Addr)} {e w : Event Addr}

/-- What address `a` holds when its object is at version `v`: the value of the last write to
`a` at a smaller version, or the initial one. -/
def valAt (m₀ : Addr → Val) (tr : List (Event Addr)) (a : Addr) (v : Int) : Val :=
  (((tr.filter (fun e => e.op == .W && e.addr == a && e.version < v)).getLast?).map
    Event.val).getD (m₀ a)

@[simp] theorem valAt_nil (a : Addr) (v : Int) : valAt m₀ [] a v = m₀ a := rfl

/-- One more access. -/
theorem valAt_snoc (a : Addr) (v : Int) :
    valAt m₀ (tr ++ [e]) a v
      = if e.op = .W ∧ e.addr = a ∧ e.version < v then e.val else valAt m₀ tr a v := by
  by_cases h : e.op = .W ∧ e.addr = a ∧ e.version < v
  · simp [valAt, List.filter_append, h]
  · have : (e.op == Op.W && e.addr == a && decide (e.version < v)) = false := by
      rw [Bool.eq_false_iff]; simpa [and_assoc] using h
    simp [valAt, List.filter_append, this, h]

/-- From the current version on, `valAt` is the current memory. -/
theorem Legal.valAt_after (h : Legal L m₀ tr) (a : Addr) {v : Int}
    (hv : (Shared.after L m₀ tr).ver (L.calcObjid a) ≤ v) :
    valAt m₀ tr a v = (Shared.after L m₀ tr).mem a := by
  induction h with
  | nil => rfl
  | @snoc tr x hl hen ih =>
    rw [valAt_snoc, after_mem_snoc]
    rw [after_ver_snoc] at hv
    by_cases hx : x.op = .W ∧ x.addr = a
    · have ho : L.obj x = L.calcObjid a := by rw [Layout.obj, hx.2]
      rw [if_pos ⟨hx.1, ho⟩] at hv
      have hver := hen.version
      rw [ho] at hver
      rw [if_pos ⟨hx.1, hx.2, by omega⟩, if_pos hx]
    · rw [if_neg (fun hc => hx ⟨hc.1, hc.2.1⟩), if_neg hx]
      refine ih ?_
      split at hv <;> omega

/-- **A read returns the value of its version.**  It returned what memory held, and that was the
value at the version of the object, which is the one recorded; writes after it have at least that
version. -/
theorem Legal.read_val (h : Legal L m₀ tr) (he : e ∈ tr) (hr : e.op = .R) :
    e.val = valAt m₀ tr e.addr e.version := by
  induction h with
  | nil => exact absurd he (by simp)
  | @snoc tr x hl hen ih =>
    rw [valAt_snoc]
    rcases List.mem_append.mp he with h1 | h1
    · -- a later write to the same address is at a version not below `e`'s
      rw [if_neg, ← ih h1]
      rintro ⟨hW, ha, hlt⟩
      have h2 := hl.version_le_after h1
      have ho : L.obj x = L.obj e := by rw [Layout.obj, Layout.obj, ha]
      rw [if_neg (by rw [hr]; simp), ← ho, ← hen.version] at h2
      omega
    · rw [List.mem_singleton] at h1
      subst h1
      rw [if_neg (by rw [hr]; simp), hen.value hr, hen.version]
      exact (hl.valAt_after _ (Int.le_refl _)).symm

/-- **A write at version `v` sets its address for version `v + 2`**, and leaves the object's
other addresses alone. -/
theorem Legal.valAt_write (h : Legal L m₀ tr) (hw : w ∈ tr) (hW : w.op = .W) {a : Addr}
    (ha : L.calcObjid a = L.obj w) :
    valAt m₀ tr a (w.version + 2) = if w.addr = a then w.val else valAt m₀ tr a w.version := by
  induction h with
  | nil => exact absurd hw (by simp)
  | @snoc tr x hl hen ih =>
    rw [valAt_snoc, valAt_snoc]
    rcases List.mem_append.mp hw with h1 | h1
    · -- the later access is at `v + 2` or above, so it counts for neither version
      have h2 := hl.version_le_after h1
      rw [if_pos hW] at h2
      have hx : ∀ u, u ≤ w.version + 2 → ¬ (x.op = .W ∧ x.addr = a ∧ x.version < u) := by
        rintro u hu ⟨-, hxa, hlt⟩
        have ho : L.obj x = L.obj w := by rw [← ha, ← hxa, Layout.obj]
        rw [← ho, ← hen.version] at h2
        omega
      rw [if_neg (hx _ (Int.le_refl _)), if_neg (hx _ (by omega))]
      exact ih h1
    · rw [List.mem_singleton] at h1
      subst h1
      have hver := hen.version
      by_cases hwa : w.addr = a
      · rw [if_pos ⟨hW, hwa, by omega⟩, if_pos hwa]
      · rw [if_neg (fun hc => hwa hc.2.1), if_neg hwa, if_neg (fun hc => hwa hc.2.1)]
        rw [hl.valAt_after a (by rw [ha, ← hver]; omega),
          hl.valAt_after a (by rw [ha, ← hver])]

/-- At version 0 an address holds its initial value. -/
theorem Legal.valAt_zero (h : Legal L m₀ tr) (a : Addr) : valAt m₀ tr a 0 = m₀ a := by
  induction h with
  | nil => rfl
  | @snoc tr x hl hen ih =>
    rw [valAt_snoc, if_neg, ih]
    rintro ⟨-, -, hlt⟩
    have := hl.snoc hen |>.version_nonneg (e := x) (by simp)
    omega

end Values

/-! ## 5. What recorded versions say about the order

The same facts put together, as a property of an order that does not mention the counting. -/

section Serial

variable {L : Layout Addr} {m₀ : Addr → Val} {tr : List (Event Addr)}

/-- The order `tr` respects the recorded versions: per object the write at version `v` comes
before every access at `v + 2` and after every read at `v`, versions identify writes, and a read
returns what the accesses before it leave at its address. -/
structure Serial (L : Layout Addr) (m₀ : Addr → Val) (tr : List (Event Addr)) : Prop where
  nodup : tr.Nodup
  after_write : ∀ w ∈ tr, ∀ e ∈ tr, w.op = .W → L.obj w = L.obj e → e.version = w.version + 2 →
    Before tr w e
  before_write : ∀ r ∈ tr, ∀ w ∈ tr, r.op = .R → w.op = .W → L.obj r = L.obj w →
    r.version = w.version → Before tr r w
  write_inj : ∀ w ∈ tr, ∀ w' ∈ tr, w.op = .W → w'.op = .W → L.obj w = L.obj w' →
    w.version = w'.version → w = w'
  read_val : ∀ pre e post, tr = pre ++ e :: post → e.op = .R →
    e.val = (Shared.after L m₀ pre).mem e.addr

/-- A legal order respects the recorded versions. -/
theorem Legal.serial (h : Legal L m₀ tr) : Serial L m₀ tr where
  nodup := h.nodup
  after_write w hw e he _ ho hv := h.before_of_lt hw he ho (by omega)
  before_write r hr w hw hR hW ho hv := h.read_before_write hr hw ho hR hW hv
  write_inj w hw w' hw' hW hW' ho hv := h.write_unique hw hw' ho hW hW' hv
  read_val _ _ _ heq hR := (h.split heq).2.value hR

/-- **The writes of an object record the versions `0, 2, 4, ...`**, in the order of effect. -/
theorem Legal.writesTo_version (h : Legal L m₀ tr) (o : Nat) :
    (writesTo L o tr).map Event.version
      = (List.range (writesTo L o tr).length).map (fun k : Nat => 2 * (k : Int)) := by
  induction h with
  | nil => rfl
  | @snoc tr e hl hen ih =>
    by_cases he : e.op = .W ∧ L.obj e = o
    · have hw : writesTo L o (tr ++ [e]) = writesTo L o tr ++ [e] := by
        simp [writesTo, List.filter_append, he.1, he.2]
      have hv : e.version = 2 * ((writesTo L o tr).length : Int) := by
        rw [hen.version, after_ver, he.2]
      rw [hw, List.length_append, List.length_singleton, List.range_succ, List.map_append,
        List.map_append, ih]
      simp [hv]
    · have hw : writesTo L o (tr ++ [e]) = writesTo L o tr := by
        have : (e.op == Op.W && L.obj e == o) = false := by
          rw [Bool.eq_false_iff]; simpa using he
        simp [writesTo, List.filter_append, this]
      rw [hw, ih]

end Serial

/-! ## 6. The calls of a recorded run

The program of a thread, along its recorded accesses. -/

section Calls

variable {L : Layout Addr} {nthr : Nat} {prog : Nat → Prog Addr} {m₀ : Addr → Val}

/-- **The program makes the recorded calls.** -/
theorem Run.next_acc (R : Run L nthr prog m₀) {t k : Nat} {e : Event Addr}
    (hk : (thread t R.trace)[k]? = some e) :
    prog t (results ((thread t R.trace).take k)) = some e.acc := by
  obtain ⟨he, ht, hm⟩ := R.legal.memop_of_getElem? hk
  obtain ⟨pre, post, heq⟩ := List.append_of_mem he
  have h := R.follows pre e post heq
  rwa [← R.legal.thread_take heq, ht, hm] at h

/-- Past its last recorded access the program has ended. -/
theorem Run.getElem?_of_prog (R : Run L nthr prog m₀) {t k : Nat} {acc : Acc Addr} (ht : t < nthr)
    (hp : prog t (results ((thread t R.trace).take k)) = some acc) :
    ∃ e, (thread t R.trace)[k]? = some e ∧ e.acc = acc := by
  cases hk : (thread t R.trace)[k]? with
  | none =>
    rw [List.take_of_length_le (List.getElem?_eq_none_iff.mp hk), R.complete t ht] at hp
    exact absurd hp (by simp)
  | some e =>
    refine ⟨e, rfl, ?_⟩
    rw [R.next_acc hk] at hp
    exact Option.some.inj hp

end Calls

end MemOrder
