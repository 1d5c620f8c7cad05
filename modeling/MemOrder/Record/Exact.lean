/-
# The two logs as dependency sets

`MemOrder.Record` has the logs as the recorder computes them, from a `last_objinfo` that a write
updates only in part, with an entry of the wait_memop log emitted at some later access or only
by `mem_finish_thr`.  This module says what the finished logs ARE, in terms of the thread's
accesses alone:

* the wait_version log lists the accesses that saw another version of their object than the
  thread's previous access to it (`versionDeps`);
* the wait_memop log has, for a pair of an object and a version, one entry when the thread's
  last access at that pair is a read, and none otherwise (`memopDep`).

Both need the versions to be what a run shows a thread (`Seen`).  The invariants are that a
pending read sits at the version of the thread's last access to the object, and that the entries
already written are strictly below that version.
-/
import MemOrder.Record

namespace MemOrder

variable {Addr : Type}

/-! ## 1. The dependencies of an access sequence

Definitions in terms of the accesses alone, and one lemma for each of them about one more access at
the end. -/

/-- The accesses on object `o`. -/
def onObj (L : Layout Addr) (o : Nat) (es : List (Event Addr)) : List (Event Addr) :=
  es.filter (fun e => L.obj e == o)

/-- The version of the thread's last access to `o`, 0 if there is none. -/
def prevVersion (L : Layout Addr) (es : List (Event Addr)) (o : Nat) : Int :=
  ((onObj L o es).getLast?.map Event.version).getD 0

/-- The accesses whose version differs from that of the previous access to their object. -/
def versionDeps (L : Layout Addr) (es : List (Event Addr)) : List WaitVersion :=
  es.zipIdx.filterMap fun (e, i) =>
    if prevVersion L (es.take i) (L.obj e) ≠ e.version then some ⟨i, e.version⟩ else none

/-- The last access to object `o` at version `v`, with its number. -/
def lastAt (L : Layout Addr) (es : List (Event Addr)) (o v : Int) : Option (Event Addr × Nat) :=
  (es.zipIdx.filter (fun p => (L.obj p.1 : Int) == o && p.1.version == v)).getLast?

/-- What a pair of an object and a version has to wait for: the last access at the pair, if that
is a read. -/
def memopDep (L : Layout Addr) (es : List (Event Addr)) (o v : Int) : List WaitMemop :=
  match lastAt L es o v with
  | some (e, m) => if e.op = .R then [⟨o, v, m⟩] else []
  | none => []

/-- The entries of a wait_memop log for one pair. -/
def entriesAt (ws : List WaitMemop) (o v : Int) : List WaitMemop :=
  ws.filter (fun w => w.objid == o && w.version == v)

section Snoc

variable {L : Layout Addr} {es : List (Event Addr)} {e : Event Addr}

/-- One more access on the object or on another one. -/
theorem onObj_snoc (o : Nat) :
    onObj L o (es ++ [e]) = onObj L o es ++ if L.obj e = o then [e] else [] := by
  by_cases h : L.obj e = o <;> simp [onObj, h]

/-- The last access to an object. -/
theorem onObj_getLast?_snoc (o : Nat) :
    (onObj L o (es ++ [e])).getLast? = if L.obj e = o then some e else (onObj L o es).getLast? := by
  rw [onObj_snoc]
  split <;> simp

/-- Its version. -/
theorem prevVersion_snoc (o : Nat) :
    prevVersion L (es ++ [e]) o = if L.obj e = o then e.version else prevVersion L es o := by
  unfold prevVersion
  rw [onObj_getLast?_snoc]
  split <;> simp

/-- The last access adds an entry or none. -/
theorem versionDeps_snoc :
    versionDeps L (es ++ [e]) = versionDeps L es ++
      if prevVersion L es (L.obj e) ≠ e.version then [⟨es.length, e.version⟩] else [] := by
  unfold versionDeps
  rw [List.zipIdx_append, List.filterMap_append]
  congr 1
  · -- the numbers are below the length, where the prefixes agree
    refine List.filterMap_congr ?_
    rintro ⟨x, i⟩ hx
    have hi : i < es.length := List.snd_lt_of_mem_zipIdx hx
    simp only [List.take_append_of_le_length (Nat.le_of_lt hi)]
  · by_cases h : prevVersion L es (L.obj e) = e.version <;> simp [h]

/-- The last access at a pair. -/
theorem lastAt_snoc (o v : Int) :
    lastAt L (es ++ [e]) o v
      = if (L.obj e : Int) = o ∧ e.version = v then some (e, es.length) else lastAt L es o v := by
  unfold lastAt
  rw [List.zipIdx_append, List.filter_append]
  by_cases h : (L.obj e : Int) = o ∧ e.version = v
  · rw [if_pos h]
    simp [h.1, h.2]
  · rw [if_neg h]
    have h' : ¬ (((L.obj e : Int) == o && e.version == v) = true) := by simpa using h
    simp [h']

/-- What it has to wait for. -/
theorem memopDep_snoc (o v : Int) :
    memopDep L (es ++ [e]) o v
      = if (L.obj e : Int) = o ∧ e.version = v then
          (if e.op = .R then [⟨o, v, es.length⟩] else [])
        else memopDep L es o v := by
  unfold memopDep
  rw [lastAt_snoc]
  by_cases h : (L.obj e : Int) = o ∧ e.version = v
  · rw [if_pos h, if_pos h]
  · rw [if_neg h, if_neg h]

/-- No access to the object, nothing to wait for. -/
theorem memopDep_eq_nil {o v : Int} (h : ∀ e ∈ es, (L.obj e : Int) ≠ o) :
    memopDep L es o v = [] := by
  induction es using List.reverseRecOn with
  | nil => rfl
  | append_singleton es e ih =>
    rw [memopDep_snoc, if_neg (fun hc => h e (by simp) hc.1)]
    exact ih (fun x hx => h x (List.mem_append_left _ hx))

end Snoc

/-! ## 2. What `last_objinfo` knows of the previous access

`lastobj->version` is the version of the last READ, and the specification speaks of the last access.
The two differ after a write, and there they do not matter: whatever the thread sees next is larger
than both. -/

section Last

variable {L : Layout Addr} {es : List (Event Addr)} {e : Event Addr}

/-- The previous access to the object is behind what the thread sees next. -/
theorem Seen.prev_le (h : Seen L (es ++ [e])) : prevVersion L es (L.obj e) ≤ e.version := by
  unfold prevVersion
  cases hl : (onObj L (L.obj e) es).getLast? with
  | none => exact h.nonneg e (by simp)
  | some x =>
    obtain ⟨hx, ho⟩ := List.mem_filter.mp (List.mem_of_getLast? hl)
    exact h.le_last hx (by simpa using ho)

/-- Strictly behind, if it was a write. -/
theorem Seen.prev_lt_of_write (h : Seen L (es ++ [e])) {w : Event Addr}
    (hl : (onObj L (L.obj e) es).getLast? = some w) (hw : w.op = .W) : w.version < e.version := by
  obtain ⟨hx, ho⟩ := List.mem_filter.mp (List.mem_of_getLast? hl)
  exact ((List.pairwise_append.mp h.rising).2.2 w hx e (by simp) (by simpa using ho)).2 hw

/-- The version of the last access only grows. -/
theorem Seen.prev_mono (h : Seen L (es ++ [e])) (o : Nat) :
    prevVersion L es o ≤ prevVersion L (es ++ [e]) o := by
  rw [prevVersion_snoc]
  split
  · rename_i ho
    rw [← ho]
    exact h.prev_le
  · exact Int.le_refl _

/-- `lastobj->version` is the version of the previous access, or that access was a write, which
leaves it behind. -/
theorem Seen.last_prev (h : Seen L es) (o : Nat) :
    ((record L es).last o).version = prevVersion L es o ∨
      ∃ w, (onObj L o es).getLast? = some w ∧ w.op = .W ∧
        ((record L es).last o).version ≤ w.version := by
  induction es using List.reverseRecOn with
  | nil => exact Or.inl rfl
  | append_singleton es e ih =>
    rw [record_snoc, access_last, prevVersion_snoc, onObj_getLast?_snoc]
    by_cases ho : L.obj e = o
    · subst ho
      rw [if_pos rfl, if_pos rfl, if_pos rfl]
      cases hop : e.op with
      | R => exact Or.inl rfl
      | W => exact Or.inr ⟨e, rfl, hop, h.last_le⟩
    · rw [if_neg ho, if_neg ho, if_neg ho]
      exact ih h.init

/-- **The stale version decides as the previous access's would.**  After a write of its own the
thread can only see larger versions, so both comparisons fail together. -/
theorem Seen.last_ne_iff (h : Seen L (es ++ [e])) :
    ((record L es).last (L.obj e)).version ≠ e.version ↔
      prevVersion L es (L.obj e) ≠ e.version := by
  rcases h.init.last_prev (L.obj e) with heq | ⟨w, hl, hw, hle⟩
  · rw [heq]
  · have hlt := h.prev_lt_of_write hl hw
    have hprev : prevVersion L es (L.obj e) = w.version := by simp [prevVersion, hl]
    rw [hprev]
    constructor <;> intro <;> omega

/-- A pending read is at the version of the previous access. -/
theorem record_pending_version (es : List (Event Addr)) (o : Nat)
    (h0 : 0 ≤ ((record L es).last o).memop) :
    ((record L es).last o).version = prevVersion L es o := by
  induction es using List.reverseRecOn with
  | nil => rfl
  | append_singleton es e ih =>
    rw [record_snoc, access_last] at h0 ⊢
    rw [prevVersion_snoc]
    by_cases ho : L.obj e = o
    · rw [if_pos ho] at h0 ⊢
      rw [if_pos ho]
      cases hop : e.op with
      | R => rfl
      | W => rw [hop] at h0; exact absurd h0 (by simp)
    · rw [if_neg ho] at h0 ⊢
      rw [if_neg ho]
      exact ih h0

end Last

/-! ## 3. The wait_version log

An access is logged if it sees another version than `lastobj->version`, hence if it sees another one
than the previous access. -/

/-- **The version log is the accesses that saw a new version**, by induction on the accesses. -/
theorem record_waitVersion {L : Layout Addr} {es : List (Event Addr)} (h : Seen L es) :
    (record L es).waitVersion = versionDeps L es := by
  induction es using List.reverseRecOn with
  | nil => rfl
  | append_singleton es e ih =>
    rw [record_snoc, access_waitVersion, versionDeps_snoc, ih h.init, record_memop]
    simp only [h.last_ne_iff]

/-! ## 4. The wait_memop log

For one pair of an object and a version, the entries that are written and the read that is pending
are together what the pair has to wait for (`Seen.entriesAt_pending`).  A read at the pair makes
itself pending; a write at the pair clears it, and then nothing has to be waited for; any access
that sees another version turns the pending read into an entry.  In the finished log nothing is
pending. -/

section MemopLog

variable {L : Layout Addr} {es : List (Event Addr)}

/-- The read of object `o` at version `v` that has no entry yet. -/
def pendingAt (r : RecThr) (o : Nat) (v : Int) : List WaitMemop :=
  if 0 ≤ (r.last o).memop ∧ (r.last o).version = v then [⟨o, v, (r.last o).memop⟩] else []

/-- The entries of two logs for one pair. -/
theorem entriesAt_append (ws ws' : List WaitMemop) (o v : Int) :
    entriesAt (ws ++ ws') o v = entriesAt ws o v ++ entriesAt ws' o v := List.filter_append ..

/-- What an access adds to the log is an entry of its own object, below the version it sees. -/
theorem Seen.mem_waitMemop_snoc {e : Event Addr} (h : Seen L (es ++ [e])) {w : WaitMemop}
    (hw : w ∈ (record L (es ++ [e])).waitMemop) :
    w ∈ (record L es).waitMemop ∨ w.objid = L.obj e ∧ w.version < e.version := by
  rw [record_snoc, access_waitMemop, List.mem_append] at hw
  rcases hw with hw | hw
  · exact Or.inl hw
  · split at hw
    · rename_i hc
      rw [List.mem_singleton] at hw
      subst hw
      exact Or.inr ⟨rfl, lt_of_le_of_ne h.last_le hc.1⟩
    · exact absurd hw (by simp)

/-- Every entry is below the version of the thread's last access to its object: it was written when
the thread saw a larger version, and the versions it sees do not fall. -/
theorem Seen.entry_lt_prev (h : Seen L es) {w : WaitMemop} (hw : w ∈ (record L es).waitMemop)
    {o : Nat} (ho : w.objid = o) : w.version < prevVersion L es o := by
  induction es using List.reverseRecOn with
  | nil => exact absurd hw (by simp [RecThr.memInitThr])
  | append_singleton es e ih =>
    rcases h.mem_waitMemop_snoc hw with hold | ⟨hobj, hlt⟩
    · exact Int.lt_of_lt_of_le (ih h.init hold) (h.prev_mono o)
    · rw [prevVersion_snoc, if_pos (by omega)]
      exact hlt

/-- An access that sees another version than `v` turns the pending read at `v` into an entry. -/
theorem entriesAt_access_flush {r : RecThr} {e : Event Addr} {v : Int} (hv : e.version ≠ v) :
    entriesAt (r.access L e).waitMemop (L.obj e) v
      = entriesAt r.waitMemop (L.obj e) v ++ pendingAt r (L.obj e) v := by
  rw [access_waitMemop, entriesAt_append, pendingAt]
  congr 1
  unfold entriesAt
  by_cases hl : (r.last (L.obj e)).version = v
  · by_cases h0 : 0 ≤ (r.last (L.obj e)).memop
    · simp [hl, h0, Ne.symm hv]
    · simp [h0]
  · split <;> simp [hl]

/-- An access of another object adds no entry for the pair. -/
theorem entriesAt_access_other {r : RecThr} {e : Event Addr} {o : Nat} (v : Int)
    (ho : L.obj e ≠ o) : entriesAt (r.access L e).waitMemop o v = entriesAt r.waitMemop o v := by
  have ho' : ¬ ((L.obj e : Int) = o) := by exact_mod_cast ho
  rw [access_waitMemop, entriesAt_append]
  split <;> simp [ho', entriesAt]

/-- After an access to the object only the access itself can be pending. -/
theorem pendingAt_access (r : RecThr) (e : Event Addr) (v : Int) :
    pendingAt (r.access L e) (L.obj e) v
      = if e.version = v ∧ e.op = .R then [⟨L.obj e, v, r.memop⟩] else [] := by
  rw [pendingAt, access_last, if_pos rfl]
  cases e.op with
  | R => simp
  | W => simp

/-- Nor does it change what is pending. -/
theorem pendingAt_access_other {r : RecThr} {e : Event Addr} {o : Nat} (v : Int)
    (ho : L.obj e ≠ o) : pendingAt (r.access L e) o v = pendingAt r o v := by
  rw [pendingAt, access_last, if_neg ho, pendingAt]

/-- No entry is at the version just seen. -/
theorem Seen.entriesAt_seen {e : Event Addr} (h : Seen L (es ++ [e])) :
    entriesAt (record L (es ++ [e])).waitMemop (L.obj e) e.version = [] := by
  refine List.filter_eq_nil_iff.mpr ?_
  intro w hw hc
  simp only [Bool.and_eq_true, beq_iff_eq] at hc
  have hlt := h.entry_lt_prev hw hc.1
  rw [prevVersion_snoc, if_pos rfl] at hlt
  omega

/-- **The entries so far and the pending read are what the pair has to wait for.** -/
theorem Seen.entriesAt_pending (h : Seen L es) (o : Nat) (v : Int) :
    entriesAt (record L es).waitMemop o v ++ pendingAt (record L es) o v = memopDep L es o v := by
  induction es using List.reverseRecOn with
  | nil => rfl
  | append_singleton es e ih =>
    rw [memopDep_snoc]
    by_cases ho : L.obj e = o
    · subst ho
      by_cases hv : e.version = v
      · -- the pair just seen: it has the access itself to wait for, or nothing
        subst hv
        rw [if_pos ⟨rfl, rfl⟩, h.entriesAt_seen, List.nil_append, record_snoc, pendingAt_access,
          record_memop]
        simp
      · -- another version of the object: a pending read there is flushed now
        rw [if_neg (fun hc => hv hc.2), ← ih h.init, record_snoc, entriesAt_access_flush hv,
          pendingAt_access, if_neg (fun hc => hv hc.1), List.append_nil]
    · have ho' : ¬ ((L.obj e : Int) = o) := by exact_mod_cast ho
      rw [if_neg (fun hc => ho' hc.1), ← ih h.init, record_snoc, entriesAt_access_other v ho,
        pendingAt_access_other v ho]

/-- The loop of `mem_finish_thr` with one more object. -/
theorem finalEntries_succ (r : RecThr) (n : Nat) :
    finalEntries r (n + 1) = finalEntries r n ++
      if 0 ≤ (r.last n).memop then [⟨n, (r.last n).version, (r.last n).memop⟩] else [] := by
  simp [finalEntries, List.range_succ]

/-- The final entry of one object is its pending read. -/
theorem entriesAt_finalEntry (r : RecThr) (n o : Nat) (v : Int) :
    entriesAt (if 0 ≤ (r.last n).memop then [⟨n, (r.last n).version, (r.last n).memop⟩] else []) o v
      = if n = o then pendingAt r o v else [] := by
  unfold entriesAt pendingAt
  by_cases h0 : 0 ≤ (r.last n).memop
  · by_cases hno : n = o
    · subst hno
      by_cases hv : (r.last n).version = v <;> simp [h0, hv]
    · simp [h0, hno]
  · rw [if_neg h0]
    split
    · rename_i hno
      subst hno
      rw [if_neg (fun hc => h0 hc.1), List.filter_nil]
    · rfl

/-- `mem_finish_thr` turns what is pending into entries, one object after the other. -/
theorem entriesAt_finalEntries (r : RecThr) (n o : Nat) (v : Int) :
    entriesAt (finalEntries r n) o v = if o < n then pendingAt r o v else [] := by
  induction n with
  | zero => rfl
  | succ n ih =>
    rw [finalEntries_succ, entriesAt_append, ih, entriesAt_finalEntry]
    rcases Nat.lt_trichotomy o n with hlt | heq | hgt
    · simp [hlt, Nat.lt_succ_of_lt hlt, Nat.ne_of_gt hlt]
    · simp [heq]
    · have h1 : ¬ o < n := Nat.lt_asymm hgt
      have h2 : ¬ o < n + 1 := by omega
      simp [h1, h2, Nat.ne_of_lt hgt]

/-- The entries of the finished log for a pair. -/
theorem Seen.entriesAt_memopEntries (h : Seen L es) (o : Nat) (v : Int) :
    entriesAt (memopEntries L es) o v = memopDep L es o v := by
  rw [memopEntries, entriesAt_append, entriesAt_finalEntries, ← h.entriesAt_pending]
  congr 1
  split
  · rfl
  · -- no access is to an object that does not exist
    rename_i hn
    have hnil : memopDep L es o v = [] := by
      refine memopDep_eq_nil ?_
      intro e _ ho
      have : L.obj e < L.nobj := L.calcObjid_lt _
      omega
    rw [← h.entriesAt_pending] at hnil
    exact (List.append_eq_nil_iff.mp hnil).2.symm

theorem mem_finalEntries {r : RecThr} {n : Nat} {w : WaitMemop} (hw : w ∈ finalEntries r n) :
    ∃ o : Nat, o < n ∧ w.objid = o ∧ 0 ≤ (r.last o).memop ∧ w.version = (r.last o).version := by
  obtain ⟨o, hlt, ho⟩ := List.mem_flatMap.mp hw
  split at ho
  · rename_i h0
    rw [List.mem_singleton.mp ho]
    exact ⟨o, List.mem_range.mp hlt, rfl, h0, rfl⟩
  · exact absurd ho (by simp)

/-- The entries of one object carry its number, so none has a negative one. -/
theorem memopEntries_objid {w : WaitMemop} (hw : w ∈ memopEntries L es) :
    ∃ o : Nat, w.objid = o ∧ o < L.nobj := by
  rcases List.mem_append.mp hw with hw | hw
  · induction es using List.reverseRecOn with
    | nil => exact absurd hw (by simp [RecThr.memInitThr])
    | append_singleton es e ih =>
      rw [record_snoc, access_waitMemop, List.mem_append] at hw
      rcases hw with hold | hnew
      · exact ih (List.mem_append_left _ hold) hold
      · split at hnew
        · rw [List.mem_singleton.mp hnew]
          exact ⟨L.obj e, rfl, L.calcObjid_lt _⟩
        · exact absurd hnew (by simp)
  · obtain ⟨o, hlt, ho, -⟩ := mem_finalEntries hw
    exact ⟨o, ho, hlt⟩

theorem Seen.waitMemop_strict (h : Seen L es) :
    (record L es).waitMemop.Pairwise (fun a b => a.objid = b.objid → a.version < b.version) := by
  induction es using List.reverseRecOn with
  | nil => exact List.Pairwise.nil
  | append_singleton es e ih =>
    rw [record_snoc, access_waitMemop]
    split
    · rename_i hc
      refine List.pairwise_append.mpr ⟨ih h.init, List.pairwise_singleton _ _, ?_⟩
      intro a ha b hb ho
      rw [List.mem_singleton] at hb
      subst hb
      -- what is flushed was pending, so it is at the version of the previous access
      rw [record_pending_version es _ hc.2]
      exact h.init.entry_lt_prev ha ho
    · rw [List.append_nil]
      exact ih h.init

theorem finalEntries_objid_lt (r : RecThr) (n : Nat) :
    (finalEntries r n).Pairwise (fun a b => a.objid < b.objid) := by
  induction n with
  | zero => exact List.Pairwise.nil
  | succ n ih =>
    rw [finalEntries_succ]
    refine List.pairwise_append.mpr ⟨ih, by split <;> simp, ?_⟩
    intro a ha b hb
    obtain ⟨o, hlt, ho, -⟩ := mem_finalEntries ha
    split at hb
    · rw [List.mem_singleton.mp hb, ho]
      exact Int.ofNat_lt.mpr hlt
    · exact absurd hb (by simp)

/-- **The entries of an object rise strictly**, those of `mem_finish_thr` included. -/
theorem Seen.memopEntries_strict (h : Seen L es) :
    (memopEntries L es).Pairwise (fun a b => a.objid = b.objid → a.version < b.version) := by
  rw [memopEntries]
  refine List.pairwise_append.mpr ⟨h.waitMemop_strict, ?_, ?_⟩
  · refine (finalEntries_objid_lt _ _).imp ?_
    intro a b hlt ho
    omega
  · intro a ha b hb ho
    obtain ⟨o, -, hb1, h0, hb2⟩ := mem_finalEntries hb
    rw [hb2, record_pending_version es o h0]
    exact h.entry_lt_prev ha (ho.trans hb1)

end MemopLog

/-! ## 5. The finished logs -/

/-- **The logs of a finished thread are its dependency sets.**  The wait_version log lists the
accesses that saw another version than the previous access to their object, in order, and its
end marker.  The wait_memop log has for every pair of an object and a version exactly the entry
that names the last access there, if that is a read, and none if there is no access or the last
one is a write; the entries of an object are in strictly rising version order. -/
theorem recordThr_exact (L : Layout Addr) (es : List (Event Addr)) (h : Seen L es) :
    (recordThr L es).waitVersion = versionDeps L es ++ [⟨-1, -1⟩] ∧
      ∃ entries, (recordThr L es).waitMemop = entries ++ [⟨-1, -1, -1⟩] ∧
        (∀ o v : Int, entriesAt entries o v = memopDep L es o v) ∧
        entries.Pairwise (fun a b => a.objid = b.objid → a.version < b.version) := by
  constructor
  · rw [recordThr_waitVersion, record_waitVersion h]
  · refine ⟨memopEntries L es, recordThr_waitMemop es, ?_, h.memopEntries_strict⟩
    intro o v
    rcases Int.lt_or_le o 0 with hneg | hpos
    · -- object numbers are not negative, in the log and in the accesses
      have hdep : memopDep L es o v = [] := memopDep_eq_nil (by intro e _; omega)
      rw [hdep]
      refine List.filter_eq_nil_iff.mpr ?_
      intro w hw hc
      obtain ⟨i, hi, -⟩ := memopEntries_objid hw
      simp only [Bool.and_eq_true, beq_iff_eq] at hc
      omega
    · obtain ⟨i, rfl⟩ := Int.eq_ofNat_of_zero_le hpos
      exact h.entriesAt_memopEntries i v

/-- A read, a write of a version the thread has not seen, and a read of its own write. -/
theorem recordThr_exact_read_write :
    let es : List (Event Bool) :=
      [⟨0, 0, .R, true, 0, 5⟩, ⟨0, 1, .W, true, 2, 6⟩, ⟨0, 2, .R, true, 4, 6⟩]
    (recordThr pairLayout es).waitVersion = [⟨1, 2⟩, ⟨2, 4⟩, ⟨-1, -1⟩] ∧
      ∃ entries, (recordThr pairLayout es).waitMemop = entries ++ [⟨-1, -1, -1⟩] ∧
        entriesAt entries 1 0 = [⟨1, 0, 0⟩] ∧ entriesAt entries 1 2 = [] ∧
        entriesAt entries 1 4 = [⟨1, 4, 2⟩] := by
  intro es
  have hseen : Seen pairLayout es := ⟨by decide, by decide⟩
  obtain ⟨hv, entries, hm, hat, -⟩ := recordThr_exact pairLayout es hseen
  refine ⟨hv.trans (by decide), entries, hm, ?_, ?_, ?_⟩
  · exact (hat 1 0).trans (by decide)
  · exact (hat 1 2).trans (by decide)
  · exact (hat 1 4).trans (by decide)

end MemOrder
