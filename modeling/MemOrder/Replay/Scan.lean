/-
# Reading the recorder's logs without a bound

Two loops read a log of the recorder and look for its end marker only: `load_wait_memop_log` stops
at an `objid` of -1, `next_wait_version_log` at a `memop` of -1.  Neither compares its position
with the end of the file.  Here both are written with a position, so that reading beyond the file
is an outcome (`Stop.outOfBounds`), and shown to stay inside what `mem_finish_thr` wrote.

For the version log that is not all: the thread holds ONE entry at a time, and goes on to the next
only at the access the entry names.  An entry that were skipped would never be waited for, and no
later one either.  The entries of a thread carry rising access numbers, so the held entry is always
the first one that is not behind the thread (`ScanAt`).

The loops are tied to the other models of them: `scanMemop_load` to `Memop.loadWaitMemopLog`, and
`reach_scan` to the replaying threads of `Replay.sys`, in any interleaving.
-/
import MemOrder.Record.Exact
import MemOrder.Log.Memop
import MemOrder.Replay.Preserve

namespace MemOrder.Replay

open Memop

/-! ## 1. `load_wait_memop_log` with its position

The loop with its pointer as an index into the mapped file.  It has no other bound than the end
marker; fuel that runs out is `Stop.diverges`, so that a result is one the loop reaches. -/

/-- The variables of the loop; `wmlog` is the index of the entry the pointer is at. -/
structure MemopScan where
  wmlog : Nat
  cnt : Nat
  all : Nat → List WaitMemop
  total : Int

/-- The loop of `load_wait_memop_log` over the mapped file, `fuel` turns of it at most. -/
def scanMemop (nobj : Nat) (file : List WaitMemop) : Nat → MemopScan → Except Stop MemopScan
  | 0, _ => .error .diverges
  | fuel + 1, s =>
    match file[s.wmlog]? with
    | none => .error .outOfBounds
    | some e =>
      if e.objid = -1 then .ok s
      else
        let s := { s with cnt := s.cnt + 1 }
        -- `goto skip`
        if e.memop = -1 then scanMemop nobj file fuel { s with wmlog := s.wmlog + 1 }
        else if e.objid < 0 ∨ e.objid ≥ nobj then .error .assertFailed
        else
          scanMemop nobj file fuel
            { s with
              all := Function.update s.all e.objid.toNat (s.all e.objid.toNat ++ [e])
              total := s.total + 1
              wmlog := s.wmlog + 1 }

/-- The position is the part of the file that is left: the loop with an index is the loop over the
rest of the list. -/
theorem scanMemop_load {nobj : Nat} {file : List WaitMemop} : ∀ (fuel : Nat) (s : MemopScan),
    file.length - s.wmlog < fuel →
    (scanMemop nobj file fuel s).map (fun r => (r.all, r.total))
      = loadWaitMemopLog nobj (file.drop s.wmlog) s.all s.total
  | 0, _, h => absurd h (Nat.not_lt_zero _)
  | fuel + 1, s, h => by
    rw [scanMemop]
    cases hget : file[s.wmlog]? with
    | none =>
      rw [List.drop_eq_nil_of_le (List.getElem?_eq_none_iff.mp hget)]
      rfl
    | some e =>
      obtain ⟨hlt, he⟩ := List.getElem?_eq_some_iff.mp hget
      rw [List.drop_eq_getElem_cons hlt, he, loadWaitMemopLog]
      by_cases hend : e.objid = -1
      · simp only [if_pos hend]
        rfl
      · simp only [if_neg hend]
        by_cases hm : e.memop = -1
        · simp only [if_pos hm]
          exact scanMemop_load fuel _ (by simp only; omega)
        · simp only [if_neg hm]
          by_cases ho : e.objid < 0 ∨ e.objid ≥ nobj
          · simp only [if_pos ho]
            rfl
          · simp only [if_neg ho]
            exact scanMemop_load fuel _ (by simp only; omega)

/-- **The loop passes over entries and stops at the marker.**  No entry has the marker's `objid`, so
the loop goes on to the last record, with one turn for each. -/
theorem scanMemop_ok {nobj : Nat} {es : List WaitMemop} {sentinel : WaitMemop}
    (hs : sentinel.objid = -1) (hes : ∀ e ∈ es, 0 ≤ e.objid ∧ e.objid < nobj) :
    ∀ (fuel : Nat) (s : MemopScan), s.wmlog ≤ es.length → es.length < s.wmlog + fuel →
      ∃ r, scanMemop nobj (es ++ [sentinel]) fuel s = .ok r ∧ r.wmlog = es.length ∧
        r.cnt + s.wmlog = s.cnt + es.length
  | 0, s, hle, hf => absurd hf (by omega)
  | fuel + 1, s, hle, hf => by
    rw [scanMemop]
    rcases Nat.eq_or_lt_of_le hle with heq | hlt
    · rw [heq, List.getElem?_concat_length]
      exact ⟨s, if_pos hs, heq, rfl⟩
    · have hget : (es ++ [sentinel])[s.wmlog]? = some es[s.wmlog] := by
        rw [List.getElem?_append_left hlt, List.getElem?_eq_getElem hlt]
      obtain ⟨h0, hn⟩ := hes _ (List.getElem_mem hlt)
      rw [hget]
      simp only
      rw [if_neg (by omega)]
      split
      · obtain ⟨r, hr, h1, h2⟩ := scanMemop_ok hs hes fuel
          { s with cnt := s.cnt + 1, wmlog := s.wmlog + 1 } hlt (by simp only; omega)
        simp only at h2
        exact ⟨r, hr, h1, by omega⟩
      · rw [if_neg (by omega)]
        obtain ⟨r, hr, h1, h2⟩ := scanMemop_ok hs hes fuel
          { s with
            cnt := s.cnt + 1
            all := Function.update s.all es[s.wmlog].objid.toNat
              (s.all es[s.wmlog].objid.toNat ++ [es[s.wmlog]])
            total := s.total + 1
            wmlog := s.wmlog + 1 } hlt (by simp only; omega)
        simp only at h2
        exact ⟨r, hr, h1, by omega⟩

/-! ## 2. The version log, with its position

The part of a thread's state that belongs to its version log, and what an access does with it.
`used` is not in the source: it records which entries were waited for and at which access, so that
the main result can speak of it. -/

/-- What a thread keeps of its version log: `log->buf` as an index, the held entry and `memop`.
`used` lists the entries that were waited for, with the access that did. -/
structure Scan where
  buf : Nat
  waitVersion : WaitVersion
  memop : Nat
  used : List (Nat × WaitVersion)
deriving DecidableEq, Repr

namespace Scan

/-- `next_wait_version_log`. -/
def nextWaitVersionLog (file : List WaitVersion) (s : Scan) : Except Stop Scan :=
  match file[s.buf]? with
  | none => .error .outOfBounds
  | some wv =>
    if wv.memop = -1 then .ok { s with waitVersion := { s.waitVersion with memop := -1 } }
    else .ok { s with waitVersion := wv, buf := s.buf + 1 }

/-- What `wait_object_version` does with the log; that the object's version comes up is not part of
it. -/
def waitObjectVersion (file : List WaitVersion) (s : Scan) : Except Stop Scan :=
  if (s.memop : Int) = s.waitVersion.memop then
    nextWaitVersionLog file { s with used := s.used ++ [(s.memop, s.waitVersion)] }
  else .ok s

/-- An access: `wait_object_version`, and `memop++` at its end. -/
def access (file : List WaitVersion) (s : Scan) : Except Stop Scan := do
  let s ← s.waitObjectVersion file
  return { s with memop := s.memop + 1 }

end Scan

/-- The thread before its access number `i`: `mem_init_thr`, and `i` accesses. -/
def scanTo (file : List WaitVersion) : Nat → Except Stop Scan
  | 0 => Scan.nextWaitVersionLog file ⟨0, ⟨0, 0⟩, 0, []⟩
  | i + 1 => do
    let s ← scanTo file i
    s.access file

/-! ## 3. What is held before an access

The invariant of the scan.  The entries are split at the thread: `A` are behind it and have been
used, `B` are ahead of it, the first of them is held.  An access either is the one that the held
entry names, and then that entry moves from `B` to `A`, or it is not, and then it is before all of
`B` since the numbers rise. -/

/-- A log whose entries carry rising access numbers. -/
structure Rising (es : List WaitVersion) : Prop where
  nonneg : ∀ w ∈ es, 0 ≤ w.memop
  lt : es.Pairwise (fun a b => a.memop < b.memop)

/-- The first of the entries `B` is held, with the position behind it; when there is none the
position is at the end marker, and nothing is held. -/
def Held (pos : Nat) (s : Scan) : List WaitVersion → Prop
  | [] => s.waitVersion.memop = -1 ∧ s.buf = pos
  | w :: _ => s.waitVersion = w ∧ s.buf = pos + 1

/-- Before access `i` the entries `A` have been used, each at its own access, and `B` are left. -/
structure ScanAt (A B : List WaitVersion) (i : Nat) (s : Scan) : Prop where
  memop : s.memop = i
  used : s.used = A.map (fun w => (w.memop.toNat, w))
  behind : ∀ w ∈ A, w.memop < i
  ahead : ∀ w ∈ B, (i : Int) ≤ w.memop
  held : Held A.length s B

section Version

variable {A B : List WaitVersion} {i : Nat} {s : Scan} {sentinel : WaitVersion}

/-- `next_wait_version_log` at the first of the entries `B` takes it up, and at the end marker it
stays. -/
theorem next_held (hs : sentinel.memop = -1) (hB : ∀ w ∈ B, 0 ≤ w.memop) (hbuf : s.buf = A.length) :
    ∃ s', s.nextWaitVersionLog (A ++ B ++ [sentinel]) = .ok s' ∧ s'.memop = s.memop ∧
      s'.used = s.used ∧ Held A.length s' B := by
  unfold Scan.nextWaitVersionLog
  have hget : (A ++ B ++ [sentinel])[s.buf]? = (B ++ [sentinel])[0]? := by
    rw [hbuf, List.append_assoc, List.getElem?_append_right (Nat.le_refl _), Nat.sub_self]
  rw [hget]
  cases B with
  | nil => exact ⟨_, if_pos hs, rfl, rfl, rfl, hbuf⟩
  | cons w B =>
    have hw := hB w List.mem_cons_self
    exact ⟨_, if_neg (by omega), rfl, rfl, rfl, congrArg (· + 1) hbuf⟩

/-- `mem_init_thr`: nothing is used and the first entry is held. -/
theorem scanTo_zero (hs : sentinel.memop = -1) (hr : Rising B) :
    ∃ s, scanTo (B ++ [sentinel]) 0 = .ok s ∧ ScanAt [] B 0 s := by
  obtain ⟨s, hn, hm, hu, hh⟩ := next_held (A := []) (s := ⟨0, ⟨0, 0⟩, 0, []⟩) hs hr.nonneg rfl
  exact ⟨s, hn, hm, hu, fun w hw => absurd hw (by simp), fun w hw => hr.nonneg w hw, hh⟩

/-- The access the held entry names uses it and takes up the next one. -/
theorem ScanAt.access_used {w : WaitVersion} (h : ScanAt A (w :: B) i s) (hs : sentinel.memop = -1)
    (hr : Rising (A ++ w :: B)) (hw : w.memop = i) :
    ∃ s', s.access (A ++ w :: B ++ [sentinel]) = .ok s' ∧ ScanAt (A ++ [w]) B (i + 1) s' := by
  have hlater : ∀ x ∈ B, w.memop < x.memop :=
    (List.pairwise_cons.mp (List.pairwise_append.mp hr.lt).2.1).1
  obtain ⟨hheld, hbuf⟩ := h.held
  have hsplit : A ++ w :: B = A ++ [w] ++ B := by simp
  obtain ⟨s', hn, hm, hu, hh⟩ := next_held (A := A ++ [w]) (B := B)
    (s := { s with used := s.used ++ [(s.memop, s.waitVersion)] }) hs
    (fun x hx => hr.nonneg x (by simp [hx])) (by simpa using hbuf)
  refine ⟨{ s' with memop := s'.memop + 1 }, ?_, ?_⟩
  · unfold Scan.access Scan.waitObjectVersion
    rw [if_pos (by rw [h.memop, hheld, hw]), hsplit, hn]
    rfl
  · constructor
    · exact congrArg (· + 1) (hm.trans h.memop)
    · simp only [hu, h.used, h.memop, hheld, List.map_append, List.map_cons, List.map_nil, hw,
        Int.toNat_natCast]
    · intro x hx
      rcases List.mem_append.mp hx with hx | hx
      · have := h.behind x hx
        omega
      · rw [List.mem_singleton.mp hx, hw]
        omega
    · intro x hx
      have := hlater x hx
      omega
    · cases B with
      | nil => exact hh
      | cons x B => exact hh

/-- Any other access reads nothing.  No entry that is left names it, so the held one does not. -/
theorem ScanAt.access_other (h : ScanAt A B i s) (file : List WaitVersion)
    (hne : ∀ w ∈ B, w.memop ≠ i) :
    ∃ s', s.access file = .ok s' ∧ ScanAt A B (i + 1) s' := by
  have hcmp : ¬ ((s.memop : Int) = s.waitVersion.memop) := by
    rw [h.memop]
    have hh := h.held
    cases B with
    | nil =>
      rw [hh.1]
      omega
    | cons w B =>
      rw [hh.1]
      exact Ne.symm (hne w List.mem_cons_self)
  refine ⟨{ s with memop := s.memop + 1 }, ?_, ?_⟩
  · unfold Scan.access Scan.waitObjectVersion
    rw [if_neg hcmp]
    rfl
  · refine ⟨congrArg (· + 1) h.memop, h.used, ?_, ?_, ?_⟩
    · intro w hw
      have := h.behind w hw
      omega
    · intro w hw
      have h1 := h.ahead w hw
      have h2 := hne w hw
      omega
    · have hh := h.held
      cases B with
      | nil => exact hh
      | cons w B => exact hh

/-- **One access** keeps the description, with one entry more used or not. -/
theorem ScanAt.access (h : ScanAt A B i s) (hs : sentinel.memop = -1) (hr : Rising (A ++ B)) :
    ∃ A' B' s', A' ++ B' = A ++ B ∧ s.access (A ++ B ++ [sentinel]) = .ok s' ∧
      ScanAt A' B' (i + 1) s' := by
  cases B with
  | nil =>
    obtain ⟨s', hs', hat⟩ := h.access_other _ (fun w hw => absurd hw (by simp))
    exact ⟨A, [], s', rfl, hs', hat⟩
  | cons w B =>
    by_cases hw : w.memop = i
    · obtain ⟨s', hs', hat⟩ := h.access_used hs hr hw
      exact ⟨A ++ [w], B, s', by simp, hs', hat⟩
    · have hlater : ∀ x ∈ B, w.memop < x.memop :=
        (List.pairwise_cons.mp (List.pairwise_append.mp hr.lt).2.1).1
      have hahead := h.ahead w List.mem_cons_self
      obtain ⟨s', hs', hat⟩ := h.access_other _ (fun x hx => by
        rcases List.mem_cons.mp hx with rfl | hx
        · exact hw
        · have := hlater x hx
          omega)
      exact ⟨A, w :: B, s', rfl, hs', hat⟩

/-- **Any number of accesses.**  Past the last entry too, where the thread keeps its end marker. -/
theorem scanTo_at {es : List WaitVersion} (hs : sentinel.memop = -1) (hr : Rising es) (i : Nat) :
    ∃ A B s, A ++ B = es ∧ scanTo (es ++ [sentinel]) i = .ok s ∧ ScanAt A B i s := by
  induction i with
  | zero =>
    obtain ⟨s, h0, hat⟩ := scanTo_zero hs hr
    exact ⟨[], es, s, rfl, h0, hat⟩
  | succ i ih =>
    obtain ⟨A, B, s, hsplit, hi, hat⟩ := ih
    subst hsplit
    obtain ⟨A', B', s', hsplit', hacc, hat'⟩ := hat.access hs hr
    refine ⟨A', B', s', hsplit', ?_, hat'⟩
    rw [scanTo, hi]
    exact hacc

end Version

/-! ## 4. The recorder's logs

What the recorder writes is `Rising`, and ends with the only end marker; so the invariant holds
along the logs of any thread, for any accesses. -/

section Recorded

variable {Addr : Type} {L : Layout Addr}

/-- The recorder numbers the entries of the version log upwards: it writes at most one for an
access, with the number of the access. -/
theorem record_rising (es : List (Event Addr)) :
    Rising (record L es).waitVersion ∧
      ∀ w ∈ (record L es).waitVersion, w.memop < es.length := by
  induction es using List.reverseRecOn with
  | nil => exact ⟨⟨fun w hw => absurd hw (by simp [RecThr.memInitThr]), List.Pairwise.nil⟩,
      fun w hw => absurd hw (by simp [RecThr.memInitThr])⟩
  | append_singleton es e ih =>
    obtain ⟨⟨hnn, hlt⟩, hle⟩ := ih
    rw [record_snoc, access_waitVersion, record_memop, List.length_append, List.length_singleton]
    have hle' : ∀ w ∈ (record L es).waitVersion, w.memop < ((es.length + 1 : Nat) : Int) := by
      intro w hw
      have := hle w hw
      omega
    split
    · refine ⟨⟨?_, ?_⟩, ?_⟩
      · intro w hw
        rcases List.mem_append.mp hw with hw | hw
        · exact hnn w hw
        · rw [List.mem_singleton.mp hw]
          exact Int.natCast_nonneg _
      · refine List.pairwise_append.mpr ⟨hlt, List.pairwise_singleton _ _, ?_⟩
        intro a ha b hb
        rw [List.mem_singleton.mp hb]
        exact hle a ha
      · intro w hw
        rcases List.mem_append.mp hw with hw | hw
        · exact hle' w hw
        · rw [List.mem_singleton.mp hw]
          exact Int.ofNat_lt.mpr (Nat.lt_succ_self _)
    · rw [List.append_nil]
      exact ⟨⟨hnn, hlt⟩, hle'⟩

end Recorded

/-- The held entry is the first one that is not behind the thread. -/
theorem ScanAt.find {A B : List WaitVersion} {i : Nat} {s : Scan} (h : ScanAt A B i s) :
    (A ++ B).find? (fun w => (i : Int) ≤ w.memop) = B.head? := by
  have hA : A.find? (fun w => (i : Int) ≤ w.memop) = none := by
    refine List.find?_eq_none.mpr ?_
    intro w hw
    have := h.behind w hw
    simpa using this
  rw [List.find?_append, hA, Option.none_or]
  cases B with
  | nil => rfl
  | cons w B =>
    have := h.ahead w List.mem_cons_self
    simp [this]

/-- The used entries are those behind the thread. -/
theorem ScanAt.filter {A B : List WaitVersion} {i : Nat} {s : Scan} (h : ScanAt A B i s) :
    (A ++ B).filter (fun w => w.memop < (i : Int)) = A := by
  have hA : A.filter (fun w => w.memop < (i : Int)) = A :=
    List.filter_eq_self.mpr (fun w hw => by simpa using h.behind w hw)
  have hB : B.filter (fun w => w.memop < (i : Int)) = [] :=
    List.filter_eq_nil_iff.mpr (fun w hw => by simpa using h.ahead w hw)
  rw [List.filter_append, hA, hB, List.append_nil]

/-- The loop over a recorded memop log ends at the end marker. -/
theorem recorded_scanMemop {Addr : Type} (L : Layout Addr) (es : List (Event Addr)) :
    ∃ r, scanMemop L.nobj (recordThr L es).waitMemop (recordThr L es).waitMemop.length
        ⟨0, 0, fun _ => [], 0⟩ = .ok r ∧
      r.wmlog = (memopEntries L es).length ∧ r.cnt = (memopEntries L es).length := by
  have hobj : ∀ w ∈ memopEntries L es, 0 ≤ w.objid ∧ w.objid < L.nobj := by
    intro w hw
    obtain ⟨o, ho, hlt⟩ := memopEntries_objid hw
    omega
  obtain ⟨r, hr, hpos, hcnt⟩ := scanMemop_ok
    (show (⟨-1, -1, -1⟩ : WaitMemop).objid = -1 from rfl) hobj
    ((memopEntries L es).length + 1) ⟨0, 0, fun _ => [], 0⟩ (Nat.zero_le _) (by simp only; omega)
  refine ⟨r, ?_, hpos, by simpa using hcnt⟩
  rw [recordThr_waitMemop, List.length_append]
  exact hr

section At

variable {A B : List WaitVersion} {i : Nat} {s : Scan}

/-- The position is inside the file. -/
theorem ScanAt.buf_le (h : ScanAt A B i s) : s.buf ≤ (A ++ B).length := by
  have hheld := h.held
  cases B with
  | nil => simp [hheld.2]
  | cons w B => simp [hheld.2]

/-- What is held is the first entry that is left. -/
theorem ScanAt.holds_head (h : ScanAt A B i s) :
    match B.head? with
    | some w => s.waitVersion = w
    | none => s.waitVersion.memop = -1 ∧ s.buf = (A ++ B).length := by
  have hheld := h.held
  cases B with
  | nil =>
    rw [List.append_nil]
    exact hheld
  | cons w B => exact hheld.1

/-- Past the last access nothing is left: an entry would name an access the thread does not have. -/
theorem ScanAt.all_used {n : Nat} (h : ScanAt A B i s) (hlt : ∀ w ∈ A ++ B, w.memop < n)
    (hi : n ≤ i) : s.used.map Prod.snd = A ++ B ∧ s.buf = (A ++ B).length := by
  have hheld := h.held
  have hB : B = [] := by
    cases B with
    | nil => rfl
    | cons w B =>
      have h1 := h.ahead w List.mem_cons_self
      have h2 := hlt w (by simp)
      omega
  subst hB
  rw [h.used, List.map_map, List.append_nil]
  exact ⟨List.map_id' A, hheld.2⟩

end At

/-- **Both scans stay inside the recorder's logs, and every version entry is met at its moment.**
Of any thread's logs: the loop over the memop log ends, at the last record of the file, which is
the end marker and the only one.  Before access `i` the position in the version log is inside the
file, the thread holds the first entry that names access `i` or a later one (none, and the position
is at the end marker, if there is no such entry), and the entries waited for so far are those of the
accesses before `i`, each at the access it names; after the last access that is all of them. -/
theorem recorded_scans {Addr : Type} (L : Layout Addr) (es : List (Event Addr)) :
    (∃ memops, (recordThr L es).waitMemop = memops ++ [⟨-1, -1, -1⟩] ∧
      (∀ w ∈ memops, w.objid ≠ -1) ∧
      ∃ r, scanMemop L.nobj (recordThr L es).waitMemop (recordThr L es).waitMemop.length
          ⟨0, 0, fun _ => [], 0⟩ = .ok r ∧ r.wmlog = memops.length ∧ r.cnt = memops.length) ∧
    ∃ versions, (recordThr L es).waitVersion = versions ++ [⟨-1, -1⟩] ∧
      (∀ w ∈ versions, w.memop ≠ -1) ∧
      ∀ i, ∃ s, scanTo (recordThr L es).waitVersion i = .ok s ∧ s.memop = i ∧
        s.buf ≤ versions.length ∧
        (match versions.find? (fun w => (i : Int) ≤ w.memop) with
          | some w => s.waitVersion = w
          | none => s.waitVersion.memop = -1 ∧ s.buf = versions.length) ∧
        s.used = (versions.filter (fun w => w.memop < (i : Int))).map (fun w => (w.memop.toNat, w)) ∧
        (es.length ≤ i → s.used.map Prod.snd = versions ∧ s.buf = versions.length) := by
  constructor
  · refine ⟨memopEntries L es, recordThr_waitMemop es, ?_, recorded_scanMemop L es⟩
    intro w hw
    obtain ⟨o, ho, -⟩ := memopEntries_objid hw
    omega
  · obtain ⟨hr, hlt⟩ := record_rising (L := L) es
    refine ⟨(record L es).waitVersion, recordThr_waitVersion es, ?_, ?_⟩
    · intro w hw
      have := hr.nonneg w hw
      omega
    · intro i
      obtain ⟨A, B, s, hsplit, hs, hat⟩ := scanTo_at
        (show (⟨-1, -1⟩ : WaitVersion).memop = -1 from rfl) hr i
      rw [recordThr_waitVersion]
      rw [← hsplit] at hlt hs ⊢
      rw [hat.find, hat.filter]
      exact ⟨s, hs, hat.memop, hat.buf_le, hat.holds_head, hat.used, hat.all_used hlt⟩

/-! ## 5. The threads of the replay

The scan is a part of the replaying thread.  Two steps of a thread go past its log: the one that
finds that the held entry is not for this access, and `next_wait_version_log` after the version has
come up.  All others are `Scans.congr`. -/

section Threads

variable {Addr : Type} {file : List WaitVersion} {th th' : Thr Addr}

/-- A replaying thread is where the scan of its log is, and waits only for an entry that names its
access. -/
structure Scans (file : List WaitVersion) (th : Thr Addr) : Prop where
  scan : ∃ sc, scanTo file th.consumed = .ok sc ∧ th.waitVersion = sc.waitVersion ∧
    th.waitVersionLog = file.drop sc.buf
  waiting : ∀ acc, th.pc = .waitVersion acc ∨ th.pc = .checkVersion acc →
    (th.memop : Int) = th.waitVersion.memop

/-- `next_wait_version_log` counts nothing. -/
theorem Scan.next_memop {sc sc' : Scan} (h : sc.nextWaitVersionLog file = .ok sc') :
    sc'.memop = sc.memop := by
  unfold Scan.nextWaitVersionLog at h
  split at h
  · cases h
  · split at h <;> cases h <;> rfl

/-- An access counts one. -/
theorem Scan.access_memop {sc sc' : Scan} (h : sc.access file = .ok sc') :
    sc'.memop = sc.memop + 1 := by
  unfold Scan.access Scan.waitObjectVersion at h
  by_cases hm : (sc.memop : Int) = sc.waitVersion.memop
  · rw [if_pos hm] at h
    cases hn : Scan.nextWaitVersionLog file { sc with used := sc.used ++ [(sc.memop, sc.waitVersion)] } with
    | error e => rw [hn] at h; cases h
    | ok sc₁ =>
      rw [hn] at h
      cases h
      have hsame := Scan.next_memop hn
      exact congrArg (· + 1) hsame
  · rw [if_neg hm] at h
    cases h
    rfl

/-- The scan counts the accesses. -/
theorem scanTo_memop {i : Nat} {sc : Scan} (h : scanTo file i = .ok sc) : sc.memop = i := by
  induction i generalizing sc with
  | zero => exact Scan.next_memop h
  | succ i ih =>
    rw [scanTo] at h
    cases hi : scanTo file i with
    | error e => rw [hi] at h; cases h
    | ok sc₁ =>
      rw [hi] at h
      rw [Scan.access_memop h, ih hi]

/-- A step that neither reads the log nor passes `wait_object_version`: the log is as it was, and so
is the number of accesses that have been through it. -/
theorem Scans.congr (h : Scans file th) (hc : th'.consumed = th.consumed)
    (hv : th'.waitVersion = th.waitVersion) (hl : th'.waitVersionLog = th.waitVersionLog)
    (hw : ∀ acc, th'.pc = .waitVersion acc ∨ th'.pc = .checkVersion acc →
      (th'.memop : Int) = th'.waitVersion.memop) : Scans file th' := by
  refine ⟨?_, hw⟩
  rw [hc, hv, hl]
  exact h.scan

/-- `next_wait_version_log` of the thread and of the scan. -/
theorem scan_next (sc : Scan) (hv : th.waitVersion = sc.waitVersion)
    (hl : th.waitVersionLog = file.drop sc.buf) (h : th.nextWaitVersionLog = some th') :
    ∃ sc', sc.nextWaitVersionLog file = .ok sc' ∧ th'.waitVersion = sc'.waitVersion ∧
      th'.waitVersionLog = file.drop sc'.buf := by
  obtain ⟨r, hr, rfl⟩ := Option.map_eq_some_iff.mp h
  unfold Scan.nextWaitVersionLog
  rw [hl] at hr
  cases hget : file[sc.buf]? with
  | none =>
    rw [List.drop_eq_nil_of_le (List.getElem?_eq_none_iff.mp hget)] at hr
    cases hr
  | some wv =>
    obtain ⟨hlt, hwv⟩ := List.getElem?_eq_some_iff.mp hget
    rw [List.drop_eq_getElem_cons hlt, hwv, Replay.nextWaitVersionLog] at hr
    simp only
    by_cases hend : wv.memop = -1
    · rw [if_pos hend] at hr ⊢
      cases hr
      exact ⟨_, rfl, by rw [hv], by simp only [List.drop_eq_getElem_cons hlt, hwv]⟩
    · rw [if_neg hend] at hr ⊢
      cases hr
      exact ⟨_, rfl, rfl, rfl⟩

/-- Past `wait_object_version` without an entry for the access. -/
theorem Scans.fetch (h : Scans file th) (hpc : th.pc = .start) (acc : Acc Addr)
    (hm : (th.memop : Int) ≠ th.waitVersion.memop) :
    Scans file { th with pc := afterWait acc } := by
  obtain ⟨sc, hsc, hv, hl⟩ := h.scan
  have hk : th.consumed = th.memop := by simp [Thr.consumed, hpc]
  rw [hk] at hsc
  have hmem := scanTo_memop hsc
  constructor
  · refine ⟨{ sc with memop := sc.memop + 1 }, ?_, hv, hl⟩
    rw [consumed_afterWait, scanTo, hsc]
    change sc.access file = _
    unfold Scan.access Scan.waitObjectVersion
    rw [if_neg (by rw [hmem, ← hv]; exact hm)]
    rfl
  · intro acc'
    cases acc <;> simp [afterWait]

/-- Past `wait_object_version` with the entry used. -/
theorem Scans.checked (h : Scans file th) {acc : Acc Addr} (hpc : th.pc = .checkVersion acc)
    (hn : th.nextWaitVersionLog = some th') : Scans file { th' with pc := afterWait acc } := by
  obtain ⟨sc, hsc, hv, hl⟩ := h.scan
  have hk : th.consumed = th.memop := by simp [Thr.consumed, hpc]
  rw [hk] at hsc
  have hmem := scanTo_memop hsc
  obtain ⟨sc', hn', hv', hl'⟩ := scan_next
    { sc with used := sc.used ++ [(sc.memop, sc.waitVersion)] } hv hl hn
  constructor
  · refine ⟨{ sc' with memop := sc'.memop + 1 }, ?_, hv', hl'⟩
    rw [consumed_afterWait, (nextWaitVersionLog_same hn).1, scanTo, hsc]
    change sc.access file = _
    unfold Scan.access Scan.waitObjectVersion
    rw [if_pos (by rw [hmem, ← hv]; exact h.waiting acc (Or.inr hpc)), hn']
    rfl
  · intro acc'
    cases acc <;> simp [afterWait]

end Threads

section Reach

variable {Addr : Type} [DecidableEq Addr] {L : Layout Addr} {nthr : Nat} {prog : Nat → Prog Addr}
  {m₀ : Addr → Val} {tr : List (Event Addr)} {logs : Nat → List ReplayWaitMemop}
  {s s' : State Addr} {t : Nat} {file : List WaitVersion}

omit [DecidableEq Addr] in
/-- A step that only moves on. -/
theorem Scans.move (h : Scans file (s.thr t)) {p pc : Pc Addr} (hp : (s.thr t).pc = p)
    (hmv : Move L prog s t p pc) : Scans file { s.thr t with pc := pc } := by
  cases hmv with
  | fetchWait _ hm =>
    refine h.congr (by simp [Thr.consumed, hp]) rfl rfl ?_
    intro _ _
    exact hm
  | fetch _ hm => exact h.fetch hp _ hm
  | @reached acc _ =>
    refine h.congr (by simp [Thr.consumed, hp]) rfl rfl ?_
    intro _ _
    exact h.waiting acc (Or.inl hp)
  | _ => exact h.congr (by simp [Thr.consumed, hp]) rfl rfl (by simp)

/-- **A step of the thread itself** keeps it in step with the scan. -/
theorem Scans.step (h : Scans file (s.thr t)) (hst : Step L prog s t s') :
    Scans file (s'.thr t) := by
  cases hst with
  | move hmv => rw [setPc_self]; exact h.move rfl hmv
  | checked hp hn => rw [setThr_self]; exact h.checked hp hn
  | incMemop hp =>
    rw [setThr_self]
    exact h.congr (by simp [Thr.consumed, hp]) rfl rfl (by simp)
  | _ hp => exact h.congr (by simp [Thr.consumed, hp]) (by simp) (by simp) (by simp)

omit [DecidableEq Addr] in
/-- A thread that has been set up holds its first entry, as the scan does. -/
theorem memInitThr_scans {th : Thr Addr} (h : memInitThr file = some th) : Scans file th := by
  obtain ⟨sc, hsc, hv, hl⟩ := scan_next ⟨0, ⟨0, 0⟩, 0, []⟩ rfl rfl h
  have hsame := nextWaitVersionLog_same h
  have hpc : th.pc = .start := hsame.2.2
  constructor
  · refine ⟨sc, ?_, hv, hl⟩
    have hk : th.consumed = 0 := by simp [Thr.consumed, hpc, hsame.1]
    rw [hk]
    exact hsc
  · intro acc hw
    rw [hpc] at hw
    rcases hw with hw | hw <;> cases hw

/-- **Every replaying thread reads its log as the scan does**, whatever the others do: what it holds
and where it is in its file are those of `scanTo` at the number of accesses it has been through
`wait_object_version` with. -/
theorem reach_scan (h : (sys L nthr prog m₀ tr logs).Reach s) (t : Nat) :
    Scans (recordThr L (thread t tr)).waitVersion (s.thr t) := by
  induction h with
  | init hs => exact memInitThr_scans (hs.2.2.2 t)
  | step _ hst ih =>
    obtain ⟨u, -, -, hu⟩ := hst
    have hstep := step_cases hu
    by_cases htu : t = u
    · subst htu
      exact ih.step hstep
    · rw [step_thr_ne hstep htu]
      exact ih

end Reach

end MemOrder.Replay
