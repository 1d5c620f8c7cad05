/-
# Logs as bytes: writing

What the recorders leave on disk, byte for byte: an entry is a struct, its region comes from
`next_log_entry`, and its fields are stored one after the other through the mapping.  Nothing is
assumed about the addresses that `mmap` returns nor about the padding bytes of a region.

The file of a log that has been truncated is the structs of its entries (`writeLog_holds`), so what
was logged can be read from it.  `MappedLog` has that the regions are where they should be; here is
what is stored in them.
-/
import MemOrder.Lib.CStruct
import MemOrder.Log.MappedLog

namespace MemOrder.Disk

open CStruct MappedLog

/-! ## 1. The structs of `mem.h`

The types as the compiler lays them out: every field at a multiple of its size, the struct padded to
its largest field. -/

def char : IntType := ⟨1, true⟩

/-- `objid_t`. -/
def int : IntType := ⟨4, true⟩

/-- `version_t` and `memop_t`. -/
def long : IntType := ⟨8, true⟩

/-- `struct wait_version`. -/
def waitVersion : Codec WaitVersion where
  fields := [long, long]
  toVals w := [w.memop, w.version]
  ofVals
    | memop :: version :: _ => ⟨memop, version⟩
    | _ => ⟨0, 0⟩
  length_le _ := Nat.le_refl _
  ofVals_append _ _ := rfl

/-- `struct wait_memop`, with four bytes of padding behind `objid`. -/
def waitMemop : Codec WaitMemop where
  fields := [int, long, long]
  toVals w := [w.objid, w.version, w.memop]
  ofVals
    | objid :: version :: memop :: _ => ⟨objid, version, memop⟩
    | _ => ⟨0, 0, 0⟩
  length_le _ := Nat.le_refl _
  ofVals_append _ _ := rfl

/-- `struct replay_wait_memop`, with seven bytes of padding at its end. -/
def replayWaitMemop : Codec ReplayWaitMemop where
  fields := [long, long, char]
  toVals w := [w.version, w.memop, w.tid]
  ofVals
    | version :: memop :: tid :: _ => ⟨version, memop, tid.toNat⟩
    | _ => ⟨0, 0, 0⟩
  length_le _ := Nat.le_refl _
  ofVals_append _ _ := rfl

/-- An `int` of `memop-index`. -/
def index : Codec Int where
  fields := [int]
  toVals i := [i]
  ofVals
    | i :: _ => i
    | _ => 0
  length_le _ := Nat.le_refl _
  ofVals_append _ _ := rfl

example : (waitVersion.size, waitMemop.size, replayWaitMemop.size, index.size) = (16, 24, 24, 4) := by
  decide

/-- The fields of an entry are integers at fixed places. -/
theorem read_waitVersion (r : List UInt8) :
    (waitVersion.read r).memop = long.ofBytes (get r 0 long.size) ∧
      (waitVersion.read r).version = long.ofBytes (get r 8 long.size) := by
  simp only [Codec.read, waitVersion, getFields]
  exact ⟨rfl, rfl⟩

/-- The same, with the padding behind `objid`. -/
theorem read_waitMemop (r : List UInt8) :
    (waitMemop.read r).objid = int.ofBytes (get r 0 int.size) ∧
      (waitMemop.read r).version = long.ofBytes (get r 8 long.size) ∧
      (waitMemop.read r).memop = long.ofBytes (get r 16 long.size) := by
  simp only [Codec.read, waitMemop, getFields]
  exact ⟨rfl, rfl, rfl⟩

/-- An integer of the index. -/
theorem read_index (r : List UInt8) : index.read r = int.ofBytes (get r 0 int.size) := by
  simp only [Codec.read, index, getFields]
  rfl

/-- What a `long` holds. -/
theorem fits_long {v : Int} (h0 : -1 ≤ v) (h : v < 2 ^ 63) : long.Fits v :=
  IntType.fits_signed rfl (by decide) (by omega) h

/-- What an `int` holds. -/
theorem fits_int {v : Int} (h0 : -1 ≤ v) (h : v < 2 ^ 31) : int.Fits v :=
  IntType.fits_signed rfl (by decide) (by omega) h

/-- What a `char` holds. -/
theorem fits_char {v : Int} (h0 : 0 ≤ v) (h : v < 2 ^ 7) : char.Fits v :=
  IntType.fits_signed rfl (by decide) (by omega) h

theorem fits_waitVersion {w : WaitVersion} :
    waitVersion.Fits w ↔ long.Fits w.memop ∧ long.Fits w.version := by
  simp [Codec.Fits, waitVersion]

theorem fits_waitMemop {w : WaitMemop} :
    waitMemop.Fits w ↔ int.Fits w.objid ∧ long.Fits w.version ∧ long.Fits w.memop := by
  simp [Codec.Fits, waitMemop]

theorem fits_replayWaitMemop {w : ReplayWaitMemop} :
    replayWaitMemop.Fits w ↔ long.Fits w.version ∧ long.Fits w.memop ∧ char.Fits w.tid := by
  simp [Codec.Fits, replayWaitMemop]

theorem fits_index {i : Int} : index.Fits i ↔ int.Fits i := by
  simp [Codec.Fits, index]

/-! ## 2. The code

The same for every log, but for the struct. -/

section Code

variable {α : Type} (c : Codec α) (B : Nat) (mm : Nat → Nat)

/-- One entry: `next_log_entry` for its struct, then a store for each field.  The addresses that
`mmap` returns are told apart by the size of the file, which grows from one call to the next. -/
def logEntry (log : Log) (a : α) : Except Stop Log := do
  let r ← nextLogEntry B (mm log.file.length) log c.size
  (c.stores a).foldlM (fun log st => store log (r.2 + st.1) st.2) r.1

/-- `log_wait_version`, for the version log also `mark_log_end`. -/
def logWaitVersion (log : Log) (w : WaitVersion) : Except Stop Log := logEntry waitVersion B mm log w

/-- `log_other_wait_memop`, for the memop log also `mark_log_end`. -/
def logOtherWaitMemop (log : Log) (w : WaitMemop) : Except Stop Log := logEntry waitMemop B mm log w

/-- `new_mapped_log`, the entries, and `unmap_truncate_log`, whose result the callers ignore. -/
def writeLog (entry : Log → α → Except Stop Log) (as : List α) : Except Stop (List UInt8) := do
  let log ← newMappedLogPath B (mm 0)
  let log ← as.foldlM entry log
  return ((unmapTruncateLog log).getD log).file

end Code

/-! ## 3. What is in the file

The invariant is that of `MappedLog`, for the bytes `w` written so far.  An entry is the two steps
that are there: `next_log_entry` adds a region to `w` with whatever the file has in it, and then the
stores change the bytes of that last region and of nothing else. -/

section Holds

variable {α : Type} {c : Codec α} {B off len : Nat} {mm : Nat → Nat} {w r : List UInt8} {log : Log}

/-- The region of the next entry counts as written, with what is in it. -/
theorem advance (h : InvAt B w off len log) {n : Nat} (hn : log.buf + n ≤ log.end_) :
    InvAt B (w ++ get log.file w.length n) off len { log with buf := log.buf + n } := by
  have hend := h.end_eq
  have hsize := h.size
  have hpos := h.pos
  have hge := h.buf_ge
  have hlen : (get log.file w.length n).length = n := length_get (by omega)
  refine ⟨h.map, hend, h.start_aligned, h.off_aligned, hsize, h.size_mod, h.size_pos, ?_, hn, ?_, ?_⟩
  · show log.start ≤ log.buf + n
    omega
  · show off + (log.buf + n - log.start) = _
    rw [List.length_append, hlen]
    omega
  · show log.file.take (w ++ get log.file w.length n).length = w ++ get log.file w.length n
    rw [List.length_append, hlen, List.take_add, h.written]
    rfl

/-- A store to the last region changes its bytes in the file. -/
theorem storeRegion (h : InvAt B (w ++ r) off len log) {p : Nat} (hp : log.start ≤ p)
    (hregion : p + r.length = log.buf) {st : Nat × List UInt8} (hst : st.1 + st.2.length ≤ r.length) :
    ∃ log', store log (p + st.1) st.2 = .ok log' ∧ InvAt B (w ++ put r st.1 st.2) off len log' ∧
      log'.start = log.start ∧ log'.buf = log.buf := by
  have hend := h.end_eq
  have hsize := h.size
  have hpos := h.pos
  have hle := h.buf_le
  have hput := length_put hst
  rw [List.length_append] at hpos
  have hat : off + (p + st.1 - log.start) = w.length + st.1 := by omega
  have hfile : log.file = w ++ r ++ log.file.drop (w ++ r).length := by
    rw [← h.written, List.length_take_of_le (by rw [List.length_append]; omega), List.take_append_drop]
  have hnew : put log.file (w.length + st.1) st.2 =
      w ++ put r st.1 st.2 ++ log.file.drop (w ++ r).length := by
    conv_lhs => rw [hfile]
    rw [List.append_assoc, put_append, put_append_left hst, List.append_assoc]
  have hlen : (put log.file (w.length + st.1) st.2).length = log.file.length :=
    length_put (by omega)
  rw [store, h.map]
  dsimp only
  rw [hat, if_pos ⟨by omega, by omega, by omega⟩]
  refine ⟨_, rfl, ⟨rfl, hend, h.start_aligned, h.off_aligned, ?_, ?_, ?_, h.buf_ge, hle, ?_, ?_⟩,
    rfl, rfl⟩
  · rw [hlen]; exact hsize
  · rw [hlen]; exact h.size_mod
  · rw [hlen]; exact h.size_pos
  · show off + (log.buf - log.start) = (w ++ put r st.1 st.2).length
    rw [List.length_append, hput]
    omega
  · show (put log.file (w.length + st.1) st.2).take (w ++ put r st.1 st.2).length =
      w ++ put r st.1 st.2
    rw [hnew, List.take_left]

/-- All stores of an entry, one after the other. -/
theorem storeRegionAll {p : Nat} (sts : List (Nat × List UInt8)) (h : InvAt B (w ++ r) off len log)
    (hp : log.start ≤ p) (hregion : p + r.length = log.buf)
    (hsts : ∀ st ∈ sts, st.1 + st.2.length ≤ r.length) :
    ∃ log', sts.foldlM (fun log st => store log (p + st.1) st.2) log = .ok log' ∧
      InvAt B (w ++ putAll r sts) off len log' := by
  induction sts generalizing r log with
  | nil => exact ⟨log, rfl, h⟩
  | cons st sts ih =>
    have hst := hsts st List.mem_cons_self
    have hput := length_put hst
    obtain ⟨log₁, hstore, hinv, hstart, hbuf⟩ := storeRegion h hp hregion hst
    obtain ⟨log', hall, hinv'⟩ := ih hinv (by omega) (by omega)
      (fun st' hst' => by rw [hput]; exact hsts st' (List.mem_cons_of_mem _ hst'))
    refine ⟨log', ?_, hinv'⟩
    rw [List.foldlM_cons, hstore, ok_bind]
    exact hall

/-- **One entry adds its struct to the log.** -/
theorem logEntry_ok (hB : BufferSize B) (hmm : ∀ n, mm n % pageSize = 0) (hc : c.size ≤ pageSize)
    (h : InvAt B w off len log) {a : α} (hfits : c.Fits a) :
    ∃ log' off' len' r, logEntry c B mm log a = .ok log' ∧ InvAt B (w ++ r) off' len' log' ∧
      r.length = c.size ∧ c.read r = a := by
  obtain ⟨log₁, off', len', hnext, hinv, hfit⟩ := h.next hB (hmm log.file.length) hc
  have hlen : (get log₁.file w.length c.size).length = c.size := by
    have := hinv.end_eq
    have := hinv.size
    have := hinv.pos
    have := hinv.buf_ge
    exact length_get (by omega)
  obtain ⟨log', hall, hinv'⟩ := storeRegionAll (c.stores a) (advance hinv hfit) hinv.buf_ge
    (p := log₁.buf) (by rw [hlen]) (fun st hst => by rw [hlen]; exact Codec.stores_bounds st hst)
  refine ⟨log', off', len', _, ?_, hinv', Codec.length_stores hlen, Codec.read_stores hfits hlen⟩
  rw [logEntry, hnext, ok_bind]
  exact hall

/-- Any number of entries add their structs. -/
theorem logEntries_ok (hB : BufferSize B) (hmm : ∀ n, mm n % pageSize = 0) (hc : c.size ≤ pageSize)
    {as as' : List α} (hfits : ∀ a ∈ as', c.Fits a) (h : InvAt B w off len log) (hw : c.Holds w as) :
    ∃ log' off' len' w', as'.foldlM (logEntry c B mm) log = .ok log' ∧ InvAt B w' off' len' log' ∧
      c.Holds w' (as ++ as') := by
  induction as' generalizing w off len log as with
  | nil => exact ⟨log, off, len, w, rfl, h, by rw [List.append_nil]; exact hw⟩
  | cons a as' ih =>
    obtain ⟨log₁, off₁, len₁, r, hentry, hinv, hlen, hread⟩ :=
      logEntry_ok hB hmm hc h (hfits a List.mem_cons_self)
    have hw' := hw.snoc hlen
    rw [hread] at hw'
    obtain ⟨log', off', len', w', hall, hinv', hholds⟩ :=
      ih (fun a' ha' => hfits a' (List.mem_cons_of_mem _ ha')) hinv hw'
    refine ⟨log', off', len', w', ?_, hinv', ?_⟩
    · rw [List.foldlM_cons, hentry, ok_bind]
      exact hall
    · rw [List.append_assoc] at hholds
      exact hholds

/-- **The file is the structs of the entries.** -/
theorem writeLog_holds (hB : BufferSize B) (hmm : ∀ n, mm n % pageSize = 0) (hc : c.size ≤ pageSize)
    {as : List α} (hfits : ∀ a ∈ as, c.Fits a) :
    ∃ file, writeLog B mm (logEntry c B mm) as = .ok file ∧ c.Holds file as := by
  obtain ⟨log₀, hnew, hinv₀⟩ := newMappedLogPath_ok hB (hmm 0)
  obtain ⟨log, off, len, w, hall, hinv, hholds⟩ :=
    logEntries_ok hB hmm hc hfits hinv₀ Codec.holds_nil
  obtain ⟨log', htrunc, hfile⟩ := hinv.unmapTruncate
  refine ⟨w, ?_, hholds⟩
  rw [writeLog, hnew, ok_bind, hall, ok_bind, htrunc, Option.getD_some, hfile]
  rfl

end Holds

end MemOrder.Disk
