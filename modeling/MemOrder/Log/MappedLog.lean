/-
# `log.c`: logs in mapped files

A log is written through a mapping of the end of its file.  When an entry does not fit, the mapping
is given up, the file grows by `LOG_BUFFER_SIZE`, and the last page of the old file is mapped again
together with the new part.  Where to go on is computed from the low 12 bits of the old write
position, an address in a mapping that no longer exists.

The system is modelled as far as the code uses it: a file is its bytes, `mmap` returns any
page-aligned address (an argument here, so that every theorem is about every choice of addresses),
and loads and stores go through the mapping to the file.  The invariant `InvAt` says which byte of
the file the write position stands for; it does not mention the shape of the mapping, so that the
first mapping and the later ones need no separate treatment.

The place to be careful about is the resumption.  Mappings are page-aligned in memory and in the
file, so the low bits of the write position are those of its place in the file.  The log is enlarged
only when the next entry does not fit, and an entry is no longer than a page; so the position is on
the last page of the old file, or at its end.  Of these the offset in the page tells all but one
apart: it is zero at the beginning of the page and at its end, and the beginning can not be, since
then the entry would have fitted (`page_resume`).
-/
import MemOrder.Lib.CStruct
import MemOrder.Log.File

namespace MemOrder.MappedLog

open CStruct (put length_put)

/-! ## 1. The system

The calls of the system, as far as a log needs them; `none` is a failure. -/

/-- `PAGE_SIZE`. -/
def pageSize : Nat := 4096

/-- Byte `addr + i` of memory is byte `off + i` of the file, for `i < len`. -/
structure Mapping where
  addr : Nat
  off : Nat
  len : Nat
deriving DecidableEq, Repr

/-- `ftruncate`: cut, or extend with zeros. -/
def ftruncate (file : List UInt8) (size : Int) : Option (List UInt8) :=
  if 0 ≤ size then some (file.take size.toNat ++ List.replicate (size.toNat - file.length) 0) else none

/-- `mmap`, at the address the system chooses.  It refuses an empty mapping and an offset that is
negative or not a multiple of the page size. -/
def mmap (addr : Nat) (len off : Int) : Option Mapping :=
  if 0 < len ∧ 0 ≤ off ∧ off % pageSize = 0 then some ⟨addr, off.toNat, len.toNat⟩ else none

/-- `munmap`.  A log has one mapping, and only the whole of it is unmapped. -/
def munmap (map : Option Mapping) (start : Nat) (len : Int) : Option (Option Mapping) :=
  match map with
  | some m => if m.addr = start ∧ (m.len : Int) = len then some none else none
  | none => none

/-! ## 2. The code

The functions of `log.c` in their order. -/

/-- `struct mapped_log`, with the file behind `fd` and its mapping. -/
structure Log where
  start : Nat
  buf : Nat
  end_ : Nat
  file : List UInt8
  map : Option Mapping
deriving DecidableEq, Repr

/-- A system call that must not fail. -/
def orExit {α : Type} : Option α → Except Stop α
  | some a => .ok a
  | none => .error .exit

@[simp] theorem orExit_some {α : Type} (a : α) : orExit (some a) = .ok a := rfl

/-- `new_mapped_log_path`; `B` is `LOG_BUFFER_SIZE` and `addr` what `mmap` returns. -/
def newMappedLogPath (B addr : Nat) : Except Stop Log := do
  let file ← orExit (ftruncate [] B)
  let m ← orExit (mmap addr B 0)
  return ⟨m.addr, m.addr, m.addr + B, file, some m⟩

/-- `enlarge_mapped_log`. -/
def enlargeMappedLog (B addr : Nat) (log : Log) : Except Stop Log := do
  let originalSize := log.file.length
  if originalSize % B ≠ 0 then .error .assertFailed
  else
    let _ ← orExit (munmap log.map log.start ((log.end_ : Int) - log.start))
    let file ← orExit (ftruncate log.file (originalSize + B : Nat))
    let mapSize := int32 ((B : Int) + pageSize)
    let m ← orExit (mmap addr mapSize ((originalSize : Int) - pageSize))
    let pageOffset := log.buf &&& 0xFFF
    -- page offset 0 means that the old page is full
    return ⟨m.addr, m.addr + (if pageOffset ≠ 0 then pageOffset else pageSize),
      m.addr + mapSize.toNat, file, some m⟩

/-- `next_log_entry`: the log and the start of the region of the new entry. -/
def nextLogEntry (B addr : Nat) (log : Log) (entrySize : Nat) : Except Stop (Log × Nat) := do
  let log ← if log.buf + entrySize > log.end_ then enlargeMappedLog B addr log else pure log
  return ({ log with buf := log.buf + entrySize }, log.buf)

/-- `read_log_entry`; `none` is `NULL`. -/
def readLogEntry (log : Log) (entrySize : Nat) : Option (Log × Nat) :=
  if log.buf + entrySize > log.end_ then none
  else some ({ log with buf := log.buf + entrySize }, log.buf)

/-- `unmap_log`; `none` is the return value -1. -/
def unmapLog (log : Log) : Option Log := do
  let map ← munmap log.map log.start ((log.end_ : Int) - log.start)
  return { log with map := map }

/-- `truncate_log`. -/
def truncateLog (log : Log) : Option Log := do
  let file ← ftruncate log.file ((log.file.length : Int) - ((log.end_ : Int) - log.buf))
  return { log with file := file }

/-- `unmap_truncate_log`. -/
def unmapTruncateLog (log : Log) : Option Log := do
  let log ← unmapLog log
  truncateLog log

/-- `open_mapped_log_path` on an existing file. -/
def openMappedLogPath (addr : Nat) (file : List UInt8) : Except Stop Log := do
  let m ← orExit (mmap addr file.length 0)
  return ⟨m.addr, m.addr, m.addr + file.length, file, some m⟩

/-! ## 3. Memory accesses of the callers

The callers get an address and store through it.  An access outside of the mapping, or to a part of
it that is behind the end of the file, is an error here. -/

/-- The `n` bytes from address `p` are mapped, to the file from offset `o` on. -/
def Log.MapsTo (log : Log) (p n o : Nat) : Prop :=
  ∃ m, log.map = some m ∧ m.addr ≤ p ∧ p + n ≤ m.addr + m.len ∧ m.off + (p - m.addr) = o ∧
    o + n ≤ log.file.length

/-- Store bytes at address `p`. -/
def store (log : Log) (p : Nat) (bytes : List UInt8) : Except Stop Log :=
  match log.map with
  | none => .error .outOfBounds
  | some m =>
    if m.addr ≤ p ∧ p + bytes.length ≤ m.addr + m.len ∧
        m.off + (p - m.addr) + bytes.length ≤ log.file.length then
      .ok { log with file := put log.file (m.off + (p - m.addr)) bytes }
    else .error .outOfBounds

/-- Load `n` bytes from address `p`. -/
def load (log : Log) (p n : Nat) : Except Stop (List UInt8) :=
  match log.map with
  | none => .error .outOfBounds
  | some m =>
    if m.addr ≤ p ∧ p + n ≤ m.addr + m.len ∧ m.off + (p - m.addr) + n ≤ log.file.length then
      .ok ((log.file.drop (m.off + (p - m.addr))).take n)
    else .error .outOfBounds

/-- One entry: what it holds, and what `mmap` returns should the log be enlarged for it. -/
structure Entry where
  addr : Nat
  bytes : List UInt8
deriving DecidableEq, Repr

/-- A region for the entry, and the stores to it. -/
def append (B : Nat) (log : Log) (e : Entry) : Except Stop Log := do
  let r ← nextLogEntry B e.addr log e.bytes.length
  store r.1 r.2 e.bytes

/-- One entry after the other. -/
def appendAll (B : Nat) (log : Log) (es : List Entry) : Except Stop Log := es.foldlM (append B) log

/-- The bytes of the entries, one after the other. -/
def contents (es : List Entry) : List UInt8 := es.flatMap Entry.bytes

/-- Entries of the given sizes, read one after the other. -/
def readAll : Log → List Nat → Except Stop (List (List UInt8) × Log)
  | log, [] => .ok ([], log)
  | log, size :: sizes =>
    match readLogEntry log size with
    | none => .error .outOfBounds
    | some (log', p) => do
      let bytes ← load log' p size
      let r ← readAll log' sizes
      return (bytes :: r.1, r.2)

/-! ## 4. The invariant

Each operation keeps it, with the bytes written so far and the mapping as parameters. -/

/-- The buffer sizes the code works with: whole pages, and `map_size` an `int`. -/
structure BufferSize (B : Nat) : Prop where
  pos : 0 < B
  pages : B % pageSize = 0
  lt : B < 2 ^ 31 - pageSize

/-- The log holds the bytes `w`, and its mapping is of `len` bytes from offset `off` on. -/
structure InvAt (B : Nat) (w : List UInt8) (off len : Nat) (log : Log) : Prop where
  map : log.map = some ⟨log.start, off, len⟩
  end_eq : log.end_ = log.start + len
  start_aligned : log.start % pageSize = 0
  off_aligned : off % pageSize = 0
  size : off + len = log.file.length
  size_mod : log.file.length % B = 0
  size_pos : 0 < log.file.length
  buf_ge : log.start ≤ log.buf
  buf_le : log.buf ≤ log.end_
  /-- The byte of the file the write position stands for. -/
  pos : off + (log.buf - log.start) = w.length
  written : log.file.take w.length = w

section Invariant

variable {B off len addr : Nat} {w : List UInt8} {log : Log}

/-- Whole buffers are whole pages. -/
theorem mod_of_mod {n : Nat} (hB : BufferSize B) (h : n % B = 0) : n % pageSize = 0 :=
  Nat.mod_eq_zero_of_dvd (Nat.dvd_trans (Nat.dvd_of_mod_eq_zero hB.pages) (Nat.dvd_of_mod_eq_zero h))

/-- A buffer has a page at least. -/
theorem BufferSize.page_le (hB : BufferSize B) : pageSize ≤ B :=
  Nat.le_of_dvd hB.pos (Nat.dvd_of_mod_eq_zero hB.pages)

/-- Extending a file keeps its bytes. -/
theorem ftruncate_extend {file : List UInt8} {n : Nat} (h : file.length ≤ n) :
    ftruncate file n = some (file ++ List.replicate (n - file.length) 0) := by
  rw [ftruncate, if_pos (by omega), Int.toNat_natCast, List.take_of_length_le h]

/-- Cutting it keeps the first of them. -/
theorem ftruncate_cut {file : List UInt8} {n : Nat} (h : n ≤ file.length) :
    ftruncate file n = some (file.take n) := by
  rw [ftruncate, if_pos (by omega), Int.toNat_natCast, Nat.sub_eq_zero_of_le h,
    List.replicate_zero, List.append_nil]

/-- A mapping of whole pages is not refused. -/
theorem mmap_ok {n o : Nat} (hn : 0 < n) (ho : o % pageSize = 0) :
    mmap addr n o = some ⟨addr, o, n⟩ := by
  rw [mmap, if_pos ⟨by omega, by omega, by omega⟩, Int.toNat_natCast, Int.toNat_natCast]

/-- A new log has nothing in it. -/
theorem newMappedLogPath_ok (hB : BufferSize B) (ha : addr % pageSize = 0) :
    ∃ log, newMappedLogPath B addr = .ok log ∧ InvAt B [] 0 B log := by
  have hm : mmap addr B 0 = some ⟨addr, 0, B⟩ := mmap_ok hB.pos (by decide)
  rw [newMappedLogPath, ftruncate_extend (by simp), hm]
  refine ⟨_, rfl, rfl, rfl, ha, by decide, ?_, ?_, ?_, Nat.le_refl _, Nat.le_add_right _ _, ?_, rfl⟩
  · simp
  · simp
  · simpa using hB.pos
  · simp

/-- The low 12 bits of the write position are those of its place in the file. -/
theorem InvAt.page_offset (h : InvAt B w off len log) : log.buf &&& 0xFFF = w.length % pageSize := by
  have hand : log.buf &&& 0xFFF = log.buf % pageSize := Nat.and_two_pow_sub_one_eq_mod log.buf 12
  have h1 := h.start_aligned
  have h2 := h.off_aligned
  have h3 := h.buf_ge
  have h4 := h.pos
  rw [hand]
  simp only [pageSize] at h1 h2 ⊢
  omega

/-- A position on the last page of a file of `n` bytes, or at its end, from its offset in the page:
offset 0 can only be the end. -/
theorem page_resume {n p : Nat} (hn : n % pageSize = 0) (hle : p ≤ n) (hlast : n < p + pageSize)
    (hpage : pageSize ≤ n) :
    n - pageSize + (if p % pageSize ≠ 0 then p % pageSize else pageSize) = p := by
  by_cases hp : p % pageSize = 0
  · rw [if_neg (not_not.mpr hp)]
    simp only [pageSize] at *
    omega
  · rw [if_pos hp]
    simp only [pageSize] at *
    omega

/-- **`enlarge_mapped_log` goes on where the log ended**, if the last page of the file has been
reached. -/
theorem InvAt.enlarge (hB : BufferSize B) (ha : addr % pageSize = 0) (h : InvAt B w off len log)
    (hfull : log.file.length < w.length + pageSize) :
    ∃ log', enlargeMappedLog B addr log = .ok log' ∧
      InvAt B w (log.file.length - pageSize) (B + pageSize) log' ∧
      log'.buf ≤ log'.start + pageSize := by
  have hpage := hB.page_le
  have hlt := hB.lt
  have hfile : B ≤ log.file.length :=
    Nat.le_of_dvd h.size_pos (Nat.dvd_of_mod_eq_zero h.size_mod)
  have hmod := mod_of_mod hB h.size_mod
  have hw : w.length ≤ log.file.length := by
    have := h.pos
    have := h.buf_le
    have := h.buf_ge
    have := h.end_eq
    have := h.size
    omega
  -- no call of the system fails
  have hunmap : munmap log.map log.start ((log.end_ : Int) - log.start) = some none := by
    rw [h.map, munmap, if_pos ⟨rfl, by rw [h.end_eq]; push_cast; omega⟩]
  have hmapSize : int32 ((B : Int) + pageSize) = ((B + pageSize : Nat) : Int) := by
    rw [int32_of_lt (by omega) (by simp only [pageSize] at hlt ⊢; omega)]
    push_cast
    rfl
  have hoff : (log.file.length : Int) - pageSize = ((log.file.length - pageSize : Nat) : Int) := by
    omega
  have hoffmod : (log.file.length - pageSize) % pageSize = 0 := by
    simp only [pageSize] at hmod ⊢
    omega
  have hmm : mmap addr ((B + pageSize : Nat) : Int) ((log.file.length - pageSize : Nat) : Int) =
      some ⟨addr, log.file.length - pageSize, B + pageSize⟩ := mmap_ok (by omega) hoffmod
  have hlen : (log.file ++ List.replicate (log.file.length + B - log.file.length) 0).length =
      log.file.length + B := by simp
  -- where to go on, from the offset in the page
  have hresume := page_resume hmod hw hfull (Nat.le_trans hpage hfile)
  rw [enlargeMappedLog, if_neg (not_not.mpr h.size_mod), hunmap, orExit_some, ok_bind,
    ftruncate_extend (Nat.le_add_right _ B), orExit_some, ok_bind, hmapSize]
  dsimp only
  rw [hoff, hmm, orExit_some, ok_bind, h.page_offset, Int.toNat_natCast]
  refine ⟨_, rfl, ⟨rfl, ?_, ha, hoffmod, ?_, ?_, ?_, Nat.le_add_right _ _, ?_, ?_, ?_⟩, ?_⟩
  · rfl
  · rw [hlen]; omega
  · rw [hlen, Nat.add_mod_right]; exact h.size_mod
  · rw [hlen]; omega
  · show addr + _ ≤ addr + (B + pageSize)
    omega
  · show log.file.length - pageSize + (addr + _ - addr) = w.length
    rw [Nat.add_sub_cancel_left]
    exact hresume
  · show (log.file ++ _).take w.length = w
    rw [List.take_append_of_le_length hw]
    exact h.written
  · show addr + _ ≤ addr + pageSize
    omega

/-- **`next_log_entry` returns the region behind what is written**, inside the mapping. -/
theorem InvAt.next (hB : BufferSize B) (ha : addr % pageSize = 0) (h : InvAt B w off len log)
    {n : Nat} (hn : n ≤ pageSize) :
    ∃ log' off' len', nextLogEntry B addr log n = .ok ({ log' with buf := log'.buf + n }, log'.buf) ∧
      InvAt B w off' len' log' ∧ log'.buf + n ≤ log'.end_ := by
  unfold nextLogEntry
  by_cases hfit : log.buf + n > log.end_
  · have hfull : log.file.length < w.length + pageSize := by
      have := h.pos
      have := h.end_eq
      have := h.size
      have := h.buf_ge
      omega
    obtain ⟨log', henl, hinv, hbuf⟩ := h.enlarge hB ha hfull
    rw [if_pos hfit, henl, ok_bind]
    refine ⟨log', _, _, rfl, hinv, ?_⟩
    have := hinv.end_eq
    have := hB.page_le
    omega
  · rw [if_neg hfit]
    exact ⟨log, off, len, rfl, h, by omega⟩

/-- The region of the next entry. -/
theorem InvAt.mapsTo (h : InvAt B w off len log) {n : Nat} (hn : log.buf + n ≤ log.end_) :
    ({ log with buf := log.buf + n }).MapsTo log.buf n w.length := by
  have := h.end_eq
  have := h.size
  have := h.pos
  have := h.buf_ge
  refine ⟨_, h.map, h.buf_ge, ?_, h.pos, ?_⟩
  · show log.buf + n ≤ log.start + len
    omega
  · show w.length + n ≤ log.file.length
    omega

/-- Stores to the region add the entry to what is written. -/
theorem InvAt.store (h : InvAt B w off len log) {bytes : List UInt8}
    (hn : log.buf + bytes.length ≤ log.end_) :
    ∃ log', store { log with buf := log.buf + bytes.length } log.buf bytes = .ok log' ∧
      InvAt B (w ++ bytes) off len log' := by
  have hend := h.end_eq
  have hsize := h.size
  have hpos := h.pos
  have hge := h.buf_ge
  have hfit : w.length + bytes.length ≤ log.file.length := by omega
  have hlen := length_put hfit
  rw [MappedLog.store, h.map]
  dsimp only
  rw [if_pos ⟨hge, by omega, by omega⟩, hpos]
  refine ⟨_, rfl, rfl, hend, h.start_aligned, h.off_aligned, ?_, ?_, ?_, ?_, hn, ?_, ?_⟩
  · rw [hlen]; exact hsize
  · rw [hlen]; exact h.size_mod
  · rw [hlen]; exact h.size_pos
  · show log.start ≤ log.buf + bytes.length
    omega
  · show off + (log.buf + bytes.length - log.start) = (w ++ bytes).length
    rw [List.length_append]
    omega
  · show (put log.file w.length bytes).take (w ++ bytes).length = w ++ bytes
    rw [put, h.written, List.take_left]

/-- An entry: a region, and the stores to it. -/
theorem InvAt.append (hB : BufferSize B) (h : InvAt B w off len log) {e : Entry}
    (ha : e.addr % pageSize = 0) (hn : e.bytes.length ≤ pageSize) :
    ∃ log' off' len', append B log e = .ok log' ∧ InvAt B (w ++ e.bytes) off' len' log' := by
  obtain ⟨log₁, off', len', hnext, hinv, hfit⟩ := h.next hB ha hn
  obtain ⟨log', hstore, hinv'⟩ := hinv.store hfit
  refine ⟨log', off', len', ?_, hinv'⟩
  rw [MappedLog.append, hnext, ok_bind, hstore]

/-- **All entries.** -/
theorem InvAt.appendAll (hB : BufferSize B) {es : List Entry}
    (hes : ∀ e ∈ es, e.addr % pageSize = 0 ∧ e.bytes.length ≤ pageSize)
    (h : InvAt B w off len log) :
    ∃ log' off' len', appendAll B log es = .ok log' ∧ InvAt B (w ++ contents es) off' len' log' := by
  induction es generalizing w off len log with
  | nil => exact ⟨log, off, len, rfl, by rw [contents, List.flatMap_nil, List.append_nil]; exact h⟩
  | cons e es ih =>
    obtain ⟨ha, hn⟩ := hes e List.mem_cons_self
    obtain ⟨log₁, off₁, len₁, happ, hinv⟩ := h.append hB ha hn
    obtain ⟨log', off', len', hall, hinv'⟩ := ih (fun e he => hes e (List.mem_cons_of_mem _ he)) hinv
    refine ⟨log', off', len', ?_, ?_⟩
    · rw [MappedLog.appendAll, List.foldlM_cons, happ, ok_bind]
      exact hall
    · rw [contents, List.flatMap_cons, ← List.append_assoc]
      exact hinv'

/-- **`unmap_truncate_log` cuts the file to what is written.** -/
theorem InvAt.unmapTruncate (h : InvAt B w off len log) :
    ∃ log', unmapTruncateLog log = some log' ∧ log'.file = w := by
  have hend := h.end_eq
  have hsize := h.size
  have hpos := h.pos
  have hge := h.buf_ge
  have hle := h.buf_le
  have hunmap : munmap log.map log.start ((log.end_ : Int) - log.start) = some none := by
    rw [h.map, munmap, if_pos ⟨rfl, by rw [hend]; push_cast; omega⟩]
  have hcut : (log.file.length : Int) - ((log.end_ : Int) - log.buf) = (w.length : Nat) := by omega
  have htrunc : ftruncate log.file (w.length : Nat) = some w := by
    rw [ftruncate_cut (by omega), h.written]
  refine ⟨{ log with file := w, map := none }, ?_, rfl⟩
  simp only [unmapTruncateLog, unmapLog, truncateLog, hunmap, Option.bind_eq_bind, Option.bind_some,
    Option.pure_def, hcut, htrunc]

end Invariant

/-! ## 5. Reading

A log that is read is mapped whole; `k` is how far the reading has come. -/

section Read

variable {k : Nat} {file : List UInt8} {log : Log}

/-- The file is mapped whole and `k` bytes of it have been read. -/
structure ReadAt (file : List UInt8) (k : Nat) (log : Log) : Prop where
  map : log.map = some ⟨log.start, 0, file.length⟩
  file_eq : log.file = file
  end_eq : log.end_ = log.start + file.length
  buf_eq : log.buf = log.start + k

/-- A file with something in it can be opened. -/
theorem openMappedLogPath_ok (addr : Nat) (hne : file ≠ []) :
    ∃ log, openMappedLogPath addr file = .ok log ∧ ReadAt file 0 log := by
  have hm : mmap addr file.length 0 = some ⟨addr, 0, file.length⟩ :=
    mmap_ok (List.length_pos_iff.mpr hne) (by decide)
  rw [openMappedLogPath, hm]
  exact ⟨_, rfl, rfl, rfl, rfl, rfl⟩

/-- An entry that is there. -/
theorem ReadAt.read {n : Nat} (h : ReadAt file k log) (hn : k + n ≤ file.length) :
    ∃ log' p, readLogEntry log n = some (log', p) ∧ load log' p n = .ok ((file.drop k).take n) ∧
      ReadAt file (k + n) log' := by
  have hend := h.end_eq
  have hbuf := h.buf_eq
  refine ⟨{ log with buf := log.buf + n }, log.buf, if_neg (by omega), ?_, h.map, h.file_eq, hend, ?_⟩
  · have hoff : 0 + (log.buf - log.start) = k := by omega
    rw [load, h.map]
    dsimp only
    rw [hoff, h.file_eq, if_pos ⟨by omega, by omega, hn⟩]
  · show log.buf + n = log.start + (k + n)
    omega

/-- `NULL` at the end. -/
theorem ReadAt.read_end {n : Nat} (h : ReadAt file file.length log) (hn : 1 ≤ n) :
    readLogEntry log n = none := by
  have hend := h.end_eq
  have hbuf := h.buf_eq
  rw [readLogEntry, if_pos (by omega)]

/-- All entries, from the one at which the reading is. -/
theorem ReadAt.readAll {es : List Entry} (pre : List UInt8) (hfile : file = pre ++ contents es)
    (h : ReadAt file pre.length log) :
    ∃ log', readAll log (es.map (fun e => e.bytes.length)) = .ok (es.map Entry.bytes, log') ∧
      ReadAt file file.length log' := by
  induction es generalizing pre log with
  | nil =>
    refine ⟨log, rfl, ?_⟩
    have hpre : pre = file := by rw [hfile, contents, List.flatMap_nil, List.append_nil]
    rw [hpre] at h
    exact h
  | cons e es ih =>
    have hsplit : file = (pre ++ e.bytes) ++ contents es := by
      rw [hfile, contents, List.flatMap_cons, List.append_assoc]
      rfl
    have hdrop : (file.drop pre.length).take e.bytes.length = e.bytes := by
      rw [hsplit, List.append_assoc, List.drop_left, List.take_left]
    obtain ⟨log₁, p, hread, hload, hat⟩ := h.read (n := e.bytes.length) (by
      rw [hsplit, List.length_append, List.length_append]
      omega)
    rw [← List.length_append] at hat
    obtain ⟨log', hall, hend⟩ := ih _ hsplit hat
    refine ⟨log', ?_, hend⟩
    rw [List.map_cons, MappedLog.readAll, hread]
    dsimp only
    rw [hload, hdrop, ok_bind, hall, ok_bind]
    rfl

end Read

/-! ## 6. Appending is exact and reading undoes it

The result, along any list of entries. -/

section Exact

variable {B addr : Nat}

/-- **Every region, the file, and the entries read back.**  For every choice of page-aligned
addresses by the system: the region of each entry is mapped, to the file bytes right behind the
earlier entries, which are still what was stored; the truncated file is the entries one after the
other; and reading with the same sizes gives them back, then `NULL`. -/
theorem mapped_log_exact (hpos : 0 < B) (hpages : B % pageSize = 0) (hlt : B < 2 ^ 31 - pageSize)
    (ha : addr % pageSize = 0) (es : List Entry)
    (hes : ∀ e ∈ es, e.addr % pageSize = 0 ∧ 1 ≤ e.bytes.length ∧ e.bytes.length ≤ pageSize) :
    ∃ log₀, newMappedLogPath B addr = .ok log₀ ∧
      (∀ pre e post, es = pre ++ e :: post → ∃ log log' p, appendAll B log₀ pre = .ok log ∧
        nextLogEntry B e.addr log e.bytes.length = .ok (log', p) ∧
        log'.MapsTo p e.bytes.length (contents pre).length ∧
        (∃ m, log'.map = some m ∧ m.off % pageSize = 0) ∧
        log'.file.take (contents pre).length = contents pre) ∧
      ∃ log log', appendAll B log₀ es = .ok log ∧ unmapTruncateLog log = some log' ∧
        log'.file = contents es ∧
        (es ≠ [] → ∀ addr', ∃ rlog rlog', openMappedLogPath addr' log'.file = .ok rlog ∧
          readAll rlog (es.map (fun e => e.bytes.length)) = .ok (es.map Entry.bytes, rlog') ∧
          ∀ n, 1 ≤ n → readLogEntry rlog' n = none) := by
  have hB : BufferSize B := ⟨hpos, hpages, hlt⟩
  obtain ⟨log₀, hnew, hinv₀⟩ := newMappedLogPath_ok hB ha
  have hpage : ∀ e ∈ es, e.addr % pageSize = 0 ∧ e.bytes.length ≤ pageSize :=
    fun e he => ⟨(hes e he).1, (hes e he).2.2⟩
  refine ⟨log₀, hnew, ?_, ?_⟩
  -- the region of an entry, after those before it
  · rintro pre e post rfl
    obtain ⟨log, off, len, hrun, hinv⟩ := hinv₀.appendAll hB
      (fun e he => hpage e (List.mem_append_left _ he))
    obtain ⟨ha, hn⟩ := hpage e (List.mem_append_right _ List.mem_cons_self)
    obtain ⟨log', off', len', hnext, hinv', hfit⟩ := hinv.next hB ha hn
    refine ⟨log, _, _, hrun, hnext, hinv'.mapsTo hfit, ⟨_, hinv'.map, hinv'.off_aligned⟩, ?_⟩
    exact hinv'.written
  · obtain ⟨log, off, len, hrun, hinv⟩ := hinv₀.appendAll hB hpage
    obtain ⟨log', htrunc, hfile⟩ := hinv.unmapTruncate
    refine ⟨log, log', hrun, htrunc, hfile, ?_⟩
    intro hne addr'
    -- an entry has a byte at least, and an empty file could not be mapped
    have hfile_ne : log'.file ≠ [] := by
      obtain ⟨e, rest, rfl⟩ := List.exists_cons_of_ne_nil hne
      have := (hes e List.mem_cons_self).2.1
      intro hnil
      have hlen := congrArg List.length (hfile.symm.trans hnil)
      simp only [contents, List.nil_append, List.flatMap_cons, List.length_append,
        List.length_nil] at hlen
      omega
    obtain ⟨rlog, hopen, hat⟩ := openMappedLogPath_ok addr' hfile_ne
    obtain ⟨rlog', hall, hend⟩ := ReadAt.readAll [] hfile hat
    exact ⟨rlog, rlog', hopen, hall, fun n hn => hend.read_end hn⟩

/-- Two entries, the second across the first page boundary, so that the log is enlarged. -/
theorem mapped_log_exact_two : ∃ log₀ log log', newMappedLogPath 4096 8192 = .ok log₀ ∧
    appendAll 4096 log₀ [⟨12288, List.replicate 4000 1⟩, ⟨20480, List.replicate 200 2⟩] = .ok log ∧
    unmapTruncateLog log = some log' ∧
    log'.file = List.replicate 4000 1 ++ List.replicate 200 2 := by
  obtain ⟨log₀, hnew, -, log, log', hrun, htrunc, hfile, -⟩ :=
    @mapped_log_exact 4096 8192 (by decide) (by decide) (by decide) (by decide)
      [⟨12288, List.replicate 4000 1⟩, ⟨20480, List.replicate 200 2⟩] (by
        intro e he
        simp only [List.mem_cons, List.not_mem_nil, or_false] at he
        rcases he with rfl | rfl
        · rw [List.length_replicate]
          decide
        · rw [List.length_replicate]
          decide)
  refine ⟨log₀, log, log', hnew, hrun, htrunc, ?_⟩
  rw [hfile, contents, List.flatMap_cons, List.flatMap_cons, List.flatMap_nil, List.append_nil]

end Exact

end MemOrder.MappedLog
