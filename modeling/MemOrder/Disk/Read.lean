/-
# Logs as bytes: reading

The programs that read the logs map a file and walk through it with a pointer to a struct.  They are
written here on the bytes, each load at its address; and each of them does what its model on the
list of the entries does, for every file that `Holds` the entries: `next_wait_version_log`,
`reorder-memop` with `load_wait_memop_log`, and `load_wait_reader_log`.

The other modules describe the readers on lists.  The theorems of §3 are what licenses this: a
reader on bytes returns what the reader on the list returns, where it ends with an error too.
-/
import MemOrder.Disk.Write
import MemOrder.Log.Memop

namespace MemOrder.Disk

open CStruct MappedLog

/-! ## 1. The code

A load beyond the mapping is an error, `Stop.outOfBounds`, and not some value. -/

/-- An integer at address `p`. -/
def loadInt (log : Log) (p : Nat) (c : IntType) : Except Stop Int := do
  let bs ← load log p c.size
  return c.ofBytes bs

/-- A struct at address `p`. -/
def loadStruct {α : Type} (c : Codec α) (log : Log) (p : Nat) : Except Stop α := do
  let bs ← load log p c.size
  return c.read bs

/-- `next_wait_version_log`, on `wait_version_log` and `wait_version`. -/
def nextWaitVersionLog (log : Log) (waitVer : WaitVersion) : Except Stop (Log × WaitVersion) := do
  let memop ← loadInt log log.buf long
  if memop = -1 then return (log, { waitVer with memop := -1 })
  else
    let wv ← loadStruct waitVersion log log.buf
    return ({ log with buf := log.buf + waitVersion.size }, wv)

/-- `load_wait_memop_log` of `reorder-memop`, from address `wmlog` on.  The loop has no bound but the
end of the mapping. -/
def loadWaitMemopLog (nobj : Nat) (log : Log) : Nat → Nat → (Nat → List WaitMemop) → Int →
    Except Stop ((Nat → List WaitMemop) × Int)
  | 0, _, _, _ => .error .diverges
  | fuel + 1, wmlog, all, total => do
    let objid ← loadInt log wmlog int
    if objid = -1 then return (all, total)
    else
      let memop ← loadInt log (wmlog + 16) long
      if memop = -1 then loadWaitMemopLog nobj log fuel (wmlog + waitMemop.size) all total
      else if objid < 0 ∨ objid ≥ nobj then .error .assertFailed
      else
        let e ← loadStruct waitMemop log wmlog
        loadWaitMemopLog nobj log fuel (wmlog + waitMemop.size)
          (Function.update all objid.toNat (all objid.toNat ++ [e])) (total + 1)

/-- `main` of `reorder-memop` up to `write_out_memop_log`, on the bytes of the file: the entries of
`sorted-memop`. -/
def reorderMain (nobj addr : Nat) (file : List UInt8) : Except Stop (Option (List WaitMemop)) := do
  let log ← openMappedLogPath addr file
  let r ← loadWaitMemopLog nobj log (file.length + 1) log.buf (fun _ => []) 0
  if r.2 ≠ 0 then
    let sorted ← Memop.writeOutMemopLog nobj r.1 r.2
    return some sorted
  else return none

/-- The loop of `load_wait_reader_log`, with `index` at address `p`. -/
def loadIndex (log : Log) : Nat → Nat → Except Stop (List Memop.WaitReaderLog)
  | 0, _ => .ok []
  | nobj + 1, p => do
    let i ← loadInt log p int
    if i = -1 then
      let logs ← loadIndex log nobj (p + 8)
      return ⟨none, 0, -1⟩ :: logs
    else
      let size ← loadInt log (p + 4) int
      let logs ← loadIndex log nobj (p + 8)
      return ⟨some i, 0, size⟩ :: logs

/-- `load_wait_reader_log` on the bytes of `memop` and `memop-index`. -/
def loadWaitReaderLog (nobj addr addr' : Nat) (memop indexFile : Option (List UInt8)) :
    Except Stop (List Memop.WaitReaderLog) :=
  match memop with
  | none => return List.replicate nobj ⟨none, 0, -1⟩
  | some memop => do
    let _ ← openMappedLogPath addr memop
    match indexFile with
    | none => .error .exit
    | some indexFile => do
      let indexLog ← openMappedLogPath addr' indexFile
      loadIndex indexLog nobj indexLog.buf

/-! ## 2. Loads from a file that holds records

What a load gives, in terms of the records: a record, a field of one, or nothing behind the last. -/

section Load

variable {α : Type} {c : Codec α} {file : List UInt8} {as : List α} {a : α} {log : Log} {k i : Nat}

/-- A load is inside the file or an error. -/
theorem load_readAt (h : ReadAt file k log) (q n : Nat) : load log (log.start + q) n =
    if q + n ≤ file.length then .ok (get file q n) else .error .outOfBounds := by
  have hoff : 0 + (log.start + q - log.start) = q := by omega
  rw [load, h.map]
  dsimp only
  rw [hoff, h.file_eq]
  split
  · rename_i hin
    rw [if_pos hin.2.2]
    rfl
  · rename_i hout
    rw [if_neg]
    omega

/-- Record `i`. -/
theorem loadStruct_ok (h : c.Holds file as) (hat : ReadAt file k log) (hi : as[i]? = some a) :
    loadStruct c log (log.start + i * c.size) = .ok a := by
  have hlt := (List.getElem?_eq_some_iff.mp hi).1
  have hin : i * c.size + c.size ≤ file.length := by
    rw [h.length_eq, ← Nat.succ_mul]
    exact Nat.mul_le_mul_right _ hlt
  rw [loadStruct, load_readAt hat, if_pos hin, ok_bind, h.get hi]
  rfl

/-- An integer in record `i`. -/
theorem loadInt_ok (h : c.Holds file as) (hat : ReadAt file k log) (hi : i < as.length) {o : Nat}
    {t : IntType} (ho : o + t.size ≤ c.size) : loadInt log (log.start + (i * c.size + o)) t =
      .ok (t.ofBytes (get (get file (i * c.size) c.size) o t.size)) := by
  have hin : i * c.size + c.size ≤ file.length := by
    rw [h.length_eq, ← Nat.succ_mul]
    exact Nat.mul_le_mul_right _ hi
  rw [loadInt, load_readAt hat, if_pos (by omega), ok_bind, get_get ho]
  rfl

/-- Nothing behind the last record. -/
theorem loadInt_end (h : c.Holds file as) (hat : ReadAt file k log) (hi : as.length ≤ i)
    {t : IntType} (ht : 0 < t.size) : loadInt log (log.start + i * c.size) t = .error .outOfBounds := by
  have hout : file.length ≤ i * c.size := by
    rw [h.length_eq]
    exact Nat.mul_le_mul_right _ hi
  rw [loadInt, load_readAt hat, if_neg (by omega)]
  rfl

/-- An opened file, or a failing `mmap` of an empty one. -/
theorem openMappedLogPath_eq (addr : Nat) (file : List UInt8) : openMappedLogPath addr file =
    if file = [] then .error .exit
    else .ok ⟨addr, addr, addr + file.length, file, some ⟨addr, 0, file.length⟩⟩ := by
  split
  · rename_i hnil
    rw [hnil]
    rfl
  · rename_i hne
    have hm : mmap addr file.length 0 = some ⟨addr, 0, file.length⟩ :=
      mmap_ok (List.length_pos_iff.mpr hne) (by decide)
    rw [openMappedLogPath, hm]
    rfl

/-- A file that has just been opened is at its beginning. -/
theorem readAt_open (addr : Nat) (file : List UInt8) :
    ReadAt file 0 ⟨addr, addr, addr + file.length, file, some ⟨addr, 0, file.length⟩⟩ :=
  ⟨rfl, rfl, rfl, rfl⟩

/-- A file is empty if it has no records. -/
theorem holds_eq_nil (h : c.Holds file as) (hpos : 0 < c.size) : file = [] ↔ as = [] := by
  rw [← List.length_eq_zero_iff, h.length_eq, Nat.mul_eq_zero, List.length_eq_zero_iff]
  exact or_iff_left (by omega)

end Load

/-! ## 3. The readers on bytes and on lists

One theorem for each of the programs.  The loops are inductions on the fuel or on the number of
objects, with the position in records. -/

section Refine

variable {file : List UInt8} {log : Log} {k i : Nat}

/-- **`next_wait_version_log`** at entry `i`: the entry, or, at the end marker, `memop` -1 and no
move. -/
theorem nextWaitVersionLog_at {vs : List WaitVersion} (h : waitVersion.Holds file vs)
    (hat : ReadAt file (i * waitVersion.size) log) (hi : i < vs.length) (waitVer : WaitVersion) :
    nextWaitVersionLog log waitVer = .ok (if (vs[i]).memop = -1 then (log, { waitVer with memop := -1 })
      else ({ log with buf := log.start + (i + 1) * waitVersion.size }, vs[i])) := by
  have hget := List.getElem?_eq_getElem hi
  have hmemop := loadInt_ok h hat hi (o := 0) (t := long) (by decide)
  rw [← (read_waitVersion _).1, h.get hget, Nat.add_zero] at hmemop
  rw [nextWaitVersionLog, hat.buf_eq, hmemop, ok_bind]
  split
  · rfl
  · rw [loadStruct_ok h hat hget, ok_bind, Nat.succ_mul, ← Nat.add_assoc]
    rfl

/-- **`load_wait_memop_log`** on the bytes from record `i` on; the entries end before the fuel. -/
theorem loadWaitMemopLog_eq (nobj : Nat) {es : List WaitMemop} (h : waitMemop.Holds file es)
    (hat : ReadAt file k log) (fuel : Nat) (hi : i ≤ es.length) (hfuel : es.length < i + fuel)
    (all : Nat → List WaitMemop) (total : Int) :
    loadWaitMemopLog nobj log fuel (log.start + i * waitMemop.size) all total =
      Memop.loadWaitMemopLog nobj (es.drop i) all total := by
  induction fuel generalizing i all total with
  | zero => omega
  | succ fuel ih =>
    rw [loadWaitMemopLog]
    rcases Nat.lt_or_eq_of_le hi with hlt | rfl
    · have hget := List.getElem?_eq_getElem hlt
      have hobjid := loadInt_ok h hat hlt (o := 0) (t := int) (by decide)
      have hmemop := loadInt_ok h hat hlt (o := 16) (t := long) (by decide)
      rw [← (read_waitMemop _).1, h.get hget, Nat.add_zero] at hobjid
      rw [← (read_waitMemop _).2.2, h.get hget, ← Nat.add_assoc] at hmemop
      have hnext : log.start + i * waitMemop.size + waitMemop.size =
          log.start + (i + 1) * waitMemop.size := by
        rw [Nat.succ_mul, Nat.add_assoc]
      have hih := fun all total => ih (i := i + 1) hlt (by omega) all total
      rw [hobjid, ok_bind, List.drop_eq_getElem_cons hlt, Memop.loadWaitMemopLog, hnext]
      split
      · rfl
      rw [hmemop, ok_bind]
      split
      · exact hih all total
      split
      · rfl
      rw [loadStruct_ok h hat hget, ok_bind]
      exact hih _ _
    · rw [loadInt_end h hat (Nat.le_refl _) (by decide), List.drop_length]
      rfl

/-- **`reorder-memop`** on the bytes of a log. -/
theorem reorderMain_eq {es : List WaitMemop} (h : waitMemop.Holds file es) (nobj addr : Nat) :
    reorderMain nobj addr file = Memop.reorderMain nobj (some es) := by
  rw [reorderMain, openMappedLogPath_eq, Memop.reorderMain]
  by_cases hnil : file = []
  · rw [if_pos hnil, (holds_eq_nil h (by decide)).mp hnil]
    rfl
  · obtain ⟨e, rest, rfl⟩ := List.exists_cons_of_ne_nil (mt (holds_eq_nil h (by decide)).mpr hnil)
    have hlen := h.length_eq
    have hscan := loadWaitMemopLog_eq nobj h (readAt_open addr file) (i := 0)
      (file.length + 1) (Nat.zero_le _)
      (by
        have hsize : waitMemop.size = 24 := by decide
        rw [hsize] at hlen
        omega)
      (fun _ => []) 0
    simp only [Nat.zero_mul, Nat.add_zero] at hscan
    rw [if_neg hnil, ok_bind, hscan]
    rfl

/-- **The loop of `load_wait_reader_log`** on the bytes from integer `i` on. -/
theorem loadIndex_eq {ix : List Int} (h : index.Holds file ix) (hat : ReadAt file k log) (nobj : Nat) :
    loadIndex log nobj (log.start + i * index.size) = Memop.loadIndex nobj (ix.drop i) := by
  have hint : ∀ j (hj : j < ix.length), loadInt log (log.start + j * index.size) int = .ok ix[j] := by
    intro j hj
    have hload := loadInt_ok h hat hj (o := 0) (t := int) (by decide)
    rwa [← read_index, h.get (List.getElem?_eq_getElem hj), Nat.add_zero] at hload
  induction nobj generalizing i with
  | zero => rfl
  | succ nobj ih =>
    have hsize : log.start + i * index.size + 4 = log.start + (i + 1) * index.size := by
      rw [Nat.succ_mul, Nat.add_assoc]
      rfl
    have hnext : log.start + i * index.size + 8 = log.start + (i + 2) * index.size := by
      rw [Nat.add_mul, Nat.add_assoc]
      rfl
    rw [loadIndex, hsize, hnext, ih]
    rcases Nat.lt_or_ge i ix.length with hi | hi
    · rw [hint i hi, ok_bind, List.drop_eq_getElem_cons hi]
      conv_rhs => rw [Memop.loadIndex.eq_def]
      dsimp only
      split
      · rw [List.drop_drop]
      rcases Nat.lt_or_ge (i + 1) ix.length with hi' | hi'
      · rw [hint (i + 1) hi', ok_bind, List.drop_eq_getElem_cons hi']
      · rw [loadInt_end h hat hi' (by decide), List.drop_eq_nil_of_le hi']
        rfl
    · rw [loadInt_end h hat hi (by decide), List.drop_eq_nil_of_le hi]
      rfl

/-- **`load_wait_reader_log`** on the bytes of the two files. -/
theorem loadWaitReaderLog_eq {es : Option (List ReplayWaitMemop)} {ix : Option (List Int)}
    {memop indexFile : Option (List UInt8)} (hes : Option.Rel replayWaitMemop.Holds memop es)
    (hix : Option.Rel index.Holds indexFile ix) (nobj addr addr' : Nat) :
    loadWaitReaderLog nobj addr addr' memop indexFile = Memop.loadWaitReaderLog nobj es ix := by
  cases hes with
  | none => rfl
  | @some memop es hes =>
    rw [loadWaitReaderLog.eq_def, Memop.loadWaitReaderLog]
    dsimp only
    rw [openMappedLogPath_eq]
    by_cases hnil : memop = []
    · rw [if_pos hnil, (holds_eq_nil hes (by decide)).mp hnil]
      rfl
    obtain ⟨e, rest, rfl⟩ := List.exists_cons_of_ne_nil (mt (holds_eq_nil hes (by decide)).mpr hnil)
    rw [if_neg hnil, ok_bind]
    cases hix with
    | none => rfl
    | @some indexFile ix hix =>
      dsimp only
      rw [openMappedLogPath_eq]
      by_cases hnil' : indexFile = []
      · rw [if_pos hnil', (holds_eq_nil hix (by decide)).mp hnil']
        rfl
      obtain ⟨i, is, rfl⟩ := List.exists_cons_of_ne_nil (mt (holds_eq_nil hix (by decide)).mpr hnil')
      have hload := loadIndex_eq hix (readAt_open addr' indexFile) (i := 0) nobj
      simp only [Nat.zero_mul, Nat.add_zero] at hload
      rw [if_neg hnil', ok_bind, hload]
      rfl

end Refine

end MemOrder.Disk
