/-
# `dump-version.rb` and `dump-memop.rb`

The scripts print a log for inspection, a line for each entry up to the end marker.  They read pieces
of the size of an entry and take them apart with `unpack`, which knows no alignment: `"llqq"` has a
field for the four bytes of padding in `struct wait_memop`.  A value that is missing in a short piece
is `nil`, and `printf` fails on it.
-/
import MemOrder.Disk.Write

namespace MemOrder.Disk

open CStruct

/-! ## 1. The scripts

What Ruby's `read`, `unpack` and `printf` do with the bytes, as far as the scripts use them. -/

/-- `ARGF.read(entsize)`, one call after the other; the last piece may be short. -/
def pieces (entsize : Nat) (file : List UInt8) : List (List UInt8) :=
  (List.range ((file.length + entsize - 1) / entsize)).map (fun i => get file (i * entsize) entsize)

/-- `String#unpack`; the directives are `l` for an `int` and `q` for a `long`. -/
def unpack : List IntType → List UInt8 → List (Option Int)
  | [], _ => []
  | c :: cs, s =>
    (if c.size ≤ s.length then some (c.ofBytes (s.take c.size)) else none) :: unpack cs (s.drop c.size)

/-- The loop; `line` is the `printf`. -/
def dump (packstr : List IntType) (line : Nat → List Int → String) :
    Nat → List (List UInt8) → Except Stop (List String)
  | _, [] => .ok []
  | idx, s :: rest =>
    if (unpack packstr s).head? = some (some (-1)) then .ok []
    else
      match (unpack packstr s).mapM id with
      | none => .error .exit
      | some unpacked => do
        let lines ← dump packstr line (idx + 1) rest
        return line idx unpacked :: lines

/-- `%` with a width and `d`. -/
def padded (width : Nat) (i : Int) : String :=
  "".pushn ' ' (width - (toString i).length) ++ toString i

/-- `"%3d: %4d @%4d"`, of `memop` and `version`. -/
def versionLine (idx : Nat) : List Int → String
  | memop :: version :: _ =>
    padded 3 idx ++ ": " ++ padded 4 memop ++ " @" ++ padded 4 version
  | _ => ""

/-- `"%3d: B%4d @%4d R%4d"`, of `objid`, `version` and `memop`; the second value is the padding. -/
def memopLine (idx : Nat) : List Int → String
  | objid :: _ :: version :: memop :: _ =>
    padded 3 idx ++ ": B" ++ padded 4 objid ++ " @" ++ padded 4 version ++ " R" ++ padded 4 memop
  | _ => ""

/-- `dump-version.rb`. -/
def dumpVersion (file : List UInt8) : Except Stop (List String) :=
  dump [long, long] versionLine 0 (pieces 16 file)

/-- `dump-memop.rb`. -/
def dumpMemop (file : List UInt8) : Except Stop (List String) :=
  dump [int, int, long, long] memopLine 0 (pieces 24 file)

/-! ## 2. What they print

For a file that holds entries and an end marker.  The end marker is the first record with -1 in its
first field, so nothing behind it would be printed. -/

section Print

variable {α : Type} {c : Codec α} {file : List UInt8} {as : List α}

/-- The pieces of a file of records are its structs. -/
theorem pieces_holds (h : c.Holds file as) (hpos : 0 < c.size) :
    (∀ r ∈ pieces c.size file, r.length = c.size) ∧ (pieces c.size file).map c.read = as := by
  have hn : (file.length + c.size - 1) / c.size = as.length := by
    rw [h.length_eq, Nat.add_sub_assoc hpos, Nat.add_comm, Nat.add_mul_div_right _ _ hpos,
      Nat.div_eq_of_lt (by omega), Nat.zero_add]
  constructor
  · intro r hr
    obtain ⟨i, hi, rfl⟩ := List.mem_map.mp hr
    rw [hn, List.mem_range] at hi
    refine length_get ?_
    rw [h.length_eq, ← Nat.succ_mul]
    exact Nat.mul_le_mul_right _ hi
  · rw [← h.records_eq hpos, Codec.records, pieces, hn, h.length_eq, Nat.mul_div_cancel _ hpos,
      List.map_map]
    rfl

/-- **A line for each entry up to the end marker.**  `first` is the value that is compared with -1. -/
theorem dump_eq (packstr : List IntType) (line : Nat → List Int → String) {first : α → Int}
    {g : Nat → α → String}
    (hunpack : ∀ r : List UInt8, r.length = c.size → ∃ vs : List Int,
      unpack packstr r = vs.map some ∧ vs.head? = some (first (c.read r)) ∧
        ∀ idx, line idx vs = g idx (c.read r))
    {es : List α} {mark : α} (hes : ∀ e ∈ es, first e ≠ -1) (hmark : first mark = -1)
    {rs : List (List UInt8)} (hlen : ∀ r ∈ rs, r.length = c.size) (hrs : rs.map c.read = es ++ [mark])
    (idx : Nat) : dump packstr line idx rs = .ok (es.mapIdx (fun i e => g (idx + i) e)) := by
  induction es generalizing rs idx with
  | nil =>
    obtain ⟨r, rfl, rfl⟩ := List.map_eq_singleton_iff.mp hrs
    obtain ⟨vs, hvs, hhead, -⟩ := hunpack r (hlen r List.mem_cons_self)
    rw [dump, hvs, List.head?_map, hhead, hmark, Option.map_some, if_pos rfl]
    rfl
  | cons e es ih =>
    obtain ⟨r, rs, rfl, rfl, hrest⟩ := List.map_eq_cons_iff.mp hrs
    obtain ⟨vs, hvs, hhead, hline⟩ := hunpack r (hlen r List.mem_cons_self)
    have hne : first (c.read r) ≠ -1 := hes _ List.mem_cons_self
    have hih := ih (fun e' he' => hes e' (List.mem_cons_of_mem _ he'))
      (fun r' hr' => hlen r' (List.mem_cons_of_mem _ hr')) hrest (idx + 1)
    have hmapM : (vs.map some).mapM id = some vs := by
      rw [List.mapM_map, Function.id_comp]
      exact List.mapM_pure.trans (congrArg some (List.map_id vs))
    rw [dump, hvs, List.head?_map, hhead, if_neg (by simpa using hne), hmapM]
    dsimp only
    rw [hih, ok_bind, List.mapIdx_cons, hline]
    simp only [Nat.add_zero, Nat.add_right_comm idx 1, Nat.add_assoc]
    rfl

/-- The version log: a line with the number of the access and the version. -/
theorem dumpVersion_eq {es : List WaitVersion} {mark : WaitVersion} (hes : ∀ e ∈ es, e.memop ≠ -1)
    (hmark : mark.memop = -1) (h : waitVersion.Holds file (es ++ [mark])) :
    dumpVersion file = .ok (es.mapIdx (fun i e => versionLine i [e.memop, e.version])) := by
  obtain ⟨hlen, hread⟩ := pieces_holds h (by decide)
  have hdump := dump_eq [long, long] versionLine
    (g := fun i e => versionLine i [e.memop, e.version]) ?_ hes hmark hlen hread 0
  · simp only [Nat.zero_add] at hdump
    exact hdump
  · intro r hr
    have hsize : r.length = 16 := hr
    refine ⟨[(waitVersion.read r).memop, (waitVersion.read r).version], ?_, rfl, fun idx => rfl⟩
    rw [(read_waitVersion r).1, (read_waitVersion r).2]
    simp [unpack, hsize, CStruct.get, long]

/-- The memop log: a line with object, version and access.  The padding is unpacked as a number and
not printed. -/
theorem dumpMemop_eq {es : List WaitMemop} {mark : WaitMemop} (hes : ∀ e ∈ es, e.objid ≠ -1)
    (hmark : mark.objid = -1) (h : waitMemop.Holds file (es ++ [mark])) :
    dumpMemop file = .ok (es.mapIdx (fun i e => memopLine i [e.objid, 0, e.version, e.memop])) := by
  obtain ⟨hlen, hread⟩ := pieces_holds h (by decide)
  have hdump := dump_eq [int, int, long, long] memopLine
    (g := fun i e => memopLine i [e.objid, 0, e.version, e.memop]) ?_ hes hmark hlen hread 0
  · simp only [Nat.zero_add] at hdump
    exact hdump
  · intro r hr
    have hsize : r.length = 24 := hr
    refine ⟨[(waitMemop.read r).objid, int.ofBytes (CStruct.get r 4 4), (waitMemop.read r).version,
      (waitMemop.read r).memop], ?_, rfl, fun idx => by simp only [memopLine]⟩
    rw [(read_waitMemop r).1, (read_waitMemop r).2.1, (read_waitMemop r).2.2]
    simp [unpack, hsize, CStruct.get, int, long]

end Print

end MemOrder.Disk
