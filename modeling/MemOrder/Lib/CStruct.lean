/-
# C integers and structs as bytes

A file of structs is what a program leaves that stores the fields of one struct after the other
through a pointer.  An integer type is a size and a sign, its values are little-endian and wrap
around; a struct is the list of the types of its fields, each at the first offset behind the last
field that its size divides, and a struct is padded to a multiple of its largest field.

A store replaces some bytes of a region and leaves the others (`put`).  Fields are stored one at a
time, so a region that held something else has its old bytes in the padding; nothing is assumed about
them, and what is read back are the values of the fields that were stored (`getFields_putAll`).
`Codec` is a type of records with its struct, and `Holds` says that a file is the records of a list.
-/
import Mathlib.Data.List.Forall2
import Mathlib.Data.Int.Lemmas
import Mathlib.Algebra.Order.Ring.Int
import Mathlib.Tactic.Ring

namespace MemOrder.CStruct

/-! ## 1. Integers

A value is stored modulo the range of its type, and read back with the sign of the type; so a value
that fits is found again, and one that does not is another one of the same residue. -/

/-- The `n` little-endian bytes of a number; what does not fit is dropped. -/
def toLE : Nat → Nat → List UInt8
  | 0, _ => []
  | n + 1, x => UInt8.ofNat (x % 256) :: toLE n (x / 256)

/-- The number that bytes stand for. -/
def ofLE : List UInt8 → Nat
  | [] => 0
  | b :: bs => b.toNat + 256 * ofLE bs

@[simp] theorem length_toLE (n x : Nat) : (toLE n x).length = n := by
  induction n generalizing x with
  | zero => rfl
  | succ n ih => rw [toLE, List.length_cons, ih]

/-- What does not fit is dropped. -/
theorem ofLE_toLE (n x : Nat) : ofLE (toLE n x) = x % 256 ^ n := by
  induction n generalizing x with
  | zero => rw [toLE, ofLE, pow_zero, Nat.mod_one]
  | succ n ih =>
    have hb : (UInt8.ofNat (x % 256)).toNat = x % 256 := by
      rw [UInt8.toNat_ofNat']
      omega
    rw [toLE, ofLE, hb, ih, pow_succ', Nat.mod_mul]

/-- An integer type. -/
structure IntType where
  size : Nat
  signed : Bool
deriving DecidableEq, Repr

namespace IntType

variable (c : IntType)

/-- The values of the type. -/
def Fits (v : Int) : Prop :=
  if c.signed then -(256 ^ c.size) ≤ 2 * v ∧ 2 * v < 256 ^ c.size else 0 ≤ v ∧ v < 256 ^ c.size

instance (v : Int) : Decidable (c.Fits v) := by
  unfold Fits
  infer_instance

/-- The bytes of `v`, which wraps around. -/
def toBytes (v : Int) : List UInt8 := toLE c.size (v % (256 ^ c.size : Nat)).toNat

/-- The value of bytes, with the sign of the type. -/
def ofBytes (bs : List UInt8) : Int :=
  if c.signed then (ofLE bs : Int).bmod (256 ^ c.size) else ofLE bs

@[simp] theorem length_toBytes (v : Int) : (c.toBytes v).length = c.size := length_toLE _ _

variable {c}

/-- A range around zero that the type has room for. -/
theorem fits_signed (hs : c.signed = true) {n v : Int} (hn : 2 * n ≤ 256 ^ c.size) (h0 : -n ≤ v)
    (h : v < n) : c.Fits v := by
  rw [Fits, if_pos hs]
  constructor <;> omega

/-- **A value that fits is found again.** -/
theorem ofBytes_toBytes {v : Int} (h : c.Fits v) : c.ofBytes (c.toBytes v) = v := by
  have hpos : (0 : Int) < (256 ^ c.size : Nat) := by
    have : 0 < 256 ^ c.size := Nat.pow_pos (by decide)
    omega
  have hmod : ((ofLE (c.toBytes v) : Nat) : Int) = v % (256 ^ c.size : Nat) := by
    have h0 := Int.emod_nonneg v (by omega : ((256 ^ c.size : Nat) : Int) ≠ 0)
    rw [toBytes, ofLE_toLE, Int.natCast_mod, Int.toNat_of_nonneg h0, Int.emod_emod]
  have hcast : ((256 ^ c.size : Nat) : Int) = 256 ^ c.size := by push_cast; rfl
  unfold Fits at h
  rw [ofBytes, hmod]
  split at h
  · rename_i hs
    rw [if_pos hs, Int.emod_bmod]
    refine Int.bmod_eq_of_le_mul_two ?_ ?_ <;> omega
  · rename_i hs
    rw [if_neg hs]
    exact Int.emod_eq_of_lt h.1 (by omega)

end IntType

/-! ## 2. Regions

Loads and stores of bytes, with an offset.  All of the lemmas say where a byte is found, and follow
from `getElem?_put` and `getElem?_get`. -/

/-- The `n` bytes from offset `o` on. -/
def get (r : List UInt8) (o n : Nat) : List UInt8 := (r.drop o).take n

/-- Replace the bytes from offset `o` on. -/
def put (r : List UInt8) (o : Nat) (bs : List UInt8) : List UInt8 :=
  r.take o ++ bs ++ r.drop (o + bs.length)

section Region

variable {r bs : List UInt8} {o p n : Nat}

@[simp] theorem length_get (h : o + n ≤ r.length) : (get r o n).length = n := by
  rw [get, List.length_take, List.length_drop]
  omega

/-- A store inside of a region does not change its length. -/
theorem length_put (h : o + bs.length ≤ r.length) : (put r o bs).length = r.length := by
  simp only [put, List.length_append, List.length_take, List.length_drop]
  omega

/-- Each byte of a region after a store. -/
theorem getElem?_put (h : o + bs.length ≤ r.length) (i : Nat) : (put r o bs)[i]? =
    if i < o then r[i]? else if i < o + bs.length then bs[i - o]? else r[i]? := by
  have hlen : (r.take o ++ bs).length = o + bs.length := by
    rw [List.length_append, List.length_take]
    omega
  rw [put]
  split
  · rename_i hi
    rw [List.append_assoc, List.getElem?_append_left (by rw [List.length_take]; omega),
      List.getElem?_take_of_lt hi]
  · rename_i hi
    split
    · rename_i hi'
      rw [List.getElem?_append_left (by omega),
        List.getElem?_append_right (by rw [List.length_take]; omega), List.length_take]
      congr 1
      omega
    · rename_i hi'
      rw [List.getElem?_append_right (by omega), hlen, List.getElem?_drop]
      congr 1
      omega

/-- Each byte of a part of a region. -/
theorem getElem?_get (r : List UInt8) (o n i : Nat) :
    (get r o n)[i]? = if i < n then r[o + i]? else none := by
  rw [get, List.getElem?_take]
  split
  · rw [List.getElem?_drop]
  · rfl

/-- What has been stored is there. -/
theorem get_put_self (h : o + bs.length ≤ r.length) : get (put r o bs) o bs.length = bs := by
  refine List.ext_getElem? (fun i => ?_)
  rw [getElem?_get]
  split
  · rename_i hi
    rw [getElem?_put h, if_neg (by omega), if_pos (by omega), Nat.add_sub_cancel_left]
  · rename_i hi
    exact (List.getElem?_eq_none (by omega)).symm

/-- The rest is as it was. -/
theorem get_put_of_disjoint (h : o + bs.length ≤ r.length) (hd : p + n ≤ o ∨ o + bs.length ≤ p) :
    get (put r o bs) p n = get r p n := by
  refine List.ext_getElem? (fun i => ?_)
  rw [getElem?_get, getElem?_get]
  split
  · rename_i hi
    rw [getElem?_put h]
    rcases hd with hd | hd
    · rw [if_pos (by omega)]
    · rw [if_neg (by omega), if_neg (by omega)]
  · rfl

/-- A store behind `w`. -/
theorem put_append (w r : List UInt8) (o : Nat) (bs : List UInt8) :
    put (w ++ r) (w.length + o) bs = w ++ put r o bs := by
  rw [put, put, List.take_length_add_append, Nat.add_assoc, List.drop_length_add_append]
  simp only [List.append_assoc]

/-- A store before `s`. -/
theorem put_append_left (h : o + bs.length ≤ r.length) (s : List UInt8) :
    put (r ++ s) o bs = put r o bs ++ s := by
  rw [put, put, List.take_append_of_le_length (by omega), List.drop_append_of_le_length h]
  simp only [List.append_assoc]

/-- Bytes of a part of a region. -/
theorem get_get {q m : Nat} (h : q + m ≤ n) : get (get r o n) q m = get r (o + q) m := by
  rw [get, get, get, List.drop_take, List.take_take, List.drop_drop]
  congr 1
  omega

/-- What is behind a region does not matter. -/
theorem get_append_left (h : o + n ≤ r.length) (s : List UInt8) : get (r ++ s) o n = get r o n := by
  rw [get, get, List.drop_append_of_le_length (by omega),
    List.take_append_of_le_length (by rw [List.length_drop]; omega)]

/-- Bytes of the second of two regions. -/
theorem get_append_right (r s : List UInt8) (o n : Nat) :
    get (r ++ s) (r.length + o) n = get s o n := by
  rw [get, get, List.drop_length_add_append]

theorem get_length (r : List UInt8) : get r 0 r.length = r := by
  rw [get, List.drop_zero, List.take_length]

/-- Stores, each with its offset. -/
def putAll (r : List UInt8) (sts : List (Nat × List UInt8)) : List UInt8 :=
  sts.foldl (fun r st => put r st.1 st.2) r

@[simp] theorem putAll_nil (r : List UInt8) : putAll r [] = r := rfl

@[simp] theorem putAll_cons (r : List UInt8) (st : Nat × List UInt8) (sts : List (Nat × List UInt8)) :
    putAll r (st :: sts) = putAll (put r st.1 st.2) sts := rfl

/-- Stores inside of a region do not change its length. -/
theorem length_putAll {sts : List (Nat × List UInt8)} (h : ∀ st ∈ sts, st.1 + st.2.length ≤ r.length) :
    (putAll r sts).length = r.length := by
  induction sts generalizing r with
  | nil => rfl
  | cons st sts ih =>
    have hlen := length_put (h st List.mem_cons_self)
    rw [putAll_cons, ih (fun st' hst' => by rw [hlen]; exact h st' (List.mem_cons_of_mem _ hst')), hlen]

/-- Stores behind a place leave it alone. -/
theorem get_putAll {sts : List (Nat × List UInt8)} (h : ∀ st ∈ sts, st.1 + st.2.length ≤ r.length)
    (hb : ∀ st ∈ sts, p + n ≤ st.1) : get (putAll r sts) p n = get r p n := by
  induction sts generalizing r with
  | nil => rfl
  | cons st sts ih =>
    have hst := h st List.mem_cons_self
    have hlen := length_put hst
    rw [putAll_cons,
      ih (fun st' hst' => by rw [hlen]; exact h st' (List.mem_cons_of_mem _ hst'))
        (fun st' hst' => hb st' (List.mem_cons_of_mem _ hst')),
      get_put_of_disjoint hst (Or.inl (hb st List.mem_cons_self))]

end Region

/-! ## 3. Structs

A struct is described by the types of its fields, and the offsets are computed.  `o` is where the
rest of the struct begins, so that the recursion is on the fields that are left. -/

/-- The first multiple of `a` from `n` on. -/
def alignUp (n a : Nat) : Nat := n + (a - n % a) % a

theorem le_alignUp (n a : Nat) : n ≤ alignUp n a := Nat.le_add_right _ _

/-- The end of the last field. -/
def fieldsEnd : Nat → List IntType → Nat
  | o, [] => o
  | o, c :: cs => fieldsEnd (alignUp o c.size + c.size) cs

/-- The alignment of a struct. -/
def align (cs : List IntType) : Nat := cs.foldl (fun a c => max a c.size) 1

/-- The size of a struct, with the padding at its end. -/
def sizeof (cs : List IntType) : Nat := alignUp (fieldsEnd 0 cs) (align cs)

/-- The fields are stored one after the other, as many as there are values for. -/
def fieldStores : Nat → List IntType → List Int → List (Nat × List UInt8)
  | o, c :: cs, v :: vs =>
    (alignUp o c.size, c.toBytes v) :: fieldStores (alignUp o c.size + c.size) cs vs
  | _, _, _ => []

/-- The values of the fields. -/
def getFields : Nat → List IntType → List UInt8 → List Int
  | _, [], _ => []
  | o, c :: cs, r =>
    c.ofBytes (get r (alignUp o c.size) c.size) :: getFields (alignUp o c.size + c.size) cs r

section Struct

variable {cs : List IntType} {vs : List Int} {o : Nat} {r : List UInt8}

/-- Fields end behind where they begin. -/
theorem le_fieldsEnd (o : Nat) (cs : List IntType) : o ≤ fieldsEnd o cs := by
  induction cs generalizing o with
  | nil => exact Nat.le_refl o
  | cons c cs ih =>
    have h1 := le_alignUp o c.size
    have h2 := ih (alignUp o c.size + c.size)
    rw [fieldsEnd]
    omega

@[simp] theorem length_getFields (o : Nat) (cs : List IntType) (r : List UInt8) :
    (getFields o cs r).length = cs.length := by
  induction cs generalizing o with
  | nil => rfl
  | cons c cs ih => rw [getFields, List.length_cons, List.length_cons, ih]

/-- Every field is stored behind `o` and before the end of the struct. -/
theorem fieldStores_bounds (o : Nat) (cs : List IntType) (vs : List Int) :
    ∀ st ∈ fieldStores o cs vs, o ≤ st.1 ∧ st.1 + st.2.length ≤ fieldsEnd o cs := by
  induction cs generalizing o vs with
  | nil =>
    intro st hst
    cases hst
  | cons c cs ih =>
    cases vs with
    | nil =>
      intro st hst
      cases hst
    | cons v vs =>
      have h1 := le_alignUp o c.size
      have h2 := le_fieldsEnd (alignUp o c.size + c.size) cs
      intro st hst
      rw [fieldStores, List.mem_cons] at hst
      rw [fieldsEnd]
      rcases hst with rfl | hst
      · rw [IntType.length_toBytes]
        exact ⟨h1, h2⟩
      · have := ih _ _ st hst
        omega

/-- **What is read is what was stored**, whatever the region held before.  By induction on the
fields: the first one is stored where it is read, and the stores of the others are behind it. -/
theorem getFields_putAll (hfits : ∀ p ∈ cs.zip vs, p.1.Fits p.2) (hlen : vs.length ≤ cs.length)
    (hr : fieldsEnd o cs ≤ r.length) :
    (getFields o cs (putAll r (fieldStores o cs vs))).take vs.length = vs := by
  induction cs generalizing o vs r with
  | nil =>
    rw [List.length_nil, Nat.le_zero, List.length_eq_zero_iff] at hlen
    rw [hlen]
    rfl
  | cons c cs ih =>
    cases vs with
    | nil => rfl
    | cons v vs =>
      rw [fieldsEnd] at hr
      have hend := le_fieldsEnd (alignUp o c.size + c.size) cs
      have hput : alignUp o c.size + (c.toBytes v).length ≤ r.length := by
        rw [IntType.length_toBytes]
        omega
      have hlen' := length_put hput
      have hbounds := fieldStores_bounds (alignUp o c.size + c.size) cs vs
      rw [fieldStores, putAll_cons, getFields, List.length_cons, List.take_succ_cons]
      congr 1
      · -- the later fields leave the first one alone
        rw [get_putAll (fun st hst => ?_) (fun st hst => (hbounds st hst).1)]
        · have hself := get_put_self hput
          rw [IntType.length_toBytes] at hself
          rw [hself]
          exact IntType.ofBytes_toBytes (hfits (c, v) (by simp))
        · have := (hbounds st hst).2
          rw [hlen']
          omega
      · refine ih (fun p hp => hfits p (by simp [hp])) (by simpa using hlen) ?_
        rw [hlen']
        exact hr

end Struct

/-! ## 4. Records

The link between a type of the model and its struct. -/

/-- Records of a type as structs.  The last fields of the struct may be without a value in the
record. -/
structure Codec (α : Type) where
  fields : List IntType
  toVals : α → List Int
  ofVals : List Int → α
  length_le : ∀ a, (toVals a).length ≤ fields.length
  ofVals_append : ∀ a rest, ofVals (toVals a ++ rest) = a

namespace Codec

variable {α : Type} (c : Codec α)

def size : Nat := sizeof c.fields

/-- Every value is one of its field's type. -/
def Fits (a : α) : Prop := ∀ p ∈ c.fields.zip (c.toVals a), p.1.Fits p.2

/-- The stores of a record, with their offsets in the struct. -/
def stores (a : α) : List (Nat × List UInt8) := fieldStores 0 c.fields (c.toVals a)

/-- The record in a region. -/
def read (r : List UInt8) : α := c.ofVals (getFields 0 c.fields r)

variable {c} {a : α} {r : List UInt8}

/-- The stores of a record are inside of its struct. -/
theorem stores_bounds : ∀ st ∈ c.stores a, st.1 + st.2.length ≤ c.size := by
  intro st hst
  exact Nat.le_trans (fieldStores_bounds 0 c.fields (c.toVals a) st hst).2 (le_alignUp _ _)

/-- So they do not change the length of its region. -/
theorem length_stores (h : r.length = c.size) : (putAll r (c.stores a)).length = c.size := by
  rw [length_putAll (fun st hst => by rw [h]; exact stores_bounds st hst), h]

/-- A record that has been stored is read. -/
theorem read_stores (hfits : c.Fits a) (h : r.length = c.size) :
    c.read (putAll r (c.stores a)) = a := by
  have hr : fieldsEnd 0 c.fields ≤ r.length := by
    rw [h]
    exact le_alignUp _ _
  have htake := getFields_putAll hfits (c.length_le a) hr
  have hsplit := List.take_append_drop (c.toVals a).length
    (getFields 0 c.fields (putAll r (c.stores a)))
  rw [← stores] at htake
  rw [htake] at hsplit
  rw [read, ← hsplit, c.ofVals_append]

/-! ## 5. Files

A file that holds records is cut into regions of the same length; `Holds` does not say what is in
the padding, so it is a relation and not a function of the records. -/

/-- The whole records of a file. -/
def records (c : Codec α) (file : List UInt8) : List α :=
  (List.range (file.length / c.size)).map (fun i => c.read (get file (i * c.size) c.size))

/-- The file is the records, one after the other, with anything in the padding. -/
def Holds (c : Codec α) (file : List UInt8) (as : List α) : Prop :=
  ∃ rs : List (List UInt8), file = rs.flatten ∧ (∀ r ∈ rs, r.length = c.size) ∧ rs.map c.read = as

/-- The empty file. -/
theorem holds_nil : c.Holds [] [] := ⟨[], rfl, by simp, rfl⟩

/-- One more struct at the end. -/
theorem Holds.snoc {file : List UInt8} {as : List α} (h : c.Holds file as) (hr : r.length = c.size) :
    c.Holds (file ++ r) (as ++ [c.read r]) := by
  obtain ⟨rs, rfl, hlen, rfl⟩ := h
  refine ⟨rs ++ [r], by simp, ?_, by simp⟩
  intro r' hr'
  rcases List.mem_append.mp hr' with hr' | hr'
  · exact hlen r' hr'
  · rw [List.mem_singleton.mp hr']
    exact hr

/-- The records stored one after the other into zeros. -/
def file (c : Codec α) (as : List α) : List UInt8 :=
  as.flatMap (fun a => putAll (List.replicate c.size 0) (c.stores a))

/-- A file of records over zeros holds them. -/
theorem holds_file {as : List α} (h : ∀ a ∈ as, c.Fits a) : c.Holds (c.file as) as := by
  refine ⟨as.map (fun a => putAll (List.replicate c.size 0) (c.stores a)), rfl, ?_, ?_⟩
  · intro r hr
    obtain ⟨a, -, rfl⟩ := List.mem_map.mp hr
    exact length_stores (List.length_replicate ..)
  · rw [List.map_map]
    refine (List.map_congr_left ?_).trans (List.map_id as)
    intro a ha
    exact read_stores (h a ha) (List.length_replicate ..)

/-- Regions of the same length, one after the other. -/
theorem length_flatten_of {rs : List (List UInt8)} {n : Nat} (h : ∀ r ∈ rs, r.length = n) :
    rs.flatten.length = rs.length * n := by
  induction rs with
  | nil => rw [List.flatten_nil, List.length_nil, List.length_nil, Nat.zero_mul]
  | cons r rs ih =>
    rw [List.flatten_cons, List.length_append, List.length_cons, h r List.mem_cons_self,
      ih (fun r' hr' => h r' (List.mem_cons_of_mem _ hr')), Nat.succ_mul, Nat.add_comm]

/-- One of these regions. -/
theorem get_flatten {rs : List (List UInt8)} {n i : Nat} (h : ∀ r ∈ rs, r.length = n)
    (hi : rs[i]? = some r) : get rs.flatten (i * n) n = r := by
  induction rs generalizing i with
  | nil => cases hi
  | cons s rs ih =>
    have hs := h s List.mem_cons_self
    rw [List.flatten_cons]
    cases i with
    | zero =>
      rw [List.getElem?_cons_zero, Option.some.injEq] at hi
      subst hi
      rw [Nat.zero_mul, get_append_left (by omega), ← hs, get_length]
    | succ i =>
      rw [List.getElem?_cons_succ] at hi
      rw [Nat.succ_mul, Nat.add_comm, ← hs, get_append_right, hs]
      exact ih (fun r' hr' => h r' (List.mem_cons_of_mem _ hr')) hi

/-- The length of a file that holds records. -/
theorem Holds.length_eq {file : List UInt8} {as : List α} (h : c.Holds file as) :
    file.length = as.length * c.size := by
  obtain ⟨rs, rfl, hlen, rfl⟩ := h
  rw [length_flatten_of hlen, List.length_map]

/-- The bytes of one record. -/
theorem Holds.get {file : List UInt8} {as : List α} (h : c.Holds file as) {i : Nat} {a : α}
    (hi : as[i]? = some a) : c.read (get file (i * c.size) c.size) = a := by
  obtain ⟨rs, rfl, hlen, rfl⟩ := h
  rw [List.getElem?_map, Option.map_eq_some_iff] at hi
  obtain ⟨r, hr, rfl⟩ := hi
  rw [get_flatten hlen hr]

/-- **The records of a file are found again.** -/
theorem Holds.records_eq {file : List UInt8} {as : List α} (h : c.Holds file as) (hpos : 0 < c.size) :
    c.records file = as := by
  have hn : file.length / c.size = as.length := by
    rw [h.length_eq, Nat.mul_div_cancel _ hpos]
  refine List.ext_getElem? (fun i => ?_)
  rw [records, hn, List.getElem?_map]
  rcases Nat.lt_or_ge i as.length with hi | hi
  · rw [List.getElem?_range hi, Option.map_some, List.getElem?_eq_getElem hi,
      h.get (List.getElem?_eq_getElem hi)]
  · rw [List.getElem?_eq_none (by simpa using hi), List.getElem?_eq_none hi, Option.map_none]

end Codec

end MemOrder.CStruct
