/-
# What holds between two instructions of a seqlock run

The order of the accesses is built as the run goes: a write enters it at its fence, a read when
its version check succeeds.  `Inv s tr` ties the state to the order `tr` so far:

* an object is OWNED from the exchange that takes its lock until the store that frees it has
  drained, by one thread (`Owner`); nobody else has buffered stores for it;
* memory and the order agree on every object, up to what its owner still has to do: its version
  is the order's (`At 0`), one ahead (`At 1`, the first increment is out), or one behind
  (`At (-1)`, the write is in the order and the second increment is not out);
* a reader that has loaded an even version holds a value that is the order's value for as long
  as the version it SEES is still that one.

An odd version is the only time memory and the order disagree, so what a thread sees at an even
version is the order's version and value (`Inv.view_even`).
-/
import MemOrder.Seqlock.Model

namespace MemOrder.Seqlock

open Tso

variable {Addr : Type} [DecidableEq Addr]

/-! ## 1. Owners -/

/-- Past the exchange that took the lock. -/
def WPc.locked : WPc → Bool
  | .lock => false
  | .lockSpin => false
  | _ => true

/-- The object whose lock the thread has taken and not yet released. -/
def Pc.holds (L : Layout Addr) : Pc Addr → Option Nat
  | .write a _ w => if w.locked then some (L.calcObjid a) else none
  | _ => none

/-- `o` is owned by a thread at `pc` with buffer `buf`: its lock is held, or the store that
frees it has not drained. -/
def Owns (L : Layout Addr) (pc : Pc Addr) (buf : List (Store Addr)) (o : Nat) : Prop :=
  pc.holds L = some o ∨ Store.writeLock o false ∈ buf

def Owner (L : Layout Addr) (s : State Addr) (t o : Nat) : Prop := Owns L (s.pc t) (s.buf t) o

/-! ## 2. Memory against the order -/

/-- Object `o` in memory is at the order's version plus `d`, with the order's values. -/
def At (L : Layout Addr) (m : Mem Addr) (sh : Shared Addr) (o : Nat) (d : Int) : Prop :=
  m.version o = sh.ver o + d ∧ ∀ a, L.calcObjid a = o → m.val a = sh.mem a

/-- The value is stored and the write is not in the order yet. -/
def Written (L : Layout Addr) (m : Mem Addr) (sh : Shared Addr) (a : Addr) (x : Val) : Prop :=
  m.version (L.calcObjid a) = sh.ver (L.calcObjid a) + 1 ∧ m.val a = x ∧
    ∀ b, b ≠ a → L.calcObjid b = L.calcObjid a → m.val b = sh.mem b

/-- Outside a critical section a thread's buffer is empty, or ends with the release of its last
write. -/
def Tail (L : Layout Addr) (m : Mem Addr) (sh : Shared Addr) (buf : List (Store Addr)) : Prop :=
  buf = [] ∨ ∃ o,
    (buf = [.version o (sh.ver o), .writeLock o false] ∧ At L m sh o (-1)) ∨
    (buf = [.writeLock o false] ∧ At L m sh o 0)

/-- A thread in `mem_read`. -/
def RInv (L : Layout Addr) (m : Mem Addr) (sh : Shared Addr) (buf : List (Store Addr))
    (a : Addr) : RPc → Prop
  | .loadVersion => True
  | .loadVal v => v % 2 = 0 ∧ v ≤ (Tso.view Mem.store m buf).version (L.calcObjid a)
  | .check v x => v % 2 = 0 ∧ v ≤ (Tso.view Mem.store m buf).version (L.calcObjid a) ∧
      ((Tso.view Mem.store m buf).version (L.calcObjid a) = v → x = sh.mem a)

/-- A thread in `mem_write`. -/
def WInv (L : Layout Addr) (m : Mem Addr) (sh : Shared Addr) (buf : List (Store Addr))
    (a : Addr) (x : Val) : WPc → Prop
  | .lock => Tail L m sh buf
  | .lockSpin => Tail L m sh buf
  | .loadVersion => buf = [] ∧ At L m sh (L.calcObjid a) 0
  | .inc1Load v => buf = [] ∧ At L m sh (L.calcObjid a) 0 ∧ v = sh.ver (L.calcObjid a)
  | .inc1Store v n =>
    buf = [] ∧ At L m sh (L.calcObjid a) 0 ∧ v = sh.ver (L.calcObjid a) ∧ n = v
  | .storeVal v => v = sh.ver (L.calcObjid a) ∧
      ((buf = [.version (L.calcObjid a) (v + 1)] ∧ At L m sh (L.calcObjid a) 0) ∨
        (buf = [] ∧ At L m sh (L.calcObjid a) 1))
  | .fence v => v = sh.ver (L.calcObjid a) ∧
      ((buf = [.version (L.calcObjid a) (v + 1), .val a x] ∧ At L m sh (L.calcObjid a) 0) ∨
        (buf = [.val a x] ∧ At L m sh (L.calcObjid a) 1) ∨
        (buf = [] ∧ Written L m sh a x))
  | .inc2Load v => buf = [] ∧ At L m sh (L.calcObjid a) (-1) ∧ v + 2 = sh.ver (L.calcObjid a)
  | .inc2Store v n =>
    buf = [] ∧ At L m sh (L.calcObjid a) (-1) ∧ v + 2 = sh.ver (L.calcObjid a) ∧ n = v + 1
  | .unlock v => v + 2 = sh.ver (L.calcObjid a) ∧
      ((buf = [.version (L.calcObjid a) (v + 2)] ∧ At L m sh (L.calcObjid a) (-1)) ∨
        (buf = [] ∧ At L m sh (L.calcObjid a) 0))

/-- One thread, its buffer and the object it owns. -/
def ThrInv (L : Layout Addr) (m : Mem Addr) (sh : Shared Addr) (buf : List (Store Addr)) :
    Pc Addr → Prop
  | .idle => Tail L m sh buf
  | .read a r => Tail L m sh buf ∧ RInv L m sh buf a r
  | .write a x w => WInv L m sh buf a x w

/-- **The invariant.** -/
structure Inv (L : Layout Addr) (m₀ : Addr → Val) (s : State Addr) (tr : List (Event Addr)) :
    Prop where
  legal : Legal L m₀ tr
  effected : ∀ t, thread t tr = s.effected t
  lock : ∀ o, s.mem.writeLock o = true ↔ ∃ t, Owner L s t o
  excl : ∀ t u o, Owner L s t o → Owner L s u o → t = u
  free : ∀ o, (∀ t, ¬ Owner L s t o) → At L s.mem (Shared.after L m₀ tr) o 0
  thr : ∀ t, ThrInv L s.mem (Shared.after L m₀ tr) (s.buf t) (s.pc t)

/-! ## 3. What a thread sees -/

section View

variable {L : Layout Addr} {m : Mem Addr} {sh : Shared Addr} {buf : List (Store Addr)}

/-- Outside a critical section a thread sees memory, except for the version it has still to
release. -/
theorem Tail.view_version (h : Tail L m sh buf) (o : Nat) :
    (Tso.view Mem.store m buf).version o = m.version o ∨
      (Store.writeLock o false ∈ buf ∧ At L m sh o (-1) ∧
        (Tso.view Mem.store m buf).version o = sh.ver o) := by
  rcases h with rfl | ⟨o', ⟨rfl, hat⟩ | ⟨rfl, -⟩⟩
  · exact Or.inl rfl
  · by_cases ho : o = o'
    · subst ho
      exact Or.inr ⟨by simp, hat, by simp [Mem.store]⟩
    · exact Or.inl (by simp [Mem.store, Function.update_of_ne ho])
  · exact Or.inl (by simp [Mem.store])

theorem Tail.view_val (h : Tail L m sh buf) (a : Addr) :
    (Tso.view Mem.store m buf).val a = m.val a := by
  rcases h with rfl | ⟨o', ⟨rfl, -⟩ | ⟨rfl, -⟩⟩ <;> simp [Mem.store]

/-- The owner of an object leaves its version even only where memory and the order agree. -/
theorem ThrInv.at_zero {pc : Pc Addr} {o : Nat} (h : ThrInv L m sh buf pc) (ho : Owns L pc buf o)
    (hsh : sh.ver o % 2 = 0) (hev : m.version o % 2 = 0) : At L m sh o 0 := by
  -- an object one off is odd
  have hodd : ∀ d, d = 1 ∨ d = -1 → m.version o = sh.ver o + d → False := by
    intro d hd heq
    omega
  have htail : Tail L m sh buf → Store.writeLock o false ∈ buf → At L m sh o 0 := by
    rintro (rfl | ⟨o', ⟨rfl, hat⟩ | ⟨rfl, hat⟩⟩) hmem
    · exact absurd hmem (by simp)
    · obtain rfl : o = o' := by simpa using hmem
      exact (hodd _ (Or.inr rfl) hat.1).elim
    · obtain rfl : o = o' := by simpa using hmem
      exact hat
  cases pc with
  | idle => exact htail h (ho.resolve_left (by simp [Pc.holds]))
  | read a r => exact htail h.1 (ho.resolve_left (by simp [Pc.holds]))
  | write a x w =>
    cases w with
    | lock => exact htail h (ho.resolve_left (by simp [Pc.holds, WPc.locked]))
    | lockSpin => exact htail h (ho.resolve_left (by simp [Pc.holds, WPc.locked]))
    | _ =>
      -- in the critical section the buffer holds no release, so the object is `a`'s
      all_goals
        simp only [ThrInv, WInv] at h
        have hoa : L.calcObjid a = o := by
          rcases ho with ho | ho
          · simpa [Pc.holds, WPc.locked] using ho
          · exfalso
            first
              | (rw [h.1] at ho; simp at ho)
              | (rcases h.2 with ⟨hb, -⟩ | ⟨hb, -⟩ <;> rw [hb] at ho <;> simp at ho)
              | (rcases h.2 with ⟨hb, -⟩ | ⟨hb, -⟩ | ⟨hb, -⟩ <;> rw [hb] at ho <;> simp at ho)
        subst hoa
        first
          | exact h.2.1
          | exact (hodd _ (Or.inr rfl) h.2.1.1).elim
          | exact h.2
          | (rcases h.2 with ⟨-, hat⟩ | ⟨-, hat⟩ <;>
              first | exact hat | exact (hodd _ (Or.inl rfl) hat.1).elim
                    | exact (hodd _ (Or.inr rfl) hat.1).elim)
          | (rcases h.2 with ⟨-, hat⟩ | ⟨-, hat⟩ | ⟨-, hat⟩ <;>
              first | exact hat | exact (hodd _ (Or.inl rfl) hat.1).elim)

end View

section Inv

variable {L : Layout Addr} {m₀ : Addr → Val} {s : State Addr} {tr : List (Event Addr)}

/-- Versions in the order are even. -/
theorem after_ver_even (L : Layout Addr) (m₀ : Addr → Val) (tr : List (Event Addr)) (o : Nat) :
    (Shared.after L m₀ tr).ver o % 2 = 0 := by
  rw [after_ver]
  omega

/-- **At an even version memory is the order's state.** -/
theorem Inv.mem_even (h : Inv L m₀ s tr) {o : Nat} (hev : s.mem.version o % 2 = 0) :
    At L s.mem (Shared.after L m₀ tr) o 0 := by
  by_cases ho : ∃ t, Owner L s t o
  · obtain ⟨t, ht⟩ := ho
    exact (h.thr t).at_zero ht (after_ver_even L m₀ tr o) hev
  · exact h.free o (fun t ht => ho ⟨t, ht⟩)

/-- **What a thread outside a critical section sees at an even version is the order's state.** -/
theorem Inv.view_even (h : Inv L m₀ s tr) {t : Nat}
    (ht : Tail L s.mem (Shared.after L m₀ tr) (s.buf t)) {a : Addr}
    (hev : (s.view t).version (L.calcObjid a) % 2 = 0) :
    (s.view t).version (L.calcObjid a) = (Shared.after L m₀ tr).ver (L.calcObjid a) ∧
      (s.view t).val a = (Shared.after L m₀ tr).mem a := by
  rw [State.view] at hev ⊢
  rw [ht.view_val]
  rcases ht.view_version (L.calcObjid a) with hv | ⟨-, hat, hv⟩
  · rw [hv] at hev ⊢
    obtain ⟨h1, h2⟩ := h.mem_even hev
    exact ⟨by omega, h2 a rfl⟩
  · exact ⟨hv, hat.2 a rfl⟩

end Inv

end MemOrder.Seqlock
