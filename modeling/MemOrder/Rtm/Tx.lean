/-
# Transactions beside the seqlock

The RTM recorders run an access as a hardware transaction and fall back to the seqlock code.  The
model takes transactions as the hardware promises them: a committed one takes effect as one step,
an aborted one leaves no trace.  Everything else is sequentially consistent, so a state here is a
`Seqlock.State` in which nothing is ever buffered, and the invariant of the seqlock run is reused
as it is: an instruction is a TSO instruction whose store drains at once (`inv_scInstr`).

What is new is one fact per guard.  A transaction that reads an even version reads a version and
a value of the order (`inv_txRead`); one that finds the write lock free finds an object without
an owner, which it may advance by a whole write (`inv_txWrite`).
-/
import MemOrder.Seqlock.Preserve

namespace MemOrder.Rtm

open Tso Seqlock

variable {Addr : Type} [DecidableEq Addr]

/-! ## 1. Sequentially consistent instructions

The instructions of the seqlock, executed in memory. -/

/-- Thread `t` executes the instruction it is at, in memory. -/
def scInstr (L : Layout Addr) (s : Seqlock.State Addr) (t : Nat) :
    Option (Seqlock.State Addr × Next Addr) :=
  (code L (s.pc t)).map fun i =>
    ({ s with mem := (i.sc Mem.store s.mem).1 }.advance t (i.sc Mem.store s.mem).2,
      (i.sc Mem.store s.mem).2)

section Sc

variable {L : Layout Addr} {m₀ : Addr → Val} {s s' : Seqlock.State Addr}
  {tr : List (Event Addr)} {t : Nat} {n : Next Addr}

omit [DecidableEq Addr] in
/-- Going on does not touch the buffers. -/
theorem advance_buf (n : Next Addr) : (s.advance t n).buf = s.buf := by
  cases n <;> rfl

/-- Nor does an instruction that stores in memory. -/
theorem scInstr_buf (hst : scInstr L s t = some (s', n)) : s'.buf = s.buf := by
  obtain ⟨i, -, hi⟩ := Option.map_eq_some_iff.mp hst
  cases hi
  exact advance_buf _

omit [DecidableEq Addr] in
/-- Emptying an empty buffer. -/
theorem update_buf_nil (hbuf : ∀ u, s.buf u = []) : Function.update s.buf t [] = s.buf := by
  rw [← hbuf t, Function.update_eq_self]

/-- **One sequentially consistent instruction** is the TSO instruction, and the drain of its store
if it has one; the invariant is kept by both. -/
theorem inv_scInstr (h : Inv L m₀ s tr) (hbuf : ∀ u, s.buf u = [])
    (hst : scInstr L s t = some (s', n)) : Inv L m₀ s' (tr ++ s.enters L t) := by
  obtain ⟨i, hi, hs'⟩ := Option.map_eq_some_iff.mp hst
  simp only [Prod.mk.injEq] at hs'
  rw [← hs'.1]
  rcases Instr.tso_of_sc Mem.store s.mem i with htso | ⟨st, k, rfl, htso, hsc⟩
  · refine inv_instr h ?_
    simp only [State.instr, hi, hbuf t, Option.bind_some, htso, Option.map_some]
    rw [update_buf_nil hbuf]
  · -- the store goes to the buffer and drains
    have h1 : Inv L m₀ ({ s with buf := Function.update s.buf t [st] }.advance t k)
        (tr ++ s.enters L t) := by
      refine inv_instr h ?_
      simp only [State.instr, hi, hbuf t, Option.bind_some, htso, Option.map_some]
    refine inv_drain (t := t) h1 ?_
    rw [hsc]
    cases k with
    | goto p =>
      simp only [State.drain, State.advance, Function.update_self, Function.update_idem]
      rw [update_buf_nil hbuf]
    | ret op a v x =>
      simp only [State.drain, State.advance, Function.update_self, Function.update_idem]
      rw [update_buf_nil hbuf]
      rfl

end Sc

/-! ## 2. Committed accesses

What a transaction leaves: memory, and one more access of its thread. -/

section Commit

variable {L : Layout Addr} {m₀ : Addr → Val} {s : Seqlock.State Addr}
  {tr : List (Event Addr)} {t : Nat}

/-- Thread `t` has committed an access: memory is `m`, the access saw `v` and read or
wrote `x`. -/
def committed (s : Seqlock.State Addr) (t : Nat) (acc : Acc Addr) (m : Mem Addr) (v : Int)
    (x : Val) : Seqlock.State Addr :=
  { s with
    mem := m
    done := Function.update s.done t (s.done t ++ [s.event t acc.op acc.addr v x]) }

omit [DecidableEq Addr] in
/-- A commit leaves the other threads where they are. -/
theorem sameBut_committed {acc : Acc Addr} {m : Mem Addr} {v : Int} {x : Val} :
    SameBut t s (committed s t acc m v x) :=
  ⟨fun _ _ => rfl, fun _ _ => rfl, fun u hu => by simp [committed, Function.update_of_ne hu]⟩

omit [DecidableEq Addr] in
/-- One more access has taken effect. -/
theorem committed_effected (hpc : s.pc t = .idle) {acc : Acc Addr} {m : Mem Addr} {v : Int}
    {x : Val} : (committed s t acc m v x).effected t
      = s.effected t ++ [s.event t acc.op acc.addr v x] := by
  simp [committed, State.effected, hpc]

/-- A committed read of an even version.  No writer has raised the version to an odd number, so the
object's version and value in memory are those of the order, and the read may come last. -/
theorem inv_txRead (h : Inv L m₀ s tr) (hpc : s.pc t = .idle) {a : Addr}
    (hev : s.mem.version (L.calcObjid a) % 2 = 0) :
    Inv L m₀ (committed s t (.read a) s.mem (s.mem.version (L.calcObjid a)) (s.mem.val a))
      (tr ++ [s.event t .R a (s.mem.version (L.calcObjid a)) (s.mem.val a)]) := by
  obtain ⟨hver, hval⟩ := h.mem_even hev
  have heff : s.effected t = s.done t := by simp [State.effected, hpc]
  have hlegal := h.legal_snoc .R heff (hver.trans (Int.add_zero _)) (fun _ => hval a rfl)
  have hsh : Shared.after L m₀
      (tr ++ [s.event t .R a (s.mem.version (L.calcObjid a)) (s.mem.val a)])
        = Shared.after L m₀ tr := by
    rw [after_snoc]; rfl
  refine h.step_rule _ sameBut_committed hlegal (by simp [State.event]) (committed_effected hpc) rfl
    (fun o => Iff.rfl) ?_ ?_ ?_
  · intro o ho
    rw [hsh]; exact h.free o ho
  · intro u _
    rw [hsh]; exact h.thr u
  · rw [hsh]; exact h.thr t

/-- A committed write to an object whose lock is free.  The object has no owner, so no other thread
relies on its version staying the same; the readers that have loaded the old version will see
another one. -/
theorem inv_txWrite (h : Inv L m₀ s tr) (hpc : s.pc t = .idle) (hbuf : s.buf t = [])
    {a : Addr} {x : Val} (hlock : s.mem.writeLock (L.calcObjid a) = false) :
    Inv L m₀ (committed s t (.write a x)
        ((s.mem.store (.val a x)).store
          (.version (L.calcObjid a) (s.mem.version (L.calcObjid a) + 2)))
        (s.mem.version (L.calcObjid a)) x)
      (tr ++ [s.event t .W a (s.mem.version (L.calcObjid a)) x]) := by
  have hnone : ∀ u, ¬ Owner L s u (L.calcObjid a) := by
    intro u hu
    rw [(h.lock _).mpr ⟨u, hu⟩] at hlock
    cases hlock
  obtain ⟨hver, hval⟩ := h.free _ hnone
  have heff : s.effected t = s.done t := by simp [State.effected, hpc]
  have hlegal := h.legal_snoc .W (x := x) heff (hver.trans (Int.add_zero _))
    (fun hc => by cases hc)
  -- what the others rely on: their own objects are as they were, and the version of this one is not
  -- one they have seen
  have hframe : Frame L (L.calcObjid a) s.mem
      ((s.mem.store (.val a x)).store
        (.version (L.calcObjid a) (s.mem.version (L.calcObjid a) + 2)))
      (Shared.after L m₀ tr) (Shared.after L m₀
        (tr ++ [s.event t .W a (s.mem.version (L.calcObjid a)) x])) := by
    constructor
    · intro o ho
      simp [Mem.store, Function.update_of_ne ho]
    · intro b hb
      have hne : b ≠ a := by rintro rfl; exact hb rfl
      simp [Mem.store, Function.update_of_ne hne]
    · intro o ho
      rw [after_ver_write, if_neg (Ne.symm ho), Int.add_zero]
    · intro b hb
      rw [after_mem_write, if_neg (fun hc => hb (by rw [hc]))]
    · intro w hw hle
      simp only [Mem.store, Function.update_self]
      exact ⟨by omega, fun hc => by omega⟩
  refine h.step_rule _ sameBut_committed hlegal (by simp [State.event]) (committed_effected hpc) rfl
    (fun o => Iff.rfl) ?_ (fun u _ => (h.thr u).frame hframe (hnone u)) ?_
  · intro o ho
    by_cases hoa : o = L.calcObjid a
    · -- the object it has written
      subst hoa
      constructor
      · rw [after_ver_write, if_pos rfl]
        simp [committed, Mem.store, hver]
      · intro b hb
        rw [after_mem_write]
        by_cases hab : a = b
        · subst hab; simp [committed, Mem.store]
        · rw [if_neg hab, ← hval b hb]
          simp [committed, Mem.store, Function.update_of_ne (Ne.symm hab)]
    · exact (h.free o ho).frame hframe hoa
  · simp only [committed, hpc, hbuf, ThrInv]
    exact Or.inl rfl

end Commit

end MemOrder.Rtm
