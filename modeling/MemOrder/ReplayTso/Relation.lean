/-
# What a buffered replay is a replay of

A state `s` of the replayer on TSO stands for a state `c` of the sequentially consistent replayer:
the one in which every store happened when it went into its buffer.  Other threads see less of `c`
than it contains, so the relation has to say what they can miss.

* A version store in some buffer is the object's current version, memory is one write behind, and
  only one thread has one (`behind`, `unique`).
* A thread that is past `wait_object_version` misses nothing of its object (`seen`): nobody ELSE
  has a version store for it in a buffer.  For an access that was not logged this comes from the
  thread's own past (`history`): it has seen the version at an earlier access.
* A value store is still followed by its version store in the same buffer, or its thread is about
  to make that one (`Pending`, `order`); so who sees the version sees the value.

Versions and the other threads' `memop` are only ever waited for, and seeing an old one means
waiting longer.
-/
import MemOrder.ReplayTso.Model

namespace MemOrder

/-- What a program sees of an access. -/
def Event.made {Addr : Type} (e : Event Addr) : Commit.Made Addr := ⟨e.acc, e.result⟩

namespace ReplayTso

open Tso
open Commit (Made)
open Replay (Failure)

variable {Addr : Type} [DecidableEq Addr]

/-! ## 1. What an instruction can do

The state after an instruction, by its kind, and the drain.  The rules `instr_of_load`,
`instr_of_store` and `instr_of_xchg` are all that the simulation uses of `State.instr`. -/

namespace State

/-- Thread `t` goes on without a store. -/
def moved (s : State Addr) (t : Nat) (th : Thr Addr) : State Addr :=
  { s with thr := Function.update s.thr t th }

/-- Thread `t` puts a store into its buffer and goes on. -/
def pushed (s : State Addr) (t : Nat) (st : Store Addr) (th : Thr Addr) : State Addr :=
  { s with buf := Function.update s.buf t (s.buf t ++ [st]), thr := Function.update s.thr t th }

/-- Thread `t` stores to memory and goes on. -/
def exchanged (s : State Addr) (t : Nat) (st : Store Addr) (th : Thr Addr) : State Addr :=
  { s with mem := s.mem.store st, thr := Function.update s.thr t th }

/-- The oldest store of thread `t`, which is `st`, has reached memory. -/
def drained (s : State Addr) (t : Nat) (st : Store Addr) (b : List (Store Addr)) : State Addr :=
  { s with mem := s.mem.store st, buf := Function.update s.buf t b }

end State

/-- What an instruction comes to, when going on leads to the states `f`. -/
def Next.outcome (f : Thr Addr → State Addr) : Next Addr → Outcome Addr
  | .goto th => .next (f th)
  | .spin => .spin
  | .fail e => .fail e

section Instr

variable {L : Layout Addr} {prog : Nat → Prog Addr} {logs : Nat → List ReplayWaitMemop}
  {s s' : State Addr} {t u : Nat} {st : Store Addr} {k : Mem Addr → Next Addr} {r : Next Addr}

/-- A thread without an instruction has finished. -/
theorem instr_of_none (h : code L prog logs t (s.thr t) = none) :
    s.instr L prog logs t = .finished := by
  simp only [State.instr, h]

/-- A load reads what the thread sees. -/
theorem instr_of_load (h : code L prog logs t (s.thr t) = some (.load k)) :
    s.instr L prog logs t = (k (s.view t)).outcome (s.moved t) := by
  simp only [State.instr, h, Instr.tso]
  rw [← State.view]
  cases k (s.view t) with
  | goto th => simp only [Next.outcome, State.moved, Function.update_eq_self]
  | _ => rfl

/-- A store goes into the buffer. -/
theorem instr_of_store (h : code L prog logs t (s.thr t) = some (.store st r)) :
    s.instr L prog logs t = r.outcome (s.pushed t st) := by
  simp only [State.instr, h, Instr.tso]
  cases r <;> rfl

/-- A locked instruction reads and stores memory, and needs the buffer to be empty. -/
theorem instr_of_xchg (h : code L prog logs t (s.thr t) = some (.xchg st k)) (hb : s.buf t = []) :
    s.instr L prog logs t = (k s.mem).outcome (s.exchanged t st) := by
  simp only [State.instr, h, Instr.tso, if_pos hb]
  cases k s.mem with
  | goto th =>
    simp only [Next.outcome, State.exchanged]
    rw [← hb, Function.update_eq_self]
  | _ => rfl

/-- Otherwise it has to wait. -/
theorem instr_of_undrained (h : code L prog logs t (s.thr t) = some (.xchg st k))
    (hb : s.buf t ≠ []) : s.instr L prog logs t = .undrained := by
  simp only [State.instr, h, Instr.tso, if_neg hb]

/-- A drain takes the oldest store. -/
theorem drain_cases (h : s.drain t = some s') :
    ∃ st b, s.buf t = st :: b ∧ s' = s.drained t st b := by
  unfold State.drain at h
  cases hb : s.buf t with
  | nil => rw [hb] at h; cases h
  | cons st b =>
    rw [hb] at h
    cases h
    exact ⟨st, b, rfl, rfl⟩

end Instr

/-! ## 2. Places

A place here and a place of the sequentially consistent replayer.  An increment is a load and a
store here and one step there. -/

/-- The place of the sequentially consistent replayer.  A load that only fetches what a later store
needs is no step there. -/
def WPc.abs : WPc → Replay.WPc
  | .trylock => .trylock
  | .checkSize => .checkSize
  | .loadVersion => .search
  | .loadN _ => .search
  | .advanceLoad ent => .advance ent
  | .advanceStore ent _ => .advance ent
  | .unlock ret => .unlock ret
  | .waitMemop ent => .waitMemop ent
  | .store => .store
  | .incLoad => .incVersion
  | .incStore _ => .incVersion

def Pc.abs : Pc Addr → Replay.Pc Addr
  | .start => .start
  | .waitVersion acc => .waitVersion acc
  | .checkVersion acc => .checkVersion acc
  | .load a => .load a
  | .write a x w => .write a x w.abs
  | .incMemopLoad => .incMemop
  | .incMemopStore _ => .incMemop

/-- The loads that are no step there, still to come in this place. -/
def Pc.fetches : Pc Addr → Nat
  | .write _ _ .loadVersion => 1
  | .write _ _ (.advanceLoad _) => 1
  | .write _ _ .incLoad => 1
  | .incMemopLoad => 1
  | _ => 0

/-- A thread of `s` and of `c`. -/
structure ThrRel (th : Thr Addr) (cth : Replay.Thr Addr) : Prop where
  pc : cth.pc = th.pc.abs
  waitVersion : cth.waitVersion = th.waitVersion
  log : cth.waitVersionLog = th.waitVersionLog
  done : cth.done.map Event.made = th.done

/-- What the thread has loaded for its next store is still so. -/
def Regs (L : Layout Addr) (c : Replay.State Addr) (u : Nat) : Pc Addr → Prop
  | .write a _ (.loadN v) => v = c.objVersion (L.calcObjid a)
  | .write a _ (.advanceStore _ k) => k = (c.readerLog (L.calcObjid a)).n
  | .write a _ (.incStore v) => v = c.objVersion (L.calcObjid a)
  | .incMemopStore k => k = (c.thr u).memop
  | _ => True

/-- The places between a mutex operation and the next store. -/
def Drained : Replay.Pc Addr → Prop
  | .write _ _ .checkSize => True
  | .write _ _ .search => True
  | .write _ _ (.advance _) => True
  | .write _ _ (.unlock none) => True
  | .write _ _ (.waitMemop _) => True
  | .write _ _ .store => True
  | _ => False

/-- Past `wait_object_version`, at an access of object `o`. -/
def AtObj (L : Layout Addr) (o : Nat) : Replay.Pc Addr → Prop
  | .checkVersion acc => L.calcObjid acc.addr = o
  | .load a => L.calcObjid a = o
  | .write a _ _ => L.calcObjid a = o
  | _ => False

/-! ## 3. The relation

`ThrOk` is what is said of one thread, `Rel` of memory.  Wherever memory differs from `c` there is a
store in some buffer that makes up for it. -/

/-- Thread `u` has a version store for object `o` in its buffer. -/
def HasVer (s : State Addr) (u o : Nat) : Prop := ∃ v, Store.objVersion o v ∈ s.buf u

/-- What a buffered store of thread `u` is in `c`. -/
def Pending (L : Layout Addr) (s : State Addr) (c : Replay.State Addr) (u : Nat) :
    Store Addr → Prop
  | .val a x => x = c.mem a ∧
      ((c.thr u).pc = .write a x .incVersion ∨ HasVer s u (L.calcObjid a))
  | .objVersion o v => v = c.objVersion o
  | .memop w k => w = u ∧ k ≤ (c.thr u).memop
  | .n o k => k = (c.readerLog o).n ∧
      ∃ a x ent, (c.thr u).pc = .write a x (.unlock (some ent)) ∧ L.calcObjid a = o
  | .mutex _ _ => False

/-- A version store does not overtake the value store of its write, and an object has one version
store at a time. -/
def InOrder (L : Layout Addr) : Store Addr → Store Addr → Prop
  | .objVersion o _, .val a _ => L.calcObjid a ≠ o
  | .objVersion o _, .objVersion p _ => p ≠ o
  | _, _ => True

section Rel

variable {L : Layout Addr} {nthr : Nat} {prog : Nat → Prog Addr} {m₀ : Addr → Val}

/-- One thread of `s` and of `c`. -/
structure ThrOk (R : Run L nthr prog m₀) (s : State Addr) (c : Replay.State Addr) (u : Nat) :
    Prop where
  thr : ThrRel (s.thr u) (c.thr u)
  regs : Regs L c u (s.thr u).pc
  pending : ∀ st ∈ s.buf u, Pending L s c u st
  order : (s.buf u).Pairwise (InOrder L)
  drained : Drained (c.thr u).pc → s.buf u = []
  noVer : ∀ a x, (c.thr u).pc = .write a x .incVersion → ∀ o, ¬ HasVer s u o
  memop : (s.view u).memop u = (c.thr u).memop
  memop_le : s.mem.memop u ≤ (c.thr u).memop
  seen : ∀ o, AtObj L o (c.thr u).pc → ∀ w, HasVer s w o → w = u
  history : ∀ r ∈ R.trace, r.tid = u → r.memop < (c.thr u).passed → ∀ w, w ≠ u →
    HasVer s w (L.obj r) → r.version + 2 ≤ c.objVersion (L.obj r)

/-- **The relation.** -/
structure Rel (R : Run L nthr prog m₀) (s : State Addr) (c : Replay.State Addr) : Prop where
  thr : ∀ u, ThrOk R s c u
  val : ∀ a, (∀ u x, Store.val a x ∉ s.buf u) → s.mem.val a = c.mem a
  version : ∀ o, (∀ u, ¬ HasVer s u o) → s.mem.objVersion o = c.objVersion o
  behind : ∀ u o, HasVer s u o → 0 ≤ s.mem.objVersion o ∧ s.mem.objVersion o + 2 = c.objVersion o
  unique : ∀ u w o, HasVer s u o → HasVer s w o → u = w
  n : ∀ o, (∀ u k, Store.n o k ∉ s.buf u) → s.mem.n o = (c.readerLog o).n
  mutex : ∀ o, s.mem.mutex o = (c.readerLog o).mutex

end Rel

/-! ## 4. What a thread sees

A thread sees the stores in its own buffer and otherwise memory; with the relation this says what it
sees of `c`. -/

section View

variable (m : Mem Addr) (st : Store Addr) (s : State Addr) (t : Nat)

/-! A store writes one location. -/

theorem store_val_of_ne {a : Addr} (h : ∀ x, st ≠ .val a x) : (m.store st).val a = m.val a := by
  cases st with
  | val b x =>
    have hb : a ≠ b := by rintro rfl; exact h x rfl
    simp [Mem.store, Function.update_of_ne hb]
  | _ => rfl

theorem store_objVersion_of_ne {o : Nat} (h : ∀ v, st ≠ .objVersion o v) :
    (m.store st).objVersion o = m.objVersion o := by
  cases st with
  | objVersion p v =>
    have hp : o ≠ p := by rintro rfl; exact h v rfl
    simp [Mem.store, Function.update_of_ne hp]
  | _ => rfl

theorem store_memop_of_ne {u : Nat} (h : ∀ k, st ≠ .memop u k) :
    (m.store st).memop u = m.memop u := by
  cases st with
  | memop w k =>
    have hw : u ≠ w := by rintro rfl; exact h k rfl
    simp [Mem.store, Function.update_of_ne hw]
  | _ => rfl

theorem store_n_of_ne {o : Nat} (h : ∀ k, st ≠ .n o k) : (m.store st).n o = m.n o := by
  cases st with
  | n p k =>
    have hp : o ≠ p := by rintro rfl; exact h k rfl
    simp [Mem.store, Function.update_of_ne hp]
  | _ => rfl

/-! What a thread sees is memory's, or a store in its buffer. -/

theorem view_val_cases (a : Addr) :
    ((s.view t).val a = s.mem.val a ∧ ∀ x, Store.val a x ∉ s.buf t) ∨
      Store.val a ((s.view t).val a) ∈ s.buf t :=
  Tso.view_cases (fun m : Mem Addr => m.val a) (Store.val a) (fun m x => by simp [Mem.store])
    (fun m st h => store_val_of_ne m st h) s.mem (s.buf t)

theorem view_objVersion_cases (o : Nat) :
    ((s.view t).objVersion o = s.mem.objVersion o ∧ ∀ v, Store.objVersion o v ∉ s.buf t) ∨
      Store.objVersion o ((s.view t).objVersion o) ∈ s.buf t :=
  Tso.view_cases (fun m : Mem Addr => m.objVersion o) (Store.objVersion o)
    (fun m x => by simp [Mem.store]) (fun m st h => store_objVersion_of_ne m st h) s.mem (s.buf t)

theorem view_memop_cases (u : Nat) :
    ((s.view t).memop u = s.mem.memop u ∧ ∀ k, Store.memop u k ∉ s.buf t) ∨
      Store.memop u ((s.view t).memop u) ∈ s.buf t :=
  Tso.view_cases (fun m : Mem Addr => m.memop u) (Store.memop u) (fun m x => by simp [Mem.store])
    (fun m st h => store_memop_of_ne m st h) s.mem (s.buf t)

theorem view_n_cases (o : Nat) :
    ((s.view t).n o = s.mem.n o ∧ ∀ k, Store.n o k ∉ s.buf t) ∨
      Store.n o ((s.view t).n o) ∈ s.buf t :=
  Tso.view_cases (fun m : Mem Addr => m.n o) (Store.n o) (fun m x => by simp [Mem.store])
    (fun m st h => store_n_of_ne m st h) s.mem (s.buf t)

/-- A thread's own counter, when neither memory nor the buffer has changed for it. -/
theorem view_memop_congr {s s' : State Addr} {u : Nat} (hm : s'.mem.memop u = s.mem.memop u)
    (hbuf : s'.buf u = s.buf u) : (s'.view u).memop u = (s.view u).memop u := by
  rw [State.view, State.view, hbuf]
  refine Tso.view_congr (fun m : Mem Addr => m.memop u) ?_ _ hm
  intro m₁ m₂ st hst
  cases st with
  | memop w k =>
    by_cases hw : u = w
    · subst hw; simp [Mem.store]
    · simpa [Mem.store, Function.update_of_ne hw] using hst
  | _ => exact hst

end View

section Seen

variable {L : Layout Addr} {nthr : Nat} {prog : Nat → Prog Addr} {m₀ : Addr → Val}
  {R : Run L nthr prog m₀} {logs : Nat → List ReplayWaitMemop} {s : State Addr}
  {c : Replay.State Addr} {t u o : Nat}

/-- A thread sees no version from the future.  If it sees memory's, and another thread has a version
store, memory is two behind; and a version store of its own is the current version. -/
theorem Rel.view_version_le (h : Rel R s c) (t o : Nat) :
    (s.view t).objVersion o ≤ c.objVersion o := by
  rcases view_objVersion_cases s t o with ⟨hv, -⟩ | hmem
  · rw [hv]
    by_cases hx : ∃ u, HasVer s u o
    · obtain ⟨u, hu⟩ := hx
      have := (h.behind u o hu).2
      omega
    · rw [not_exists] at hx
      rw [h.version o hx]
  · exact Int.le_of_eq ((h.thr t).pending _ hmem)

/-- **A thread that misses no version store sees the version.** -/
theorem Rel.view_version (h : Rel R s c) (hs : ∀ w, HasVer s w o → w = t) :
    (s.view t).objVersion o = c.objVersion o := by
  rcases view_objVersion_cases s t o with ⟨hv, hnone⟩ | hmem
  · rw [hv]
    refine h.version o ?_
    intro u hu
    obtain rfl := hs u hu
    obtain ⟨v, hv'⟩ := hu
    exact hnone v hv'
  · exact (h.thr t).pending _ hmem

/-- A thread that sees the current version misses no version store. -/
theorem Rel.seen_of_view (h : Rel R s c) (hv : c.objVersion o ≤ (s.view t).objVersion o) :
    ∀ w, HasVer s w o → w = t := by
  intro w hw
  rcases view_objVersion_cases s t o with ⟨hv', -⟩ | hmem
  · have := (h.behind w o hw).2
    omega
  · exact h.unique w t o hw ⟨_, hmem⟩

/-- The other threads' `memop` is seen late. -/
theorem Rel.view_memop_le (h : Rel R s c) (t u : Nat) : (s.view t).memop u ≤ (c.thr u).memop := by
  rcases view_memop_cases s t u with ⟨hv, -⟩ | hmem
  · rw [hv]
    exact (h.thr u).memop_le
  · obtain ⟨rfl, hle⟩ := (h.thr t).pending _ hmem
    exact hle

/-- **A reader sees the value**: a store it misses is the one of a writer that would have waited for
it, or has its version store behind it. -/
theorem Rel.view_val (h : Rel R s c) (hinv : Replay.Inv R logs c) {a : Addr}
    (hpc : (c.thr t).pc = .load a) : (s.view t).val a = c.mem a := by
  have hown : ∀ u x, Store.val a x ∈ s.buf u → u = t := by
    intro u x hx
    obtain ⟨-, hinc | hver⟩ := (h.thr u).pending _ hx
    · have hp := (hinv.thr t).pc
      simp only [Replay.PcInv, hpc] at hp
      obtain ⟨e, hc, hacc, hver⟩ := hp
      have ha := (Replay.acc_eq_read hacc).2
      exact (hinv.alone_at_incVersion hinc hc (by rw [Layout.obj, ha]) hver).symm
    · exact (h.thr t).seen _ (by rw [hpc]; rfl) u hver
  rcases view_val_cases s t a with ⟨hv, hnone⟩ | hmem
  · rw [hv]
    refine h.val a ?_
    intro u x hx
    obtain rfl := hown u x hx
    exact hnone x hx
  · exact ((h.thr t).pending _ hmem).1

/-- A writer sees its cursor. -/
theorem Rel.view_n (h : Rel R s c) (hinv : Replay.Inv R logs c) {a : Addr} {x : Val}
    {w : Replay.WPc} (hpc : (c.thr t).pc = .write a x w) :
    (s.view t).n (L.calcObjid a) = (c.readerLog (L.calcObjid a)).n := by
  rcases view_n_cases s t (L.calcObjid a) with ⟨hv, hnone⟩ | hmem
  · rw [hv]
    refine h.n _ ?_
    intro u k hk
    obtain ⟨-, b, y, ent, hu, hb⟩ := (h.thr u).pending _ hk
    obtain rfl := hinv.writer_unique hu hpc hb
    exact hnone k hk
  · exact ((h.thr t).pending _ hmem).1

end Seen

end ReplayTso

end MemOrder
