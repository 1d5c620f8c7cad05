/-
# `mem-record-rtmseq.c`: one transaction per access, the seqlock as fallback

Every access first tries a transaction.  A read transaction commits only with an even version, a
write transaction only with the write lock free; an attempt that aborts goes on in the fallback
handler, which is the seqlock code instruction by instruction.  Which way an access goes is free.

The theorem is a refinement: whatever the interleaving of commits and fallback instructions, the
calls and returns are those of a run of the atomic objects of `MemOrder.Spec`, with the accesses
that have taken effect as its order.  The points of effect are the commit, the fence of a fallback
write and the successful check of a fallback read.

That the two ways may be mixed is the point.  A transaction runs while other threads are anywhere in
the fallback code.  A read that commits saw an even version, so no writer is between its two
increments, and memory is what the order says.  A write that commits found the lock free AFTER its
own stores, so no other thread is inside its critical section; what it does is a whole critical
section at once.  Both keep the invariant of the seqlock (`inv_tx`), which therefore serves for
every mixture, and the fallback instructions are the seqlock's own.
-/
import MemOrder.Rtm.Tx
import MemOrder.Spec

namespace MemOrder.Rtm.Seq

open Tso Seqlock

variable {Addr : Type} [DecidableEq Addr]

/-! ## 1. The model

The state is that of the seqlock with one thing more: the threads that stand at an `_xbegin`.  From
there a call goes on in one step, by its commit, or in the fallback handler. -/

/-- The transaction of `mem_read`: the memory it leaves, the version and the value, or an
abort. -/
def memReadTx (L : Layout Addr) (m : Mem Addr) (a : Addr) : Option (Mem Addr × Int × Val) :=
  let version := m.version (L.calcObjid a)
  let val := m.val a
  if version % 2 = 1 then none else some (m, version, val)

/-- The transaction of `mem_write`. -/
def memWriteTx (L : Layout Addr) (m : Mem Addr) (a : Addr) (x : Val) :
    Option (Mem Addr × Int × Val) :=
  let version := m.version (L.calcObjid a)
  let m₁ := m.store (.val a x)
  let m₂ := m₁.store (.version (L.calcObjid a) (m₁.version (L.calcObjid a) + 2))
  if m₂.writeLock (L.calcObjid a) then none else some (m₂, version, x)

def tx (L : Layout Addr) (m : Mem Addr) : Acc Addr → Option (Mem Addr × Int × Val)
  | .read a => memReadTx L m a
  | .write a x => memWriteTx L m a x

/-- The threads of a seqlock run, of which some are at an `_xbegin`. -/
structure State (Addr : Type) extends Seqlock.State Addr where
  xbegin : Nat → Option (Acc Addr)

/-- Thread `t` calls `mem_read` or `mem_write` and comes to `_xbegin`. -/
def State.call (s : State Addr) (t : Nat) (acc : Acc Addr) : Option (State Addr) :=
  if s.pc t = .idle ∧ s.xbegin t = none then
    some { s with xbegin := Function.update s.xbegin t (some acc) }
  else none

/-- The transaction of thread `t` commits; the call returns with the given access. -/
def State.commit (L : Layout Addr) (s : State Addr) (t : Nat) :
    Option (State Addr × Event Addr) :=
  (s.xbegin t).bind fun acc =>
    (tx L s.mem acc).map fun r =>
      (⟨committed s.toState t acc r.1 r.2.1 r.2.2, Function.update s.xbegin t none⟩,
        s.event t acc.op acc.addr r.2.1 r.2.2)

/-- The transaction of thread `t` aborts; the thread is in the fallback handler. -/
def State.abort (s : State Addr) (t : Nat) : Option (State Addr) :=
  (s.xbegin t).map fun acc =>
    { s with
      pc := Function.update s.pc t (.start acc)
      xbegin := Function.update s.xbegin t none }

/-- The access an instruction completes. -/
def returns (s : Seqlock.State Addr) (t : Nat) : Next Addr → Option (Event Addr)
  | .goto _ => none
  | .ret op a v x => some (s.event t op a v x)

/-- The state before the run. -/
def State.initial (m₀ : Addr → Val) : State Addr := ⟨.initial m₀, fun _ => none⟩

/-- One step, with its label. -/
inductive Step (L : Layout Addr) (nthr : Nat) :
    State Addr → Option (Spec.Label Addr) → State Addr → Prop
  | call {s s' : State Addr} {t : Nat} {acc : Acc Addr} : t < nthr → s.call t acc = some s' →
      Step L nthr s (some (.call t acc)) s'
  | commit {s s' : State Addr} {t : Nat} {e : Event Addr} : t < nthr →
      s.commit L t = some (s', e) → Step L nthr s (some (.ret e)) s'
  | abort {s s' : State Addr} {t : Nat} : t < nthr → s.abort t = some s' → Step L nthr s none s'
  | instr {s : State Addr} {c : Seqlock.State Addr} {t : Nat} {n : Next Addr} : t < nthr →
      scInstr L s.toState t = some (c, n) →
      Step L nthr s ((returns s.toState t n).map .ret) { s with toState := c }

/-- The recorder: `nthr` threads, any calls, any interleaving, each access going either way. -/
def sys (L : Layout Addr) (nthr : Nat) (m₀ : Addr → Val) :
    Trans.Sys (State Addr) (Spec.Label Addr) where
  init s := s = .initial m₀
  step := Step L nthr

/-! ## 2. A transaction is one atomic access

A committed transaction against the invariant of the seqlock. -/

section Tx

variable {L : Layout Addr} {m₀ : Addr → Val} {s : Seqlock.State Addr}
  {tr : List (Event Addr)} {t : Nat}

/-- What a committed access wrote is what the call asked for. -/
theorem tx_val {m : Mem Addr} {a : Addr} {y : Val} {r : Mem Addr × Int × Val}
    (h : tx L m (.write a y) = some r) : r.2.2 = y := by
  simp only [tx, memWriteTx] at h
  split at h
  · cases h
  · cases h; rfl

omit [DecidableEq Addr] in
/-- The event of an access is of that access. -/
theorem event_acc {acc : Acc Addr} {v : Int} {x : Val} (hx : ∀ a y, acc = .write a y → x = y) :
    (s.event t acc.op acc.addr v x).acc = acc := by
  cases acc with
  | read a => rfl
  | write a y => rw [hx a y rfl]; rfl

/-- **A committed transaction.**  A read adds an access that sees what is in memory under an even
version.  A write stores a value and raises the version by two, with no writer inside, so that
memory is again what the longer order says. -/
theorem inv_tx (h : Inv L m₀ s tr) (hpc : s.pc t = .idle) (hbuf : s.buf t = []) {acc : Acc Addr}
    {r : Mem Addr × Int × Val} (htx : tx L s.mem acc = some r) :
    Inv L m₀ (committed s t acc r.1 r.2.1 r.2.2)
      (tr ++ [s.event t acc.op acc.addr r.2.1 r.2.2]) := by
  cases acc with
  | read a =>
    simp only [tx, memReadTx] at htx
    split at htx
    · cases htx
    · rename_i hodd
      cases htx
      exact inv_txRead h hpc (by omega)
  | write a x =>
    simp only [tx, memWriteTx] at htx
    split at htx
    · cases htx
    · rename_i hlock
      cases htx
      exact inv_txWrite h hpc hbuf (by simpa [Mem.store] using hlock)

end Tx

/-! ## 3. The calls of a seqlock run

The specification knows three things of a thread: whether it is outside a call, inside one that has
not taken effect, or inside one that has.  `calling` reads this off the place of the thread in the
seqlock code, and `CallStep` is the list of what an instruction can do to it. -/

section Calls

variable {L : Layout Addr} {s s' : Seqlock.State Addr} {t : Nat} {n : Next Addr}

/-- Where thread `t` is with its call, as the specification sees it. -/
def calling (s : Seqlock.State Addr) (t : Nat) : Spec.Call Addr :=
  match s.pc t with
  | .idle => .idle
  | .read a _ => .pending (.read a)
  | .write a x (.inc2Load v) => .done (s.event t .W a v x)
  | .write a x (.inc2Store v _) => .done (s.event t .W a v x)
  | .write a x (.unlock v) => .done (s.event t .W a v x)
  | .write a x _ => .pending (.write a x)

/-- What an instruction does to the call: nothing, its effect, its effect and its return, or its
return. -/
inductive CallStep (L : Layout Addr) (s s' : Seqlock.State Addr) (t : Nat) (n : Next Addr) : Prop
  | silent : s.enters L t = [] → returns s t n = none → calling s' t = calling s t →
      CallStep L s s' t n
  | effect {e : Event Addr} : s.enters L t = [e] → e.tid = t → returns s t n = none →
      calling s t = .pending e.acc → calling s' t = .done e → CallStep L s s' t n
  | effectRet {e : Event Addr} : s.enters L t = [e] → e.tid = t → returns s t n = some e →
      calling s t = .pending e.acc → calling s' t = .idle → CallStep L s s' t n
  | ret {e : Event Addr} : s.enters L t = [] → e.tid = t → returns s t n = some e →
      calling s t = .done e → calling s' t = .idle → CallStep L s s' t n

/-- **An instruction and the call it is part of.**  The places where something happens are few: the
fence of a write is its effect, the unlock its return; a read takes effect when its second load of
the version agrees with the first, and returns with it. -/
theorem scInstr_callStep (hbuf : ∀ u, s.buf u = []) (hst : scInstr L s t = some (s', n)) :
    CallStep L s s' t n := by
  cases hpc : s.pc t with
  | idle => simp [scInstr, hpc, code] at hst
  | read a r =>
    cases r with
    | loadVersion =>
      simp only [scInstr, hpc, code, readCode, Instr.sc, Option.map_some, Option.some.injEq,
        Prod.mk.injEq] at hst
      obtain ⟨rfl, rfl⟩ := hst
      refine .silent (by simp [State.enters, hpc]) ?_ ?_ <;> split <;>
        simp [returns, calling, State.advance, hpc]
    | loadVal v =>
      simp only [scInstr, hpc, code, readCode, Instr.sc, Option.map_some, Option.some.injEq,
        Prod.mk.injEq] at hst
      obtain ⟨rfl, rfl⟩ := hst
      exact .silent (by simp [State.enters, hpc]) rfl (by simp [calling, State.advance, hpc])
    -- the second load of the version: another try, or the effect and the return
    | check v x =>
      simp only [scInstr, hpc, code, readCode, Instr.sc, Option.map_some, Option.some.injEq,
        Prod.mk.injEq] at hst
      obtain ⟨rfl, rfl⟩ := hst
      have hview : (s.view t).version (L.calcObjid a) = s.mem.version (L.calcObjid a) := by
        rw [State.view, hbuf t, view_nil]
      split
      · rename_i hne
        exact .silent (by simp [State.enters, hpc, hview, hne]) rfl
          (by simp [calling, State.advance, hpc])
      · rename_i heq
        refine .effectRet (e := s.event t .R a v x) ?_ rfl rfl ?_ ?_
        · simp [State.enters, hpc, hview, not_not.mp heq]
        · simp [calling, hpc, Event.acc, State.event]
        · simp [calling, State.advance]
  | write a x w =>
    cases w with
    | fence v =>
      simp only [scInstr, hpc, code, writeCode, Instr.sc, Option.map_some, Option.some.injEq,
        Prod.mk.injEq] at hst
      obtain ⟨rfl, rfl⟩ := hst
      refine .effect (e := s.event t .W a v x) ?_ rfl rfl ?_ ?_
      · simp [State.enters, hpc]
      · simp [calling, hpc, Event.acc, State.event]
      · simp [calling, State.advance, State.event]
    | unlock v =>
      simp only [scInstr, hpc, code, writeCode, Instr.sc, Option.map_some, Option.some.injEq,
        Prod.mk.injEq] at hst
      obtain ⟨rfl, rfl⟩ := hst
      refine .ret (e := s.event t .W a v x) ?_ rfl rfl ?_ ?_
      · simp [State.enters, hpc]
      · simp [calling, hpc]
      · simp [calling, State.advance]
    | _ =>
      -- every other place of `mem_write` goes on inside the call
      all_goals
        simp only [scInstr, hpc, code, writeCode, Instr.sc, Option.map_some, Option.some.injEq,
          Prod.mk.injEq] at hst
        obtain ⟨rfl, rfl⟩ := hst
        refine .silent (by simp [State.enters, hpc]) rfl ?_
        cases hlock : s.mem.writeLock (L.calcObjid a) <;>
          simp [calling, State.advance, hpc, State.event]

omit [DecidableEq Addr] in
/-- The call of a thread depends on its own place and its own accesses. -/
theorem calling_congr {u : Nat} (hpc : s'.pc u = s.pc u) (hdone : s'.done u = s.done u) :
    calling s' u = calling s u := by
  simp only [calling, State.event, hpc, hdone]

/-- An instruction leaves the other threads where they are. -/
theorem scInstr_sameBut (hst : scInstr L s t = some (s', n)) : SameBut t s s' := by
  obtain ⟨i, -, hi⟩ := Option.map_eq_some_iff.mp hst
  simp only [Prod.mk.injEq] at hi
  rw [← hi.1]
  have := sameBut_advance (t := t) (s := s) (i.sc Mem.store s.mem).1 (s.buf t)
    (i.sc Mem.store s.mem).2
  rwa [Function.update_eq_self] at this

/-- Only a thread inside a call has an instruction. -/
theorem scInstr_ne_idle (hst : scInstr L s t = some (s', n)) : s.pc t ≠ .idle := by
  intro hpc
  simp [scInstr, hpc, code] at hst

end Calls

/-! ## 4. The simulation

`Sim` is the seqlock invariant for the order of the specification, together with equal calls.  Each
step of the recorder is matched by at most two of the specification, the effect and the return. -/

section Simulation

variable {L : Layout Addr} {nthr : Nat} {m₀ : Addr → Val} {s s' : State Addr}
  {a : Spec.State Addr} {t : Nat}

/-- A call at its `_xbegin` has not taken effect. -/
def State.calling (s : State Addr) (t : Nat) : Spec.Call Addr :=
  match s.xbegin t with
  | some acc => .pending acc
  | none => Seq.calling s.toState t

/-- The implementation state and the specification state that runs along. -/
structure Sim (L : Layout Addr) (m₀ : Addr → Val) (s : State Addr) (a : Spec.State Addr) :
    Prop where
  inv : Inv L m₀ s.toState a.trace
  buf : ∀ t, s.buf t = []
  xbegin : ∀ t, s.xbegin t ≠ none → s.pc t = .idle
  call : a.call = s.calling

/-- A call of the recorder is a call of the specification. -/
theorem Sim.step_call (h : Sim L m₀ s a) {acc : Acc Addr} (ht : t < nthr)
    (hst : s.call t acc = some s') :
    ∃ a', Spec.Step L nthr m₀ a (some (.call t acc)) a' ∧ Sim L m₀ s' a' := by
  unfold State.call at hst
  split at hst
  · rename_i hc
    cases hst
    have hidle : a.call t = .idle := by
      rw [h.call]
      simp [State.calling, hc.2, Seq.calling, hc.1]
    refine ⟨_, .call ht hidle, h.inv, h.buf, ?_, ?_⟩
    · intro u hu
      by_cases hut : u = t
      · subst hut; exact hc.1
      · exact h.xbegin u (by simpa [Function.update_of_ne hut] using hu)
    · funext u
      by_cases hut : u = t
      · subst hut; simp [State.calling]
      · simp [State.calling, Function.update_of_ne hut, h.call, Seq.calling]
  · cases hst

/-- An abort is nothing to the specification: the call was pending and is. -/
theorem Sim.step_abort (h : Sim L m₀ s a) (hst : s.abort t = some s') : Sim L m₀ s' a := by
  obtain ⟨acc, hacc, rfl⟩ := Option.map_eq_some_iff.mp hst
  have hpc := h.xbegin t (by rw [hacc]; simp)
  have hcall : s.toState.call t acc
      = some { s.toState with pc := Function.update s.pc t (.start acc) } := by
    simp [Seqlock.State.call, hpc]
  refine ⟨inv_call h.inv hcall, h.buf, ?_, ?_⟩
  · intro u hu
    by_cases hut : u = t
    · subst hut; simp at hu
    · have := h.xbegin u (by simpa [Function.update_of_ne hut] using hu)
      simpa [Function.update_of_ne hut] using this
  · rw [h.call]
    funext u
    by_cases hut : u = t
    · subst hut
      cases acc <;> simp [State.calling, hacc, Seq.calling, Pc.start]
    · simp [State.calling, Function.update_of_ne hut, Seq.calling, Seqlock.State.event]

/-- A commit is the effect of the call and its return. -/
theorem Sim.step_commit (h : Sim L m₀ s a) {e : Event Addr} (ht : t < nthr)
    (hst : s.commit L t = some (s', e)) :
    ∃ a₁ a₂, Spec.Step L nthr m₀ a none a₁ ∧ Spec.Step L nthr m₀ a₁ (some (.ret e)) a₂ ∧
      Sim L m₀ s' a₂ := by
  obtain ⟨acc, hacc, hr⟩ := Option.bind_eq_some_iff.mp hst
  obtain ⟨r, htx, heq⟩ := Option.map_eq_some_iff.mp hr
  cases heq
  have hpc := h.xbegin t (by rw [hacc]; simp)
  have hinv := inv_tx h.inv hpc (h.buf t) htx
  have hpend : a.call t
      = .pending (s.toState.event t acc.op acc.addr r.2.1 r.2.2).acc := by
    rw [h.call, State.calling, hacc, event_acc]
    rintro b y rfl
    exact tx_val htx
  have hen := hinv.legal.last
  refine ⟨_, _, .perform ht hpend hen, .ret ht (by simp [Seqlock.State.event]), hinv, h.buf,
    ?_, ?_⟩
  · intro u hu
    by_cases hut : u = t
    · subst hut; simp at hu
    · exact h.xbegin u (by simpa [Function.update_of_ne hut] using hu)
  · funext u
    by_cases hut : u = t
    · subst hut
      simp [State.calling, Seq.calling, committed, hpc, Seqlock.State.event]
    · simp [State.calling, Function.update_of_ne hut, Seqlock.State.event, h.call, Seq.calling,
        committed]

/-- A call that is inside its code is past its `_xbegin`. -/
theorem Sim.xbegin_none (h : Sim L m₀ s a) (hpc : s.pc t ≠ .idle) : s.xbegin t = none := by
  by_contra hne
  exact hpc (h.xbegin t hne)

/-- What stays of the relation over an instruction, whatever the specification does for it. -/
theorem Sim.frame_instr (h : Sim L m₀ s a) {c : Seqlock.State Addr} {n : Next Addr}
    (hst : scInstr L s.toState t = some (c, n)) {a₂ : Spec.State Addr}
    (htr : a₂.trace = a.trace ++ s.toState.enters L t) (ht : a₂.call t = Seq.calling c t)
    (hu : ∀ u, u ≠ t → a₂.call u = a.call u) : Sim L m₀ { s with toState := c } a₂ := by
  have hsame := scInstr_sameBut hst
  have hx := h.xbegin_none (scInstr_ne_idle hst)
  refine ⟨by rw [htr]; exact inv_scInstr h.inv h.buf hst, ?_, ?_, ?_⟩
  · intro u
    show c.buf u = []
    rw [scInstr_buf hst]
    exact h.buf u
  · intro u hxu
    have hut : u ≠ t := by rintro rfl; exact hxu hx
    rw [hsame.pc u hut]
    exact h.xbegin u hxu
  · funext u
    by_cases hut : u = t
    · subst hut
      rw [ht]
      simp [State.calling, hx]
    · rw [hu u hut, h.call, State.calling, State.calling]
      simp only
      rw [calling_congr (hsame.pc u hut) (hsame.done u hut)]

/-- **A fallback instruction** is what `CallStep` says: up to two steps of the specification, of
which the second has the label. -/
theorem Sim.step_instr (h : Sim L m₀ s a) {c : Seqlock.State Addr} {n : Next Addr} (ht : t < nthr)
    (hst : scInstr L s.toState t = some (c, n)) :
    ∃ a₁ a₂, (a₁ = a ∨ Spec.Step L nthr m₀ a none a₁) ∧
      (((returns s.toState t n).map Spec.Label.ret = none ∧ a₂ = a₁) ∨
        Spec.Step L nthr m₀ a₁ ((returns s.toState t n).map .ret) a₂) ∧
      Sim L m₀ { s with toState := c } a₂ := by
  have hinv := inv_scInstr h.inv h.buf hst
  have hcall : a.call t = Seq.calling s.toState t := by
    rw [h.call, State.calling, h.xbegin_none (scInstr_ne_idle hst)]
  cases scInstr_callStep h.buf hst with
  -- the specification does what the instruction did to the call
  | silent hen hret hc =>
    refine ⟨a, a, Or.inl rfl, Or.inl ⟨by rw [hret]; rfl, rfl⟩, h.frame_instr hst ?_ ?_ (fun _ _ => rfl)⟩
    · rw [hen, List.append_nil]
    · rw [hc, hcall]
  | @effect e hen he hret hp hd =>
    subst he
    rw [hen] at hinv
    have hl := hinv.legal.last
    refine ⟨_, _, Or.inr (.perform ht (by rw [hcall, hp]) hl), Or.inl ⟨by rw [hret]; rfl, rfl⟩,
      h.frame_instr hst (by rw [hen]) ?_ ?_⟩
    · rw [hd]; simp
    · intro u hu
      simp [Function.update_of_ne hu]
  | @effectRet e hen he hret hp hd =>
    subst he
    rw [hen] at hinv
    have hl := hinv.legal.last
    refine ⟨_, _, Or.inr (.perform ht (by rw [hcall, hp]) hl),
      Or.inr (by rw [hret]; exact .ret ht (by simp)), h.frame_instr hst (by rw [hen]) ?_ ?_⟩
    · rw [hd]; simp
    · intro u hu
      simp [Function.update_of_ne hu]
  | @ret e hen he hret hp hd =>
    subst he
    refine ⟨a, _, Or.inl rfl, Or.inr (by rw [hret]; exact .ret ht (by rw [hcall, hp])),
      h.frame_instr hst ?_ ?_ ?_⟩
    · rw [hen, List.append_nil]
    · rw [hd]; simp
    · intro u hu
      simp [Function.update_of_ne hu]

/-- **The simulation**, one case for each kind of step. -/
theorem simulation (L : Layout Addr) (nthr : Nat) (m₀ : Addr → Val) :
    Trans.Simulation (sys L nthr m₀) (Spec.sys L nthr m₀) (Sim L m₀) where
  init := by
    rintro s rfl
    refine ⟨_, rfl, inv_initial, fun _ => rfl, fun t ht => rfl, ?_⟩
    funext t
    rfl
  step := by
    rintro s l s' a - h hst
    cases hst with
    | call ht hst =>
      obtain ⟨a', h1, h2⟩ := h.step_call ht hst
      exact ⟨a, a', Or.inl rfl, Or.inr h1, h2⟩
    | commit ht hst =>
      obtain ⟨a₁, a₂, h1, h2, h3⟩ := h.step_commit ht hst
      exact ⟨a₁, a₂, Or.inr h1, Or.inr h2, h3⟩
    | abort ht hst => exact ⟨a, a, Or.inl rfl, Or.inl ⟨rfl, rfl⟩, h.step_abort hst⟩
    | instr ht hst => exact h.step_instr ht hst

end Simulation

/-! ## 5. Interleavings, executed

The steps as a function, so that a schedule can be run. -/

section Executed

variable {L : Layout Addr} {nthr : Nat} {m₀ : Addr → Val}

/-- What one thread does next. -/
inductive Act (Addr : Type)
  | call (acc : Acc Addr)
  | commit
  | abort
  | instr

def act (L : Layout Addr) (s : State Addr) :
    Nat × Act Addr → Option (Option (Spec.Label Addr) × State Addr)
  | (t, .call acc) => (s.call t acc).map fun s' => (some (.call t acc), s')
  | (t, .commit) => (s.commit L t).map fun r => (some (.ret r.2), r.1)
  | (t, .abort) => (s.abort t).map fun s' => (none, s')
  | (t, .instr) => (scInstr L s.toState t).map fun r =>
      ((returns s.toState t r.2).map .ret, { s with toState := r.1 })

/-- What is executed is a step. -/
theorem step_act {s s' : State Addr} {l : Option (Spec.Label Addr)} {p : Nat × Act Addr}
    (hlt : p.1 < nthr) (h : act L s p = some (l, s')) : Step L nthr s l s' := by
  obtain ⟨t, a⟩ := p
  cases a with
  | call acc =>
    obtain ⟨s₁, hst, heq⟩ := Option.map_eq_some_iff.mp h
    cases heq
    exact .call hlt hst
  | commit =>
    obtain ⟨⟨s₁, e⟩, hst, heq⟩ := Option.map_eq_some_iff.mp h
    cases heq
    exact .commit hlt hst
  | abort =>
    obtain ⟨s₁, hst, heq⟩ := Option.map_eq_some_iff.mp h
    cases heq
    exact .abort hlt hst
  | instr =>
    obtain ⟨⟨c, n⟩, hst, heq⟩ := Option.map_eq_some_iff.mp h
    cases heq
    exact .instr hlt hst

/-- Thread 0 writes object A in the fallback handler.  While it is between its version load and
its first increment a transaction of thread 1 still reads version 0; thread 1's write to A is
called there too, aborts, and waits for the lock. -/
def mixedSched : List (Nat × Act Bool) :=
  [(0, .call (.write false 5)), (0, .abort), (0, .instr), (0, .instr),
    (1, .call (.read false)), (1, .commit), (1, .call (.write false 6)), (1, .abort),
    (1, .instr)] ++ List.replicate 7 (0, .instr) ++ List.replicate 10 (1, .instr)

/-- The end of that run and its labels. -/
def mixedEnd : State Bool × List (Spec.Label Bool) :=
  ((Trans.runSched (act pairLayout) mixedSched (.initial fun _ => 0)).map Prod.swap).getD
    (.initial fun _ => 0, [])

/-- The schedule is a run. -/
theorem mixed_exec : (sys pairLayout 2 (fun _ => 0)).Exec mixedEnd.2 mixedEnd.1 := by
  have hsome : (Trans.runSched (act pairLayout) mixedSched (.initial fun _ => 0)).isSome = true := by
    decide
  obtain ⟨p, hp⟩ := Option.isSome_iff_exists.mp hsome
  have hlt : ∀ p ∈ mixedSched, p.1 < 2 := by decide
  have hend : mixedEnd = p.swap := by
    rw [mixedEnd, hp]
    rfl
  rw [hend]
  exact Trans.Sys.exec_runSched (fun q hq _ _ _ h => step_act (hlt q hq) h) (.init rfl) hp

end Executed

/-! ## 6. Refinement

The result, and its instance at the schedule above. -/

/-- **The recorder refines the atomic objects.**  Every run has a run of the specification with
the same calls and returns, whose order has for every thread exactly its accesses that have taken
effect.  In it the writes of each object record the versions `0, 2, 4, ...`, and an object whose
version is even is in memory what the specification has. -/
theorem rtmseq_refines {L : Layout Addr} {nthr : Nat} {m₀ : Addr → Val} {s : State Addr}
    {ls : List (Spec.Label Addr)} (h : (sys L nthr m₀).Exec ls s) :
    ∃ a, (Spec.sys L nthr m₀).Exec ls a ∧ (∀ t, thread t a.trace = s.effected t) ∧
      (∀ o, (writesTo L o a.trace).map Event.version
        = (List.range (writesTo L o a.trace).length).map (fun k : Nat => 2 * (k : Int))) ∧
      (∀ o, s.mem.version o % 2 = 0 →
        s.mem.version o = (Shared.after L m₀ a.trace).ver o ∧
        ∀ b, L.calcObjid b = o → s.mem.val b = (Shared.after L m₀ a.trace).mem b) := by
  obtain ⟨a, hexec, hsim⟩ := (simulation L nthr m₀).exec h
  refine ⟨a, hexec, hsim.inv.effected, (Spec.reach_legal hexec.reach).writesTo_version, ?_⟩
  intro o ho
  obtain ⟨h1, h2⟩ := hsim.inv.mem_even ho
  exact ⟨by rw [h1, Int.add_zero], h2⟩

/-- In the example the three accesses record versions 0, 0 and 2. -/
theorem rtmseq_refines_mixed :
    mixedEnd.1.effected 0 = [⟨0, 0, .W, false, 0, 5⟩] ∧
      mixedEnd.1.effected 1 = [⟨1, 0, .R, false, 0, 0⟩, ⟨1, 1, .W, false, 2, 6⟩] ∧
      ∃ a, (Spec.sys pairLayout 2 (fun _ => 0)).Exec mixedEnd.2 a ∧
        ∀ t, thread t a.trace = mixedEnd.1.effected t :=
  ⟨by decide, by decide,
    let ⟨a, h1, h2, _⟩ := rtmseq_refines mixed_exec
    ⟨a, h1, h2⟩⟩

end MemOrder.Rtm.Seq
