/-
# `mem-record-rtmcommit.c` on x86-TSO

The recorder as a client of the ticket lock: a block is a transaction, or the accesses, `g_time++`
and `spin_unlock` of the fallback, instruction by instruction with store buffers.  The recorder of
`Commit.Record`, with a lock that is free or not and without buffers, is what it comes to
(`reach_stands`); the two meet in the queue of `TicketLock.Spec`.

So nothing has to be said about buffers and tickets here.  `TicketLock.Refine` takes a run with them
to a run of the queue, for any client that touches its data between `ticket_lock` and
`ticket_unlock` or in transactions; that this recorder is such a client is `Thr.op_ok`.  From the
queue to the recorder without one it is a simulation in which only three steps are of interest: a
thread that asks for the lock does nothing on the other side, the thread that gets it takes a lock
that is free there (`Stands.lock_none`), and a transaction commits when nobody has asked, so the
lock is free too.

What is known of `Commit.Record` then holds here: the blocks of a complete run have an order in
which it is serial, and the log of a thread has the positions of its blocks in it.  That a run that
cannot go on IS complete is shown on TSO, from the progress of the lock (`Refines.stuck`) and of the
recorder: a thread does not end inside a fallback block, since `mem_finish_thr` ends the block
(`locked_goes_on`).
-/
import MemOrder.Commit.Ends
import MemOrder.TicketLock.Fifo

namespace MemOrder.Commit.RecordTso

open Tso TicketLock KMerge

variable {Addr : Type} [DecidableEq Addr]

/-! ## 1. The recorder as a client

A thread's own state is its place, its accesses and its log; what it shares are the data words and
`g_time`.  In a fallback block the accesses are single instructions of the client, and `g_time++` is
a load and a store like any other. -/

/-- The data words and `g_time`. -/
structure Data (Addr : Type) where
  val : Addr → Val
  time : Nat

/-- A store to them. -/
inductive DataStore (Addr : Type)
  | val (addr : Addr) (x : Val)
  | time (n : Nat)

/-- A store takes place. -/
def Data.store (d : Data Addr) : DataStore Addr → Data Addr
  | .val addr x => { d with val := Function.update d.val addr x }
  | .time n => { d with time := n }

/-- Where a thread is: at a place of `Record.Pc`, or the transaction has aborted and `spin_lock` is
called. -/
inductive Place
  | bb (pc : Record.Pc)
  | spinLock
deriving DecidableEq, Repr

/-- A thread, with the accesses it has made and its `g_commit_log`. -/
structure Thr (Addr : Type) where
  place : Place
  done : List (Made Addr)
  log : List Nat

namespace Thr

variable (prog : Nat → Prog Addr) (t : Nat) (k : Thr Addr)

/-- The thread's next access. -/
def next : Option (Acc Addr) := prog t (k.done.map Made.res)

/-- After an access of a fallback block; `bb_end` follows the last. -/
def made (m : Made Addr) : Thr Addr :=
  { k with
    place := .bb (if k.done.length % rtmBatchN = rtmBatchN - 1 then .timeLoad else .locked)
    done := k.done ++ [m] }

/-- A block as a transaction, from `_xbegin` to `_xend`. -/
def block (d : Data Addr) : Data Addr × Thr Addr :=
  (⟨(runBlock prog ⟨d.val, fun _ => k.done⟩ t).mem, d.time + 1⟩,
    { k with
      place := .bb (.logCommit d.time)
      done := (runBlock prog ⟨d.val, fun _ => k.done⟩ t).done t })

/-- What the thread does next.  A thread that is not in a block begins one or has finished. -/
def op : TicketLock.Op (Data Addr) (DataStore Addr) (Thr Addr) :=
  match k.place with
  | .bb .idle =>
    if k.done.length % rtmBatchN = 0 ∧ k.next prog t ≠ none then
      .tx (k.block prog t) { k with place := .spinLock }
    else .halt
  | .spinLock => .lock { k with place := .bb .locked }
  | .bb .locked =>
    match k.next prog t with
    | some (.read a) => .data <| .load fun d => k.made ⟨.read a, some (d.val a)⟩
    | some (.write a x) => .data <| .store (.val a x) (k.made ⟨.write a x, none⟩)
    | none =>
      -- `mem_finish_thr`
      if k.done.length % rtmBatchN ≠ 0 then .priv { k with place := .bb .timeLoad } else .halt
  | .bb .timeLoad => .data <| .load fun d => { k with place := .bb (.timeStore d.time) }
  | .bb (.timeStore ts) => .data <| .store (.time (ts + 1)) { k with place := .bb (.unlock ts) }
  | .bb (.unlock ts) => .unlock { k with place := .bb (.logCommit ts) }
  | .bb (.logCommit ts) => .priv { k with place := .bb .idle, log := k.log ++ [ts] }

/-- Between `spin_lock` and `spin_unlock`. -/
def inside : Bool :=
  match k.place with
  | .bb pc => pc.holds
  | .spinLock => false

omit [DecidableEq Addr] in
/-- An access of a fallback block leaves the thread in the block. -/
theorem made_inside (m : Made Addr) : (k.made m).inside = true := by
  unfold Thr.made inside
  by_cases h : k.done.length % rtmBatchN = rtmBatchN - 1 <;> simp [h, Record.Pc.holds]

/-- **The recorder uses its lock as intended**: what it touches in a fallback block it touches
between `spin_lock` and `spin_unlock`, and a transaction begins and ends outside. -/
theorem op_ok : (k.op prog t).Ok inside k.inside := by
  unfold op
  cases hp : k.place with
  | spinLock => exact ⟨by rw [inside, hp], rfl⟩
  | bb pc =>
    have hin : k.inside = pc.holds := by rw [inside, hp]
    cases pc with
    | idle =>
      simp only
      split
      · exact ⟨hin, fun d => rfl, rfl⟩
      · trivial
    | locked =>
      simp only
      split
      · exact ⟨hin, fun d => made_inside _ _⟩
      · exact ⟨hin, made_inside _ _⟩
      · split
        · exact hin.symm
        · trivial
    | timeLoad => exact ⟨hin, fun d => rfl⟩
    | timeStore ts => exact ⟨hin, rfl⟩
    | unlock ts => exact ⟨hin, rfl⟩
    | logCommit ts => exact hin.symm

end Thr

/-- The recorder. -/
def client (prog : Nat → Prog Addr) (m₀ : Addr → Val) :
    Client (Data Addr) (DataStore Addr) (Thr Addr) where
  store := Data.store
  data₀ := ⟨m₀, 0⟩
  start _ := ⟨.bb .idle, [], []⟩
  code t k := k.op prog t
  inside := Thr.inside
  start_out _ := rfl
  code_ok t k := k.op_ok prog t

abbrev LockState (Addr : Type) := TicketLock.State (Data Addr) (DataStore Addr) (Thr Addr)

abbrev QueueState (Addr : Type) := TicketLock.Spec.State (Data Addr) (Thr Addr)

abbrev QueuePc (Addr : Type) := TicketLock.Spec.Pc (Thr Addr)

/-- The recorder on TSO. -/
def sys (nthr : Nat) (prog : Nat → Prog Addr) (m₀ : Addr → Val) :
    Trans.Sys (LockState Addr) TicketLock.Event :=
  TicketLock.sys nthr (client prog m₀)

/-! ## 2. The recorder of `Commit.Record`

A thread on its way from an aborted transaction to the lock is still idle there; it takes the lock
in the step in which the queue lets it in.  The block it is about to execute has an access to make,
as the transaction had (`Begins`). -/

/-- The thread of a place in the queue. -/
def thrOf : QueuePc Addr → Thr Addr
  | .run k => k
  | .wait k => k

/-- Its place in `Commit.Record`. -/
def Place.toPc : Place → Record.Pc
  | .bb pc => pc
  | .spinLock => .idle

/-- Where `Commit.Record` has the thread.  It takes the lock when the queue lets it in. -/
def recPc : QueuePc Addr → Record.Pc
  | .run k => k.place.toPc
  | .wait _ => .idle

/-- The thread is at an access with which a block begins. -/
def Thr.AtBlock (prog : Nat → Prog Addr) (t : Nat) (k : Thr Addr) : Prop :=
  k.done.length % rtmBatchN = 0 ∧ k.next prog t ≠ none

/-- Only a block that begins is a transaction. -/
theorem Thr.op_tx {prog : Nat → Prog Addr} {t : Nat} {k : Thr Addr}
    {f : Data Addr → Data Addr × Thr Addr} {abort : Thr Addr} (h : k.op prog t = .tx f abort) :
    k.place = .bb .idle ∧ k.AtBlock prog t := by
  unfold Thr.op at h
  cases hp : k.place with
  | spinLock => simp [hp] at h
  | bb pc =>
    rw [hp] at h
    cases pc with
    | idle =>
      simp only at h
      split at h
      · rename_i hb
        exact ⟨rfl, hb⟩
      · cases h
    | locked =>
      simp only at h
      split at h
      · cases h
      · cases h
      · split at h <;> cases h
    | _ => cases h

/-- From the abort of the transaction on, up to the lock. -/
def Begins (prog : Nat → Prog Addr) (t : Nat) : QueuePc Addr → Prop
  | .run k => k.place = .spinLock → k.AtBlock prog t
  | .wait k => k.place = .bb .locked ∧ k.AtBlock prog t

/-- The state `a` of the queue and the state `r` of the recorder without one. -/
structure Stands (prog : Nat → Prog Addr) (a : QueueState Addr)
    (r : Record.State Addr) : Prop where
  mem : r.cfg.mem = a.data.val
  time : r.time = a.data.time
  done : ∀ t, r.cfg.done t = (thrOf (a.pc t)).done
  log : ∀ t, r.log t = (thrOf (a.pc t)).log
  pc : ∀ t, r.pc t = recPc (a.pc t)
  begins : ∀ t, Begins prog t (a.pc t)

section Stands

variable {nthr t : Nat} {prog : Nat → Prog Addr} {m₀ : Addr → Val}
  {a a' : QueueState Addr} {r r' : Record.State Addr} {k : Thr Addr}

omit [DecidableEq Addr] in
/-- Thread `t` goes on in both. -/
theorem Stands.move (h : Stands prog a r) {p : QueuePc Addr} {d : Data Addr} {q : List Nat}
    (hmem : r'.cfg.mem = d.val) (htime : r'.time = d.time)
    (hdone : r'.cfg.done = Function.update r.cfg.done t (thrOf p).done)
    (hlog : r'.log = Function.update r.log t (thrOf p).log)
    (hpc : r'.pc = Function.update r.pc t (recPc p)) (hb : Begins prog t p) :
    Stands prog ⟨d, q, Function.update a.pc t p⟩ r' := by
  refine ⟨hmem, htime, ?_, ?_, ?_, ?_⟩ <;> intro u <;> by_cases hu : u = t
  · subst hu
    simp [hdone]
  · simp [hdone, Function.update_of_ne hu, h.done]
  · subst hu
    simp [hlog]
  · simp [hlog, Function.update_of_ne hu, h.log]
  · subst hu
    simp [hpc]
  · simp [hpc, Function.update_of_ne hu, h.pc]
  · subst hu
    simpa using hb
  · simpa [Function.update_of_ne hu] using h.begins u

omit [DecidableEq Addr] in
/-- Where the thread has made nothing new. -/
theorem Stands.update_done (h : Stands prog a r) (hd : (thrOf (a.pc t)).done = k.done) :
    r.cfg.done = Function.update r.cfg.done t k.done := by
  rw [← hd, ← h.done t, Function.update_eq_self]

omit [DecidableEq Addr] in
/-- Where it has logged nothing new. -/
theorem Stands.update_log (h : Stands prog a r) (hl : (thrOf (a.pc t)).log = k.log) :
    r.log = Function.update r.log t k.log := by
  rw [← hl, ← h.log t, Function.update_eq_self]

omit [DecidableEq Addr] in
/-- Where it does not move. -/
theorem Stands.update_pc (h : Stands prog a r) {p : Record.Pc} (hp : recPc (a.pc t) = p) :
    r.pc = Function.update r.pc t p := by
  rw [← hp, ← h.pc t, Function.update_eq_self]

omit [DecidableEq Addr] in
/-- Its next access is the same on both sides. -/
theorem Stands.next_eq (h : Stands prog a r) : r.cfg.next prog t = (thrOf (a.pc t)).next prog t := by
  rw [Config.next, h.done, Thr.next]

omit [DecidableEq Addr] in
/-- It holds the lock on both sides or on neither. -/
theorem holds_recPc (p : QueuePc Addr) : (recPc p).holds = p.holds Thr.inside := by
  cases p with
  | wait k => rfl
  | run k =>
    obtain ⟨place, done, log⟩ := k
    cases place <;> rfl

/-- With nobody past `spin_lock` the lock is free. -/
theorem Stands.lock_none (h : Stands prog a r) (hr : Record.Inv nthr prog m₀ r)
    (hno : ∀ u, (a.pc u).holds Thr.inside = false) : r.lock = none := by
  cases hl : r.lock with
  | none => rfl
  | some u =>
    have := (hr.lock u).mp hl
    rw [h.pc, holds_recPc, hno u] at this
    cases this

/-- A block depends on memory and on what the thread itself has done. -/
theorem runAccesses_congr (c c' : Config Addr) (hm : c.mem = c'.mem) (hd : c.done t = c'.done t)
    (j : Nat) : (runAccesses prog t j c).mem = (runAccesses prog t j c').mem ∧
      (runAccesses prog t j c).done t = (runAccesses prog t j c').done t := by
  induction j with
  | zero => exact ⟨hm, hd⟩
  | succ j ih =>
    have hn : (runAccesses prog t j c).next prog t = (runAccesses prog t j c').next prog t := by
      rw [Config.next, ih.2, Config.next]
    simp only [runAccesses, hn]
    split
    · exact ih
    · rename_i acc hacc
      refine ⟨?_, ?_⟩
      · rw [Config.access, Config.access, ih.1]
      · rw [access_done_self, access_done_self, ih.1, ih.2]

/-- **An access of a fallback block** is one access on the other side: the instruction has seen the
data of the queue, which are the words there. -/
theorem Stands.access (h : Stands prog a r) (hpc : a.pc t = .run k) (hp : k.place = .bb .locked)
    {acc : Acc Addr} (hacc : k.next prog t = some acc) {d : Data Addr}
    (hval : d.val = (doAcc a.data.val acc).1) (htime : d.time = a.data.time) (q : List Nat) :
    ∃ r', r.access prog t = some r' ∧
      Stands prog
        ⟨d, q, Function.update a.pc t (.run (k.made ⟨acc, (doAcc a.data.val acc).2⟩))⟩ r' := by
  have hthr : thrOf (a.pc t) = k := by rw [hpc]; rfl
  have hrpc : r.pc t = .locked := by rw [h.pc, hpc, recPc, hp]; rfl
  have hnext : r.cfg.next prog t = some acc := by rw [h.next_eq, hthr, hacc]
  have hlen : (r.cfg.done t).length = k.done.length := by rw [h.done, hthr]
  refine ⟨{ r with
    cfg := r.cfg.access t acc
    pc := Function.update r.pc t
      (if (r.cfg.done t).length % rtmBatchN = rtmBatchN - 1 then .timeLoad else .locked) }, ?_, ?_⟩
  · rw [Record.State.access, if_pos hrpc, hnext, Option.map_some]
  · refine h.move ?_ ?_ ?_ ?_ ?_ ?_
    · rw [hval, ← h.mem]
      rfl
    · rw [htime, ← h.time]
    · have hd : r.cfg.done t = k.done := by rw [h.done, hthr]
      simp only [Config.access, thrOf, Thr.made, hd, h.mem]
    · exact h.update_log (by rw [hthr]; rfl)
    · rw [hlen]
      rfl
    · intro hspin
      cases hspin

/-- **One step of the queue** is a step of the recorder, or none.  The cases are the operations of
`Thr.op`. -/
theorem Stands.step (h : Stands prog a r) (hr : Record.Inv nthr prog m₀ r)
    (ha : TicketLock.Spec.Inv nthr (client prog m₀) a) (ht : t < nthr)
    (hst : a.step (client prog m₀) t = some a') :
    ∃ r', (r' = r ∨ ∃ l, (Record.sys nthr prog m₀).step r l r') ∧ Stands prog a' r' := by
  cases hpc : a.pc t with
  | run k =>
    have hthr : thrOf (a.pc t) = k := by rw [hpc]; rfl
    have hrpc : r.pc t = k.place.toPc := by rw [h.pc, hpc]; rfl
    have hrec : recPc (a.pc t) = k.place.toPc := by rw [hpc]; rfl
    cases hp : k.place with
    | spinLock =>
      -- a ticket is taken
      have hop : (client prog m₀).code t k = .lock { k with place := .bb .locked } := by
        simp [client, Thr.op, hp]
      simp only [TicketLock.Spec.State.step, hpc, hop, Option.some.injEq] at hst
      subst hst
      have hb := h.begins t
      rw [hpc] at hb
      rw [hp] at hrec
      exact ⟨r, Or.inl rfl, h.move h.mem h.time (h.update_done (by rw [hthr]; rfl))
        (h.update_log (by rw [hthr]; rfl)) (h.update_pc hrec) ⟨rfl, hb hp⟩⟩
    | bb pc =>
      rw [hp] at hrpc hrec
      change r.pc t = pc at hrpc
      change recPc (a.pc t) = pc at hrec
      cases pc with
      | idle =>
        by_cases hb : k.AtBlock prog t
        · -- the transaction aborts
          have hop : (client prog m₀).code t k =
              .tx (k.block prog t) { k with place := .spinLock } := by
            simp only [client, Thr.op, hp]
            exact if_pos hb
          simp only [TicketLock.Spec.State.step, hpc, hop, Option.some.injEq] at hst
          subst hst
          exact ⟨r, Or.inl rfl, h.move h.mem h.time (h.update_done (by rw [hthr]; rfl))
            (h.update_log (by rw [hthr]; rfl)) (h.update_pc hrec) (fun _ => hb)⟩
        -- the program is over between two blocks: there is no step
        · have hop : (client prog m₀).code t k = .halt := by
            simp only [client, Thr.op, hp]
            exact if_neg hb
          simp [TicketLock.Spec.State.step, hpc, hop] at hst
      | locked =>
        -- inside a fallback block: the next access, or the end of the program
        cases hacc : k.next prog t with
        | some acc =>
          cases acc with
          | read x =>
            have hop : (client prog m₀).code t k =
                .data (.load fun d => k.made ⟨.read x, some (d.val x)⟩) := by
              simp [client, Thr.op, hp, hacc]
            simp only [TicketLock.Spec.State.step, hpc, hop, Option.some.injEq] at hst
            subst hst
            obtain ⟨r', hst', hs'⟩ := h.access hpc hp hacc (d := a.data) rfl rfl a.queue
            exact ⟨r', Or.inr ⟨none, t, ht, Or.inr (Or.inr (Or.inl hst'))⟩, hs'⟩
          | write x v =>
            have hop : (client prog m₀).code t k =
                .data (.store (.val x v) (k.made ⟨.write x v, none⟩)) := by
              simp [client, Thr.op, hp, hacc]
            simp only [TicketLock.Spec.State.step, hpc, hop, Option.some.injEq] at hst
            subst hst
            obtain ⟨r', hst', hs'⟩ := h.access hpc hp hacc
              (d := { a.data with val := Function.update a.data.val x v }) rfl rfl a.queue
            exact ⟨r', Or.inr ⟨none, t, ht, Or.inr (Or.inr (Or.inl hst'))⟩, hs'⟩
        | none =>
          by_cases hlen : k.done.length % rtmBatchN ≠ 0
          · -- `mem_finish_thr`
            have hop : (client prog m₀).code t k = .priv { k with place := .bb .timeLoad } := by
              simp [client, Thr.op, hp, hacc, hlen]
            simp only [TicketLock.Spec.State.step, hpc, hop, Option.some.injEq] at hst
            subst hst
            have hfin : r.finishThr prog t =
                some { r with pc := Function.update r.pc t .timeLoad } := by
              unfold Record.State.finishThr
              refine if_pos ⟨hrpc, ?_, ?_⟩
              · rw [h.next_eq, hthr, hacc]
              · rw [h.done, hthr]
                exact hlen
            exact ⟨_, Or.inr ⟨none, t, ht, Or.inr (Or.inr (Or.inr (Or.inl hfin)))⟩,
              h.move h.mem h.time (h.update_done (by rw [hthr]; rfl))
                (h.update_log (by rw [hthr]; rfl)) rfl (fun hspin => by cases hspin)⟩
          · have hop : (client prog m₀).code t k = .halt := by
              simp only [client, Thr.op, hp, hacc]
              exact if_neg hlen
            simp [TicketLock.Spec.State.step, hpc, hop] at hst
      -- the instructions of `bb_end`, each of them one of the recorder's
      | timeLoad =>
        have hop : (client prog m₀).code t k =
            .data (.load fun d => { k with place := .bb (.timeStore d.time) }) := by
          simp [client, Thr.op, hp]
        simp only [TicketLock.Spec.State.step, hpc, hop, Option.some.injEq] at hst
        subst hst
        have hend : r.bbEnd t = some { r with pc := Function.update r.pc t (.timeStore r.time) } := by
          rw [Record.State.bbEnd, hrpc]
        refine ⟨_, Or.inr ⟨none, t, ht, Or.inr (Or.inr (Or.inr (Or.inr hend)))⟩,
          h.move h.mem h.time (h.update_done (by rw [hthr]; rfl))
            (h.update_log (by rw [hthr]; rfl)) ?_ (fun hspin => by cases hspin)⟩
        simp only [h.time]
        rfl
      | timeStore ts =>
        have hop : (client prog m₀).code t k =
            .data (.store (.time (ts + 1)) { k with place := .bb (.unlock ts) }) := by
          simp [client, Thr.op, hp]
        simp only [TicketLock.Spec.State.step, hpc, hop, Option.some.injEq] at hst
        subst hst
        have hend : r.bbEnd t = some { r with
            time := ts + 1
            pc := Function.update r.pc t (.unlock ts)
            order := r.order ++ [t] } := by
          rw [Record.State.bbEnd, hrpc]
        exact ⟨_, Or.inr ⟨none, t, ht, Or.inr (Or.inr (Or.inr (Or.inr hend)))⟩,
          h.move h.mem rfl (h.update_done (by rw [hthr]; rfl))
            (h.update_log (by rw [hthr]; rfl)) rfl (fun hspin => by cases hspin)⟩
      | unlock ts =>
        have hop : (client prog m₀).code t k = .unlock { k with place := .bb (.logCommit ts) } := by
          simp [client, Thr.op, hp]
        simp only [TicketLock.Spec.State.step, hpc, hop, Option.some.injEq] at hst
        subst hst
        have hend : r.bbEnd t =
            some { r with lock := none, pc := Function.update r.pc t (.logCommit ts) } := by
          rw [Record.State.bbEnd, hrpc]
        exact ⟨_, Or.inr ⟨none, t, ht, Or.inr (Or.inr (Or.inr (Or.inr hend)))⟩,
          h.move h.mem h.time (h.update_done (by rw [hthr]; rfl))
            (h.update_log (by rw [hthr]; rfl)) rfl (fun hspin => by cases hspin)⟩
      | logCommit ts =>
        have hop : (client prog m₀).code t k =
            .priv { k with place := .bb .idle, log := k.log ++ [ts] } := by
          simp [client, Thr.op, hp]
        simp only [TicketLock.Spec.State.step, hpc, hop, Option.some.injEq] at hst
        subst hst
        have hend : r.bbEnd t = some { r with
            log := Function.update r.log t (r.log t ++ [ts])
            pc := Function.update r.pc t .idle } := by
          rw [Record.State.bbEnd, hrpc]
        have hlog : r.log t = k.log := by rw [h.log, hthr]
        refine ⟨_, Or.inr ⟨none, t, ht, Or.inr (Or.inr (Or.inr (Or.inr hend)))⟩,
          h.move h.mem h.time (h.update_done (by rw [hthr]; rfl)) ?_ rfl
            (fun hspin => by cases hspin)⟩
        simp only [hlog]
        rfl
  | wait k =>
    -- the lock is acquired
    have hthr : thrOf (a.pc t) = k := by rw [hpc]; rfl
    have hrpc : r.pc t = .idle := by rw [h.pc, hpc]; rfl
    have hb := h.begins t
    rw [hpc] at hb
    obtain ⟨hplace, hmod, hnext⟩ := hb
    simp only [TicketLock.Spec.State.step, hpc] at hst
    split at hst
    · rename_i hhead
      cases hst
      -- whoever is inside is at the head of the queue, and there is the waiting thread `t`
      have hfree : r.lock = none := by
        refine h.lock_none hr (fun u => ?_)
        by_contra hu
        rw [Bool.not_eq_false] at hu
        have hfirst := ha.first u hu
        rw [hhead] at hfirst
        cases hfirst
        rw [hpc] at hu
        cases hu
      have hlock : r.spinLock prog t =
          some { r with lock := some t, pc := Function.update r.pc t .locked } := by
        unfold Record.State.spinLock
        refine if_pos ⟨⟨hrpc, ?_, ?_⟩, hfree⟩
        · rw [h.done, hthr]
          exact hmod
        · rw [h.next_eq, hthr]
          exact hnext
      refine ⟨_, Or.inr ⟨none, t, ht, Or.inr (Or.inl hlock)⟩,
        h.move h.mem h.time (h.update_done (by rw [hthr]; rfl))
          (h.update_log (by rw [hthr]; rfl)) ?_ ?_⟩
      · rw [recPc, hplace]
        rfl
      · intro hspin
        rw [hplace] at hspin
        cases hspin
    · cases hst

/-- **A transaction commits in both.**  The queue is empty, so nobody is past `spin_lock` and the
lock is free. -/
theorem Stands.commit (h : Stands prog a r) (hr : Record.Inv nthr prog m₀ r)
    (ha : TicketLock.Spec.Inv nthr (client prog m₀) a) (ht : t < nthr)
    (hst : a.commit (client prog m₀) t = some a') :
    ∃ r', (Record.sys nthr prog m₀).step r none r' ∧ Stands prog a' r' := by
  cases hpc : a.pc t with
  | wait k => simp [TicketLock.Spec.State.commit, hpc] at hst
  | run k =>
    have hthr : thrOf (a.pc t) = k := by rw [hpc]; rfl
    by_cases hb : k.place = .bb .idle ∧ k.AtBlock prog t
    · obtain ⟨hp, hmod, hnext⟩ := hb
      have hop : (client prog m₀).code t k =
          .tx (k.block prog t) { k with place := .spinLock } := by
        simp only [client, Thr.op, hp]
        exact if_pos ⟨hmod, hnext⟩
      simp only [TicketLock.Spec.State.commit, hpc, hop] at hst
      split at hst
      · rename_i hq
        cases hst
        -- the queue is empty, so nobody is inside
        have hfree : r.lock = none := by
          refine h.lock_none hr (fun u => ?_)
          by_contra hu
          rw [Bool.not_eq_false] at hu
          have hfirst := ha.first u hu
          rw [hq] at hfirst
          cases hfirst
        have hrpc : r.pc t = .idle := by rw [h.pc, hpc, recPc, hp]; rfl
        have hd : r.cfg.done t = k.done := by rw [h.done, hthr]
        obtain ⟨hmem', hdone'⟩ := runAccesses_congr r.cfg ⟨a.data.val, fun _ => k.done⟩
          h.mem hd rtmBatchN
        -- the thread makes its block from its own accesses and memory, and this is the recorder's
        -- block
        have hcommit : r.commit prog t = some { r with
            cfg := runBlock prog r.cfg t
            time := r.time + 1
            pc := Function.update r.pc t (.logCommit r.time)
            order := r.order ++ [t] } := by
          unfold Record.State.commit
          refine if_pos ⟨⟨hrpc, ?_, ?_⟩, hfree⟩
          · rw [hd]
            exact hmod
          · rw [h.next_eq, hthr]
            exact hnext
        refine ⟨_, ⟨t, ht, Or.inl hcommit⟩, h.move hmem' (by rw [h.time]; rfl) ?_
          (h.update_log (by rw [hthr]; rfl)) (by rw [h.time]; rfl) (fun hspin => by cases hspin)⟩
        -- the accesses: `t` has made its block, the others have made nothing
        funext u
        rcases eq_or_ne u t with rfl | hu
        · rw [Function.update_self]
          exact hdone'
        · rw [Function.update_of_ne hu]
          exact runAccesses_done_ne hu _
      · cases hst
    · -- no other place is a transaction
      cases hcode : (client prog m₀).code t k with
      | tx f abort => exact absurd (Thr.op_tx hcode) hb
      | _ => simp [TicketLock.Spec.State.commit, hpc, hcode] at hst

end Stands

/-! ## 3. Every run

The two simulations one after the other, and what the ends of a run are. -/

section Runs

variable {nthr t : Nat} {prog : Nat → Prog Addr} {m₀ : Addr → Val}
  {s : LockState Addr}
  {a : QueueState Addr} {r : Record.State Addr}

/-- The initial states. -/
theorem stands_initial : Stands prog (TicketLock.Spec.State.initial (client prog m₀)) (.initial m₀) :=
  ⟨rfl, rfl, fun _ => rfl, fun _ => rfl, fun _ => rfl, fun _ hspin => by cases hspin⟩

/-- Every run of the queue is a run of the recorder. -/
theorem reach_spec (hs : (TicketLock.Spec.sys nthr (client prog m₀)).Reach a) :
    ∃ r, (Record.sys nthr prog m₀).Reach r ∧ Stands prog a r := by
  obtain ⟨r, hr, -, hst⟩ := Trans.Sys.reach_of_stuttering (A := Record.sys nthr prog m₀)
    (R := fun a r => TicketLock.Spec.Inv nthr (client prog m₀) a ∧ Stands prog a r)
    (by
      rintro a rfl
      exact ⟨_, rfl, TicketLock.Spec.inv_initial, stands_initial⟩)
    (by
      rintro a l a' r hr ⟨ha, hst⟩ ⟨t, ht, ⟨-, hstep⟩ | ⟨-, hstep⟩⟩
      · obtain ⟨r', hr', hst'⟩ := hst.step (Record.reach_inv hr) ha ht hstep
        exact ⟨r', hr', ha.step ht hstep, hst'⟩
      · obtain ⟨r', hr', hst'⟩ := hst.commit (Record.reach_inv hr) ha ht hstep
        exact ⟨r', Or.inr ⟨none, hr'⟩, ha.commit hstep, hst'⟩) hs
  exact ⟨r, hr, hst⟩

/-- **Every run with store buffers and tickets** is one of the queue and one of the recorder. -/
theorem reach_stands (hn : nthr ≤ 127) (hs : (sys nthr prog m₀).Reach s) :
    ∃ a r, Refines nthr (client prog m₀) s a ∧ (Record.sys nthr prog m₀).Reach r ∧
      Stands prog a r := by
  obtain ⟨ls, hx⟩ := hs.exec
  obtain ⟨a, ha, hR⟩ := (refines_simulation nthr (client prog m₀) (by omega)).exec hx
  obtain ⟨r, hr, hst⟩ := reach_spec ha.reach
  exact ⟨a, r, hR, hr, hst⟩

/-- Thread `t` has made all its accesses, logged all its stamps, and its stores have drained. -/
def Finished (prog : Nat → Prog Addr)
    (s : LockState Addr) (t : Nat) : Prop :=
  s.sbuf t = [] ∧ ∃ k, s.pc t = .run k ∧ k.place = .bb .idle ∧ k.next prog t = none

/-- The thread of a place in the code of the lock, or outside it. -/
def thrAt : TicketLock.Pc (Thr Addr) → Thr Addr
  | .run k => k
  | .wait _ k => k
  | .setTicket _ k => k

/-- A thread that is not in a fallback block is between two blocks: its transactions are whole
blocks. -/
theorem boundary_of_not_holds (hr : Record.Inv nthr prog m₀ r) (ht : (r.pc t).holds = false) :
    Boundary prog r.cfg t := by
  cases hl : r.lock with
  | none =>
    rw [hr.free hl]
    exact boundary_serial _ t
  | some u =>
    -- what the holder of the lock has done is its own
    have hu := (hr.lock u).mp hl
    have hne : t ≠ u := by
      rintro rfl
      rw [ht] at hu
      cases hu
    have hthr := hr.thr u
    unfold Record.PcInv at hthr
    cases hpc : r.pc u with
    | idle => rw [hpc] at hu; cases hu
    | logCommit ts => rw [hpc] at hu; cases hu
    | locked =>
      rw [hpc] at hthr
      obtain ⟨-, -, j, -, hcfg, -⟩ := hthr
      exact (boundary_congr (by rw [hcfg]; exact runAccesses_done_ne hne j)).mpr (boundary_serial _ t)
    | timeLoad =>
      rw [hpc] at hthr
      exact (boundary_congr (by rw [hthr.2]; exact runAccesses_done_ne hne _)).mpr (boundary_serial _ t)
    | timeStore ts =>
      rw [hpc] at hthr
      exact (boundary_congr (by rw [hthr.2.2]; exact runAccesses_done_ne hne _)).mpr
        (boundary_serial _ t)
    | unlock ts =>
      rw [hpc] at hthr
      rw [show r.cfg = serial prog m₀ r.order from hthr]
      exact boundary_serial _ t

/-- A fallback block is not empty, and not complete before its last access; so a thread in one whose
program has ended is at `mem_finish_thr` with a block to end. -/
theorem locked_goes_on (hr : Record.Inv nthr prog m₀ r) (ht : r.pc t = .locked)
    (hnext : r.cfg.next prog t = none) : (r.cfg.done t).length % rtmBatchN ≠ 0 := by
  have hthr := hr.thr t
  unfold Record.PcInv at hthr
  rw [ht] at hthr
  obtain ⟨hopen, hmod, j, hj, hcfg, hlen⟩ := hthr
  rw [hlen]
  have hpos : j ≠ 0 := by
    rintro rfl
    rw [hcfg] at hnext
    exact hopen hnext
  simp only [rtmBatchN] at hmod hj ⊢
  omega

/-- **A recording that cannot go on is complete.**  The lock says that everybody has halted, or the
holder has; the holder has not, and a thread halts outside a block only at the end of its program.
-/
theorem finished_of_stuck (hn : nthr ≤ 127) (hs : (sys nthr prog m₀).Reach s)
    (hstuck : ∀ l s', ¬ (sys nthr prog m₀).step s l s') (ht : t < nthr) : Finished prog s t := by
  obtain ⟨a, r, hR, hr, hst⟩ := reach_stands hn hs
  have hinv := Record.reach_inv hr
  -- no thread ends inside a fallback block
  have hhalt : ∀ u k, s.pc u = .run k → k.op prog u = .halt →
      k.place = .bb .idle ∧ k.next prog u = none := by
    intro u k hpc hop
    have hrun : a.pc u = .run k := hR.looks.run u k hpc
    have hthr : thrOf (a.pc u) = k := by rw [hrun]; rfl
    have hnext : r.cfg.next prog u = k.next prog u := by rw [hst.next_eq, hthr]
    have hdone : r.cfg.done u = k.done := by rw [hst.done, hthr]
    have hrpc : r.pc u = k.place.toPc := by rw [hst.pc, hrun]; rfl
    unfold Thr.op at hop
    cases hp : k.place with
    | spinLock => rw [hp] at hop; cases hop
    | bb pc =>
      rw [hp] at hop hrpc
      cases pc with
      | idle =>
        refine ⟨rfl, ?_⟩
        have hbound := boundary_of_not_holds hinv (t := u) (by rw [hrpc]; rfl)
        rw [Boundary, hnext, hdone] at hbound
        simp only at hop
        split at hop
        · cases hop
        · rename_i hno
          by_contra hne
          exact hno ⟨hbound.resolve_right hne, hne⟩
      | locked =>
        simp only at hop
        split at hop
        · cases hop
        · cases hop
        · rename_i hnone
          split at hop
          · cases hop
          · rename_i hlen
            have := locked_goes_on hinv hrpc (hnext.trans hnone)
            rw [hdone] at this
            exact absurd this hlen
      | _ => cases hop
  -- so the lock has been released, and nobody waits for it
  rcases hR.stuck hstuck with ⟨u, -, k, hpc, hcode, hin⟩ | hend
  · have := (hhalt u k hpc hcode).1
    have hfalse : k.inside = true := hin
    rw [Thr.inside, this] at hfalse
    cases hfalse
  · obtain ⟨hbuf, k, hpc, hcode⟩ := hend t ht
    obtain ⟨hplace, hnext⟩ := hhalt t k hpc hcode
    exact ⟨hbuf, k, hpc, hplace, hnext⟩

/-- **A complete recording is a complete run of `Commit.Record`**, with the same accesses, logs and
memory. -/
theorem record_of_finished (hn : nthr ≤ 127) (hs : (sys nthr prog m₀).Reach s)
    (hf : ∀ t < nthr, Finished prog s t) :
    ∃ r, (Record.sys nthr prog m₀).Reach r ∧ (∀ t < nthr, Record.Finished prog r t) ∧
      r.cfg = ⟨s.mem.data.val, fun t => (thrAt (s.pc t)).done⟩ ∧
      r.log = (fun t => (thrAt (s.pc t)).log) ∧ r.time = s.mem.data.time := by
  obtain ⟨a, r, hR, hr, hst⟩ := reach_stands hn hs
  have hlooks := hR.looks
  -- with all buffers empty memory is the queue's data
  have hempty : ∀ t, s.sbuf t = [] := by
    intro t
    rcases Nat.lt_or_ge t nthr with ht | ht
    · exact (hf t ht).1
    · exact (reach_out hs ht).2
  have hthr : ∀ t, thrOf (a.pc t) = thrAt (s.pc t) := by
    intro t
    obtain ⟨k, hpc⟩ : ∃ k, s.pc t = .run k := by
      rcases Nat.lt_or_ge t nthr with ht | ht
      · obtain ⟨-, k, hpc, -⟩ := hf t ht
        exact ⟨k, hpc⟩
      · exact ⟨_, (reach_out hs ht).1⟩
    rw [hlooks.run t k hpc, hpc]
    rfl
  have hdata := hlooks.drained hempty
  refine ⟨r, hr, ?_, ?_, funext fun t => by rw [hst.log, hthr], by rw [hst.time, hdata]⟩
  · intro t ht
    obtain ⟨-, k, hpc, hplace, hnext⟩ := hf t ht
    have hrun := hlooks.run t k hpc
    refine ⟨?_, ?_⟩
    · rw [hst.pc, hrun, recPc, hplace]
      rfl
    · rw [hst.next_eq, hrun]
      exact hnext
  · have hmem : r.cfg.mem = s.mem.data.val := by rw [hst.mem, hdata]
    have hdone : r.cfg.done = fun t => (thrAt (s.pc t)).done :=
      funext fun t => by rw [hst.done, hthr]
    rw [← hmem, ← hdone]

end Runs

/-! ## 4. Results

The first is about the recorder alone.  The second adds `merge-commit` and the replayer on TSO;
there every thread has to make an access, since `merge-commit` exits on an empty log. -/

section Results

variable {nthr : Nat} {prog : Nat → Prog Addr} {m₀ : Addr → Val}
  {s : LockState Addr}

/-- **Recording on TSO with the ticket lock.**  A run of the recorder that cannot go on is complete; a
complete run is the serial run of some order of blocks, `g_time` counts them, and the log of each
thread has the positions of its blocks in that order. -/
theorem commit_record_tso (hn : nthr ≤ 127) (hs : (sys nthr prog m₀).Reach s) :
    ((∀ l s', ¬ (sys nthr prog m₀).step s l s') → ∀ t < nthr, Finished prog s t) ∧
      ((∀ t < nthr, Finished prog s t) → ∃ order : List Nat, (∀ t ∈ order, t < nthr) ∧
        Opens prog m₀ order ∧ s.mem.data.time = order.length ∧
        s.mem.data.val = (serial prog m₀ order).mem ∧
        ∀ t, (thrAt (s.pc t)).done = (serial prog m₀ order).done t ∧
          (thrAt (s.pc t)).log = Record.stamps order t) := by
  refine ⟨fun hstuck t ht => finished_of_stuck hn hs hstuck ht, ?_⟩
  intro hf
  obtain ⟨r, hr, hfin, hcfg, hlog, htime⟩ := record_of_finished hn hs hf
  obtain ⟨hserial, hstamps, hlt, ho⟩ := Record.complete_run hr hfin
  rw [hserial] at hcfg
  refine ⟨r.order, hlt, ho, ?_, by rw [hcfg], fun t => ⟨by rw [hcfg], ?_⟩⟩
  · rw [← htime, (Record.reach_inv hr).time]
  · rw [← hstamps, hlog]

/-- **Record, merge and replay on TSO.**  A run of the recorder with store buffers and the ticket lock
that cannot go on leaves logs that merge, and every replay of the merged log with store buffers gives
the recorded results and memory, as long as no thread makes more than `2^31` accesses. -/
theorem commit_pipeline_tso (P : PQueue Merge.QEnt Merge.QEnt.gt) (hn : nthr ≤ 127)
    (hs : (sys nthr prog m₀).Reach s) (hstuck : ∀ l s', ¬ (sys nthr prog m₀).step s l s')
    (hp : ∀ t < nthr, prog t [] ≠ none)
    (hw : ∀ t < nthr, (thrAt (s.pc t)).done.length ≤ 2 ^ 31) :
    ∃ log, Merge.main P nthr (fun t => some (thrAt (s.pc t)).log) = .ok log ∧
      ReplaysTso nthr log (some 32) prog m₀
        ⟨s.mem.data.val, fun t => (thrAt (s.pc t)).done⟩ := by
  obtain ⟨r, hr, hfin, hcfg, hlog, -⟩ :=
    record_of_finished hn hs (fun t ht => finished_of_stuck hn hs hstuck ht)
  obtain ⟨log, hmain, hreplays⟩ := replaysTso_of_run (w := some 32) P hn hr hfin hp (by
    intro t ht
    rw [hcfg]
    exact ⟨hw t ht, by decide⟩)
  rw [hlog] at hmain
  rw [hcfg] at hreplays
  exact ⟨log, hmain, hreplays⟩

end Results

/-! ## 5. A run

Three blocks of two threads, in the order transaction, fallback, fallback. -/

/-- The first block of thread 0 is a transaction; thread 1 and then thread 0 fall back, and thread 0
gets its ticket while thread 1 has the lock. -/
def eightSched : List Act :=
  [.commit 0, .step 0] ++ List.replicate 3 (.step 1) ++ List.replicate 2 (.step 0) ++
    List.replicate 7 (.step 1) ++ List.replicate 3 (.drain 1) ++ List.replicate 7 (.step 0) ++
    List.replicate 2 (.drain 0) ++ [.step 0]

/-- Where it ends. -/
def eightEnd : LockState Unit :=
  ((Trans.runSched (act (client (readsAndWrite 8) (fun _ => 0))) eightSched
    (.initial (client (readsAndWrite 8) (fun _ => 0)))).map Prod.snd).getD
      (.initial (client (readsAndWrite 8) (fun _ => 0)))

/-- The run reaches it. -/
theorem eight_reach : (sys 2 (readsAndWrite 8) (fun _ => 0)).Reach eightEnd := by
  have hsome : (Trans.runSched (act (client (readsAndWrite 8) (fun _ => 0))) eightSched
      (.initial (client (readsAndWrite 8) (fun _ => 0)))).isSome = true := by decide
  have hlt : ∀ x ∈ eightSched, x.tid < 2 := by decide
  exact Trans.Sys.reach_end (fun x hx _ _ _ h => step_act (hlt x hx) h) rfl hsome

/-- Nothing can move there. -/
theorem eight_stuck (l : Option TicketLock.Event)
    (s' : LockState Unit) :
    ¬ (sys 2 (readsAndWrite 8) (fun _ => 0)).step eightEnd l s' := by
  rintro ⟨t, ht, ⟨-, hst⟩ | ⟨-, hst | hst⟩⟩
  all_goals
    match t, ht with
    | 0, _ => cases hst
    | 1, _ => cases hst

/-- Thread 0 has the first and the last stamp; its last read comes after the write. -/
theorem commit_record_tso_eight :
    (thrAt (eightEnd.pc 0)).log = [0, 2] ∧ (thrAt (eightEnd.pc 1)).log = [1] ∧
      ∃ order : List Nat, (∀ t ∈ order, t < 2) ∧ Opens (readsAndWrite 8) (fun _ => 0) order ∧
        eightEnd.mem.data.time = order.length ∧
        eightEnd.mem.data.val = (serial (readsAndWrite 8) (fun _ => 0) order).mem ∧
        ∀ t, (thrAt (eightEnd.pc t)).done = (serial (readsAndWrite 8) (fun _ => 0) order).done t ∧
          (thrAt (eightEnd.pc t)).log = Record.stamps order t := by
  have h := commit_record_tso (by decide : 2 ≤ 127) eight_reach
  exact ⟨rfl, rfl, h.2 (h.1 eight_stuck)⟩

/-- Its logs merge, and a replay of the merged log gives its results and memory. -/
theorem commit_pipeline_tso_eight : ∃ log,
    Merge.main (listQueue _ Merge.qent_comparison) 2 (fun t => some (thrAt (eightEnd.pc t)).log) =
        .ok log ∧
      ReplaysTso 2 log (some 32) (readsAndWrite 8) (fun _ => 0)
        ⟨eightEnd.mem.data.val, fun t => (thrAt (eightEnd.pc t)).done⟩ := by
  refine commit_pipeline_tso _ (by decide) eight_reach eight_stuck (by decide) ?_
  intro t ht
  match t, ht with
  | 0, _ => decide
  | 1, _ => decide

end MemOrder.Commit.RecordTso
