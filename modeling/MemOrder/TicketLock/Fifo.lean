/-
# What the ticket lock gives

Of every run with store buffers of every client, with at most 2^16 threads: it is a run of the queue
(`ticketlock_refines`), the lock is acquired in the order of the requests and the run does not get
stuck (`ticketlock_fifo`).  With more threads two of them can hold the lock
(`ticketlock_exclusive_iff`): the tickets have 16 bits.

The first is the simulation of `Refine.lean` with what can be seen of the two states (`Looks`):
places, data seen by who holds the lock, memory when all has drained.  The second is proved of the
queue, where it is nearly what the queue is: in each step requests go to its end and the first of it
acquires, so at any time the requests are the acquisitions followed by those who wait
(`Spec.exec_waiting`).  Stuckness is proved of the lock: a thread that waits for its ticket can be
blocked for good only by a holder that has halted, or by a store that has not drained, and a store
can always drain.

The bound on the threads is exact.  With 2^16 threads the last ticket that is out is 2^16 - 1 after
the one that is served.  With one more, a thread draws the ticket that is being served, and goes on.
-/
import MemOrder.TicketLock.Refine

namespace MemOrder.TicketLock

open Tso

variable {D S κ : Type} {nthr : Nat} {c : Client D S κ}

/-! ## 1. Refinement

What the queue's state says about the lock's. -/

/-- The state `s` with store buffers looks like the state `a` of the queue. -/
structure Looks (c : Client D S κ) (s : State D S κ) (a : Spec.State D κ) : Prop where
  run : ∀ t k, s.pc t = .run k → a.pc t = .run k
  wait : ∀ t me k, s.pc t = .wait me k → a.pc t = .wait k
  /-- The lock is not given back before `ticket` is stored. -/
  unlock : ∀ t x k, s.pc t = .setTicket x k → ∃ k', a.pc t = .run k' ∧ c.code t k' = .unlock k
  /-- Who holds the lock sees the data. -/
  data : ∀ t, c.holds (s.pc t) = true → (view c.apply s.mem (s.sbuf t)).data = a.data
  drained : (∀ t, s.sbuf t = []) → s.mem.data = a.data

section Refine

variable {s : State D S κ} {a : Spec.State D κ} {t u : Nat} {ls : List Event}

/-- Threads that do not exist do not move. -/
theorem reach_out (hs : (sys nthr c).Reach s) (ht : nthr ≤ t) :
    s.pc t = .run (c.start t) ∧ s.sbuf t = [] := by
  refine Trans.Sys.reach_of_inductive
    (I := fun s => s.pc t = .run (c.start t) ∧ s.sbuf t = []) ?_ ?_ hs
  · rintro s rfl
    exact ⟨rfl, rfl⟩
  · rintro s l s' - ih ⟨u, hu, hst⟩
    have hne : t ≠ u := by omega
    have hframe : s'.pc t = s.pc t ∧ s'.sbuf t = s.sbuf t := by
      rcases hst with ⟨-, hst⟩ | ⟨-, hst | hst⟩
      · unfold State.step at hst
        split at hst
        · cases hst
        · split at hst
          · cases hst
            exact ⟨Function.update_of_ne hne _ _, Function.update_of_ne hne _ _⟩
          · cases hst
      · unfold State.drain at hst
        split at hst
        · cases hst
        · cases hst
          exact ⟨rfl, Function.update_of_ne hne _ _⟩
      · unfold State.commit at hst
        split at hst
        · split at hst
          · split at hst
            · cases hst
              exact ⟨Function.update_of_ne hne _ _, rfl⟩
            · cases hst
          · cases hst
        · cases hst
    rw [hframe.1, hframe.2]
    exact ih

/-- Who is past `ticket_lock` here holds the lock there. -/
theorem Refines.holds (hR : Refines nthr c s a) (ht : c.holds (s.pc t) = true) :
    (a.pc t).holds c.inside = true := by
  obtain ⟨-, n, h, ds, b, h'⟩ := hR
  have hpc := h'.pc t
  cases hp : s.pc t with
  | run k =>
    rw [hp] at hpc ht
    rw [show a.pc t = .run k from hpc]
    exact ht
  | wait me k => rw [hp] at ht; cases ht
  | setTicket x k =>
    rw [hp] at hpc
    obtain ⟨-, k', hrun, hcode⟩ := hpc
    have hok := c.code_ok t k'
    rw [hcode] at hok
    rw [hrun]
    exact hok.1

/-- Related states look alike. -/
theorem Refines.looks (hR : Refines nthr c s a) : Looks c s a := by
  have hholds := fun t => hR.holds (t := t)
  obtain ⟨ha, n, h, ds, b, h'⟩ := hR
  refine ⟨?_, ?_, ?_, ?_, ?_⟩
  · intro t k hp
    have hpc := h'.pc t
    rw [hp] at hpc
    exact hpc
  · intro t me k hp
    have hpc := h'.pc t
    rw [hp] at hpc
    exact hpc
  · intro t x k hp
    have hpc := h'.pc t
    rw [hp] at hpc
    exact hpc.2
  · intro t ht
    obtain ⟨ds', h''⟩ := h'.of_holds ha (hholds t ht)
    have hbuf := h''.buf
    simp only [Bool.false_eq_true, if_false, List.append_nil] at hbuf
    rw [hbuf, view_data, h''.data]
  · intro hempty
    obtain ⟨rfl, -, -⟩ := h'.switch (hempty h) h
    exact h'.data.symm

/-- **Every run with store buffers is a run of the queue**, with the same requests and acquisitions,
and it ends in a state that looks like the queue's. -/
theorem ticketlock_refines (c : Client D S κ) (hn : nthr ≤ 2 ^ 16) (hx : (sys nthr c).Exec ls s) :
    ∃ a, (Spec.sys nthr c).Exec ls a ∧ Looks c s a := by
  obtain ⟨a, ha, hR⟩ := (refines_simulation nthr c hn).exec hx
  exact ⟨a, ha, hR.looks⟩

/-- Two threads do not hold the lock: both would be the first of the queue. -/
theorem Refines.exclusive (hR : Refines nthr c s a) (ht : c.holds (s.pc t) = true)
    (hu : c.holds (s.pc u) = true) : t = u :=
  Option.some.inj ((hR.1.first t (hR.holds ht)).symm.trans (hR.1.first u (hR.holds hu)))

end Refine

/-! ## 2. First come, first served

Requests and acquisitions are labels, so both statements are about the labels of a run. -/

namespace Spec

/-- The threads that have asked for the lock and not got it. -/
def State.waiting (inside : κ → Bool) (a : State D κ) : List Nat :=
  match a.queue with
  | [] => []
  | t :: q => if (a.pc t).holds inside then q else t :: q

section Fifo

variable {a a' : State D κ} {t : Nat} {ls : List Event}

/-- Nothing changes for those who wait when nobody gets or gives back the lock. -/
theorem waiting_goto {k : κ} {d : D} (hpc : c.inside k = (a.pc t).holds c.inside) :
    State.waiting c.inside (⟨d, a.queue, Function.update a.pc t (.run k)⟩ : State D κ) =
      a.waiting c.inside := by
  have hholds : ∀ u, (Function.update a.pc t (.run k) u).holds c.inside =
      (a.pc u).holds c.inside := by
    intro u
    rcases eq_or_ne u t with rfl | hu
    · simp [Pc.holds, hpc]
    · rw [Function.update_of_ne hu]
  unfold State.waiting
  cases a.queue with
  | nil => rfl
  | cons u q => simp only [hholds]

/-- A label is one event or none. -/
theorem filterMap_toList {α β : Type} (f : α → Option β) (o : Option α) :
    o.toList.filterMap f = (o.bind f).toList := by
  cases o with
  | none => rfl
  | some x => cases h : f x <;> simp [h]

/-- **One step of the queue**: those who ask go to the end of it, and the first of them gets the
lock. -/
theorem Inv.waiting_step (h : Inv nthr c a) (hst : a.step c t = some a') :
    a.waiting c.inside ++ ((a.event c t).bind Event.requested).toList =
      ((a.event c t).bind Event.acquired).toList ++ a'.waiting c.inside := by
  cases hpc : a.pc t with
  | run k =>
    have hok := c.code_ok t k
    have hholds : (a.pc t).holds c.inside = c.inside k := by rw [hpc]; rfl
    cases hcode : c.code t k with
    | priv k' =>
      rw [hcode] at hok
      simp only [State.step, hpc, hcode, Option.some.injEq] at hst
      subst hst
      have hsame := waiting_goto (a := a) (d := a.data) (hok.trans hholds.symm)
      simpa [State.event, hpc, hcode, State.goto] using hsame.symm
    -- a request: the thread waits behind the others
    | lock k' =>
      rw [hcode] at hok
      simp only [State.step, hpc, hcode, Option.some.injEq] at hst
      subst hst
      have hmem : t ∉ a.queue := by
        rw [h.mem, hpc, Pc.engaged, hok.1]
        simp
      simp only [State.event, hpc, hcode, Option.bind_some, Event.requested, Event.acquired,
        Option.toList_some, Option.toList_none, List.nil_append]
      unfold State.waiting
      cases hq : a.queue with
      | nil => simp [State.goto, Pc.holds]
      | cons u q =>
        have hu : u ≠ t := by
          rintro rfl
          exact hmem (by rw [hq]; simp)
        simp only [List.cons_append, State.goto, Function.update_of_ne hu]
        split <;> rfl
    | data i =>
      rw [hcode] at hok
      simp only [State.step, hpc, hcode, Option.some.injEq] at hst
      subst hst
      have hsame := waiting_goto (a := a) (d := (i.sc c.store a.data).1)
        (k := (i.sc c.store a.data).2)
        ((hok.2.sc a.data).trans (hok.1.symm.trans hholds.symm))
      simpa [State.event, hpc, hcode, State.goto] using hsame.symm
    -- the holder leaves the queue: it was not waiting, and the others still are
    | unlock k' =>
      rw [hcode] at hok
      simp only [State.step, hpc, hcode, Option.some.injEq] at hst
      subst hst
      have hhead := h.first t (hholds.trans hok.1)
      have hnodup := h.nodup
      simp only [State.event, hpc, hcode, Option.bind_none, Option.toList_none, List.append_nil,
        List.nil_append]
      unfold State.waiting
      cases hq : a.queue with
      | nil => rw [hq] at hhead; cases hhead
      | cons u q =>
        rw [hq] at hhead hnodup
        cases hhead
        simp only [hholds, hok.1, if_true, List.tail_cons]
        cases q with
        | nil => rfl
        | cons v q =>
          -- the next thread does not hold the lock
          have hvu : v ≠ t := by
            rintro rfl
            simp at hnodup
          have hv : (a.pc v).holds c.inside = false := by
            by_contra hv
            have := h.first v (by simpa using hv)
            rw [hq] at this
            exact hvu (Option.some.inj this).symm
          simp [State.goto, Function.update_of_ne hvu, hv]
    | tx f abort =>
      rw [hcode] at hok
      simp only [State.step, hpc, hcode, Option.some.injEq] at hst
      subst hst
      have hsame := waiting_goto (a := a) (d := a.data)
        (hok.2.2.trans (hok.1.symm.trans hholds.symm))
      simpa [State.event, hpc, hcode, State.goto] using hsame.symm
    | halt => simp [State.step, hpc, hcode] at hst
  | wait k =>
    simp only [State.step, hpc] at hst
    split at hst
    · rename_i hhead
      cases hst
      simp only [State.event, hpc, Option.bind_some, Event.requested, Event.acquired,
        Option.toList_some, Option.toList_none, List.append_nil]
      unfold State.waiting
      -- the lock is acquired: the head of the queue waits no longer
      cases hq : a.queue with
      | nil => rw [hq] at hhead; cases hhead
      | cons u q =>
        rw [hq] at hhead
        cases hhead
        simp [hpc, State.goto, hq, Pc.holds, h.wait t k hpc]
    · cases hst

/-- A transaction neither asks nor gets. -/
theorem waiting_commit (hst : a.commit c t = some a') :
    a'.waiting c.inside = a.waiting c.inside := by
  cases hpc : a.pc t with
  | run k =>
    have hok := c.code_ok t k
    cases hcode : c.code t k with
    | tx f abort =>
      rw [hcode] at hok
      simp only [State.commit, hpc, hcode] at hst
      split at hst
      · cases hst
        refine waiting_goto (a := a) ?_
        rw [hpc, Pc.holds]
        exact (hok.2.1 _).trans hok.1.symm
      · cases hst
    | _ => simp [State.commit, hpc, hcode] at hst
  | wait k => simp [State.commit, hpc] at hst

/-- **Every run of the queue**: the requests are the acquisitions, in the same order, and those who
still wait. -/
theorem exec_waiting (hx : (sys nthr c).Exec ls a) :
    ls.filterMap Event.requested = ls.filterMap Event.acquired ++ a.waiting c.inside := by
  induction hx with
  | init hs =>
    cases hs
    rfl
  | @step a a' l ls hx hst ih =>
    have hinv := reach_inv hx.reach
    rw [List.filterMap_append, List.filterMap_append, ih, filterMap_toList, filterMap_toList]
    obtain ⟨t, ht, ⟨rfl, hst⟩ | ⟨rfl, hst⟩⟩ := hst
    · rw [List.append_assoc, hinv.waiting_step hst, List.append_assoc]
    · rw [waiting_commit hst]
      simp

end Fifo

end Spec

section Progress

variable {s : State D S κ} {a : Spec.State D κ} {t u : Nat} {ls : List Event}

/-- A thread with nothing buffered steps, unless it has halted or waits for its turn. -/
theorem step_of_drained (hbuf : s.sbuf t = []) (hstuck : s.step c t = none) :
    (∃ k, s.pc t = .run k ∧ c.code t k = .halt) ∨
      ∃ me k, s.pc t = .wait me k ∧ s.mem.ticket ≠ me := by
  unfold State.step at hstuck
  cases hpc : s.pc t with
  | run k =>
    rw [hpc, hbuf] at hstuck
    cases hcode : c.code t k with
    | halt => exact Or.inl ⟨k, rfl, hcode⟩
    | data i => cases i <;> simp [Client.instr, hcode, lift, Instr.tso] at hstuck
    | _ => simp [Client.instr, hcode, Instr.tso] at hstuck
  | wait me k =>
    refine Or.inr ⟨me, k, rfl, ?_⟩
    rintro rfl
    simp [hpc, hbuf, Client.instr, Instr.tso] at hstuck
  | setTicket x k => simp [hpc, hbuf, Client.instr, Instr.tso] at hstuck

/-- When nothing can move, the holder of the lock has halted, or everybody has.  All stores have
drained, since a drain is a step.  If somebody waits, the first of the queue does not: either its
ticket is served and it could step, or it is inside and has halted. -/
theorem Refines.stuck (hR : Refines nthr c s a)
    (hstuck : ∀ l s', ¬ (sys nthr c).step s l s') :
    (∃ t < nthr, ∃ k, s.pc t = .run k ∧ c.code t k = .halt ∧ c.inside k = true) ∨
      ∀ t < nthr, s.sbuf t = [] ∧ ∃ k, s.pc t = .run k ∧ c.code t k = .halt := by
  have hempty : ∀ t < nthr, s.sbuf t = [] := by
    intro t ht
    cases hb : s.sbuf t with
    | nil => rfl
    | cons st b =>
      exact absurd ⟨t, ht, Or.inr ⟨rfl, Or.inl (by rw [State.drain, hb])⟩⟩ (hstuck none _)
  have hnone : ∀ t < nthr, s.step c t = none := by
    intro t ht
    cases hst : s.step c t with
    | none => rfl
    | some s' => exact absurd ⟨t, ht, Or.inl ⟨rfl, hst⟩⟩ (hstuck _ s')
  have hplace : ∀ t < nthr, (∃ k, s.pc t = .run k ∧ c.code t k = .halt) ∨
      ∃ me k, s.pc t = .wait me k ∧ s.mem.ticket ≠ me :=
    fun t ht => step_of_drained (hempty t ht) (hnone t ht)
  obtain ⟨ha, n, h, ds, b, h'⟩ := hR
  cases hq : a.queue with
  | nil =>
    -- nobody waits
    refine Or.inr (fun t ht => ⟨hempty t ht, (hplace t ht).resolve_right ?_⟩)
    rintro ⟨me, k, hpc, -⟩
    have hwait := h'.pc t
    rw [hpc] at hwait
    have hmem := (ha.mem t).mpr (by rw [show a.pc t = .wait k from hwait]; rfl)
    rw [hq] at hmem
    cases hmem
  | cons u q =>
    -- the first of the queue has halted with the lock, or its ticket is served
    have hmem : u ∈ a.queue := by rw [hq]; simp
    have hlt := ha.lt u hmem
    have hpc' := h'.pc u
    rcases hplace u hlt with ⟨k, hpc, hcode⟩ | ⟨me, k, hpc, hne⟩
    · rw [hpc] at hpc'
      have hin := (ha.mem u).mp hmem
      rw [show a.pc u = .run k from hpc'] at hin
      exact Or.inl ⟨u, hlt, k, hpc, hcode, hin⟩
    · refine absurd ?_ hne
      have hfree : b = false := by
        cases b with
        | false => rfl
        | true =>
          have := h'.buf
          rw [hempty h (h'.out rfl).2] at this
          simp at this
      subst hfree
      have hme := h'.me 0 u me k (by simp [tickets, hq]) hpc
      rw [hme, h'.ticket]
      rfl

end Progress

/-- **First come, first served, and no deadlock.**  In every run the lock is acquired in the order of
the requests; when no thread ends with the lock, a run in which nothing can move any more has come to
the end of all threads, with all stores drained. -/
theorem ticketlock_fifo (c : Client D S κ) (hn : nthr ≤ 2 ^ 16) {ls : List Event} {s : State D S κ}
    (hx : (sys nthr c).Exec ls s) :
    ls.filterMap Event.acquired <+: ls.filterMap Event.requested ∧
      ((∀ t k, c.code t k = .halt → c.inside k = false) →
        (∀ l s', ¬ (sys nthr c).step s l s') →
          ∀ t < nthr, s.sbuf t = [] ∧ ∃ k, s.pc t = .run k ∧ c.code t k = .halt) := by
  obtain ⟨a, ha, hR⟩ := (refines_simulation nthr c hn).exec hx
  refine ⟨⟨_, (Spec.exec_waiting ha).symm⟩, ?_⟩
  intro hhalt hstuck
  rcases hR.stuck hstuck with ⟨t, -, k, -, hcode, hin⟩ | hend
  · rw [hhalt t k hcode] at hin
    cases hin
  · exact hend

/-! ## 3. A client

Two threads that count under the lock, with a schedule in which the second to ask is the lower one.
-/

/-- Where a thread of `incr` is. -/
inductive Loc
  | start
  | read
  | write (n : Nat)
  | unlock
  | finished
deriving DecidableEq, Repr

/-- It holds the lock. -/
def Loc.inside : Loc → Bool
  | .read | .write _ | .unlock => true
  | .start | .finished => false

/-- Lock, load, store, unlock. -/
def Loc.op : Loc → Op Nat Nat Loc
  | .start => .lock .read
  | .read => .data (.load fun n => .write n)
  | .write n => .data (.store (n + 1) .unlock)
  | .unlock => .unlock .finished
  | .finished => .halt

/-- Every thread adds 1 to a counter, with the lock held. -/
def incr : Client Nat Nat Loc where
  store _ n := n
  data₀ := 0
  start _ := .start
  code _ := Loc.op
  inside := Loc.inside
  start_out _ := rfl
  code_ok := by
    intro _ k
    cases k with
    | read => exact ⟨rfl, fun _ => rfl⟩
    | finished => trivial
    | _ => exact ⟨rfl, rfl⟩

/-- What a thread does next. -/
inductive Act
  | step (t : Nat)
  | drain (t : Nat)
  | commit (t : Nat)
deriving DecidableEq, Repr

def Act.tid : Act → Nat
  | .step t => t
  | .drain t => t
  | .commit t => t

/-- One step of a schedule, with its label. -/
def act (c : Client D S κ) (s : State D S κ) : Act → Option (Option Event × State D S κ)
  | .step t => (s.step c t).map fun s' => (c.event t (s.pc t), s')
  | .drain t => (s.drain c t).map fun s' => (none, s')
  | .commit t => (s.commit c t).map fun s' => (none, s')

/-- A step of a schedule is a step of the system. -/
theorem step_act {s s' : State D S κ} {a : Act} {l : Option Event} (hlt : a.tid < nthr)
    (h : act c s a = some (l, s')) : (sys nthr c).step s l s' := by
  cases a with
  | step t =>
    obtain ⟨s₁, hst, heq⟩ := Option.map_eq_some_iff.mp h
    cases heq
    exact ⟨t, hlt, Or.inl ⟨rfl, hst⟩⟩
  | drain t =>
    obtain ⟨s₁, hst, heq⟩ := Option.map_eq_some_iff.mp h
    cases heq
    exact ⟨t, hlt, Or.inr ⟨rfl, Or.inl hst⟩⟩
  | commit t =>
    obtain ⟨s₁, hst, heq⟩ := Option.map_eq_some_iff.mp h
    cases heq
    exact ⟨t, hlt, Or.inr ⟨rfl, Or.inr hst⟩⟩

/-- Thread 1 asks first; thread 0 gets the lock when the stores of thread 1 have drained. -/
def incrSched : List Act :=
  [.step 1, .step 0] ++ List.replicate 5 (.step 1) ++ [.drain 1, .drain 1] ++
    List.replicate 5 (.step 0) ++ [.drain 0, .drain 0]

/-- Where it ends. -/
def incrEnd : State Nat Nat Loc :=
  ((Trans.runSched (act incr) incrSched (.initial incr)).map Prod.snd).getD (.initial incr)

/-- That run, with its labels. -/
theorem incr_exec : (sys 2 incr).Exec
    [.request 1, .request 0, .acquire 1, .acquire 0] incrEnd := by
  have hlabels : (Trans.runSched (act incr) incrSched (.initial incr)).map Prod.fst =
      some [.request 1, .request 0, .acquire 1, .acquire 0] := by decide
  have hlt : ∀ a ∈ incrSched, a.tid < 2 := by decide
  exact Trans.Sys.exec_end (fun a ha _ _ _ h => step_act (hlt a ha) h) rfl hlabels

/-- Both threads have counted. -/
theorem ticketlock_refines_incr : incrEnd.mem.data = 2 ∧
    ∃ a, (Spec.sys 2 incr).Exec [.request 1, .request 0, .acquire 1, .acquire 0] a ∧
      Looks incr incrEnd a :=
  ⟨rfl, ticketlock_refines incr (by decide) incr_exec⟩

/-- Nothing can move there. -/
theorem incr_stuck (l : Option Event) (s' : State Nat Nat Loc) :
    ¬ (sys 2 incr).step incrEnd l s' := by
  rintro ⟨t, ht, ⟨-, hst⟩ | ⟨-, hst | hst⟩⟩
  all_goals
    match t, ht with
    | 0, _ => cases hst
    | 1, _ => cases hst

/-- A thread of `incr` halts without the lock. -/
theorem incr_halt (t : Nat) (k : Loc) (h : incr.code t k = .halt) : incr.inside k = false := by
  cases k with
  | finished => rfl
  | _ => cases h

/-- The two have come to their ends, in the order in which they asked. -/
theorem ticketlock_fifo_incr :
    [Event.request 1, .request 0, .acquire 1, .acquire 0].filterMap Event.acquired <+:
      [Event.request 1, .request 0, .acquire 1, .acquire 0].filterMap Event.requested ∧
    ∀ t < 2, incrEnd.sbuf t = [] ∧ ∃ k, incrEnd.pc t = .run k ∧ incr.code t k = .halt := by
  have h := ticketlock_fifo incr (by decide : 2 ≤ 2 ^ 16) incr_exec
  exact ⟨h.1, h.2 incr_halt incr_stuck⟩

/-! ## 4. How many threads

The states in which the first threads have asked, one after the other, and none has gone on.  When
2^16 have asked, `users` is 0 again. -/

section Crowd

/-- The first `n` threads have asked for the lock. -/
def crowd (n : Nat) : State Nat Nat Loc where
  mem := ⟨0, 0, BitVec.ofNat 16 n⟩
  sbuf _ := []
  pc t := if t < n then .wait (BitVec.ofNat 16 t) .read else .run .start

/-- The next thread asks, and draws its number modulo 2^16. -/
theorem crowd_succ (n : Nat) : (crowd n).step incr n = some (crowd (n + 1)) := by
  have hpc : (crowd n).pc n = .run .start := if_neg (Nat.lt_irrefl n)
  have hpcs : Function.update (crowd n).pc n (.wait (BitVec.ofNat 16 n) .read) =
      (crowd (n + 1)).pc := by
    funext t
    rcases eq_or_ne t n with rfl | ht
    · simp [crowd]
    · rw [Function.update_of_ne ht]
      simp only [crowd]
      congr 1
      exact propext ⟨fun h => by omega, fun h => by omega⟩
  have hstep : (crowd n).step incr n = some ⟨⟨0, 0, BitVec.ofNat 16 n + 1⟩,
      Function.update (crowd n).sbuf n [],
      Function.update (crowd n).pc n (.wait (BitVec.ofNat 16 n) .read)⟩ := by
    unfold State.step
    rw [hpc]
    rfl
  rw [hstep, hpcs, ticket_succ]
  simp [crowd]

/-- Any number of threads may have asked. -/
theorem reach_crowd {n : Nat} (hn : n ≤ nthr) : (sys nthr incr).Reach (crowd n) := by
  induction n with
  | zero => exact .init rfl
  | succ n ih => exact .step (ih (by omega)) ⟨n, by omega, Or.inl ⟨rfl, crowd_succ n⟩⟩

/-- In a crowd of more than 2^16 two threads have ticket 0, and both go on. -/
theorem crowd_both (h : 2 ^ 16 < nthr) :
    ∃ s, (sys nthr incr).Reach s ∧ incr.holds (s.pc 0) = true ∧ incr.holds (s.pc (2 ^ 16)) = true := by
  have hs := reach_crowd (n := 2 ^ 16 + 1) h
  generalize hcrowd : crowd (2 ^ 16 + 1) = s at hs
  have hwait : ∀ t, t = 0 ∨ t = 2 ^ 16 → s.pc t = .wait s.mem.ticket .read := by
    rintro t (rfl | rfl) <;> rw [← hcrowd] <;> rfl
  have hbuf : ∀ t, s.sbuf t = [] := by
    intro t
    rw [← hcrowd]
    rfl
  have hne : (2 : Nat) ^ 16 ≠ 0 := by decide
  have hpc : Function.update s.pc 0 (.run .read) (2 ^ 16) = .wait s.mem.ticket .read := by
    rw [Function.update_of_ne hne]
    exact hwait _ (Or.inr rfl)
  have hs₁ : (sys nthr incr).Reach { s with
      sbuf := Function.update s.sbuf 0 []
      pc := Function.update s.pc 0 (.run .read) } := by
    refine hs.step (l := some (.acquire 0)) ⟨0, by omega, Or.inl ⟨?_, ?_⟩⟩
    · rw [hwait 0 (Or.inl rfl)]
      rfl
    · simp [State.step, hwait 0 (Or.inl rfl), hbuf, Client.instr, Instr.tso]
  have hs₂ : (sys nthr incr).Reach { s with
      sbuf := Function.update (Function.update s.sbuf 0 []) (2 ^ 16) []
      pc := Function.update (Function.update s.pc 0 (.run .read)) (2 ^ 16) (.run .read) } := by
    refine hs₁.step (l := some (.acquire (2 ^ 16))) ⟨2 ^ 16, h, Or.inl ⟨?_, ?_⟩⟩
    · simp only [hpc]
      rfl
    · simp only [State.step, hpc, Function.update_of_ne hne, hbuf, Client.instr, Instr.tso, view_nil,
        ne_eq, not_true_eq_false, if_false]
  refine ⟨_, hs₂, ?_, ?_⟩
  · simp [incr, Client.holds, Loc.inside]
  · simp [incr, Client.holds, Loc.inside]

end Crowd

/-- **The lock excludes up to 2^16 threads**: then two threads never hold it, in any run of any client;
with one thread more they can. -/
theorem ticketlock_exclusive_iff (nthr : Nat) :
    (∀ (D S κ : Type) (c : Client D S κ) (ls : List Event) (s : State D S κ),
      (sys nthr c).Exec ls s → ∀ t u, c.holds (s.pc t) = true → c.holds (s.pc u) = true → t = u) ↔
      nthr ≤ 2 ^ 16 := by
  constructor
  · intro hex
    by_contra hgt
    obtain ⟨s, hs, h0, h1⟩ := crowd_both (by omega : 2 ^ 16 < nthr)
    obtain ⟨ls, hx⟩ := hs.exec
    have := hex _ _ _ incr ls s hx 0 (2 ^ 16) h0 h1
    omega
  · intro hn D S κ c ls s hx t u ht hu
    obtain ⟨a, -, hR⟩ := (refines_simulation nthr c hn).exec hx
    exact hR.exclusive ht hu

end MemOrder.TicketLock
