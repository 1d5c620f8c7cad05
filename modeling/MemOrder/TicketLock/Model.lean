/-
# `ticket-spinlock.h` on x86-TSO

`ticket_lock` takes a ticket, a locked add on `users`, and waits until `ticket` is its own;
`ticket_unlock` is `ticket++`, a load and a plain store; `ticket_lockable` compares the two counters,
read together.  The counters are 16 bits wide.

A CLIENT is the program around the lock.  Its shared data are touched in two ways: by loads and stores
between `ticket_lock` and `ticket_unlock`, and by transactions that commit only while the lock is
`ticket_lockable`.  A committed transaction takes effect as one step, once the stores before it have
drained.

§3 is the lock as it is meant: a queue, and data without store buffers.
-/
import MemOrder.Lib.Trans
import MemOrder.Lib.Tso

namespace MemOrder.TicketLock

open Tso

variable {D S κ : Type}

/-! ## 1. Clients -/

/-- What a thread of a client does next; `D` is the shared data, `S` a store to it, `κ` the thread's
own state. -/
inductive Op (D S κ : Type)
  /-- A step that looks at nothing shared. -/
  | priv (k : κ)
  | lock (k : κ)
  /-- A load, a store or a fence, with the lock held. -/
  | data (i : Instr D S κ)
  | unlock (k : κ)
  /-- A transaction, and where it goes when it aborts. -/
  | tx (f : D → D × κ) (abort : κ)
  | halt

/-- The operation is used as intended by a thread that holds the lock or not. -/
def Op.Ok (inside : κ → Bool) (holds : Bool) : Op D S κ → Prop
  | .priv k => inside k = holds
  | .lock k => holds = false ∧ inside k = true
  | .data i => holds = true ∧ i.All (fun k => inside k = true)
  | .unlock k => holds = true ∧ inside k = false
  | .tx f abort => holds = false ∧ (∀ d, inside (f d).2 = false) ∧ inside abort = false
  | .halt => True

structure Client (D S κ : Type) where
  /-- A store takes place. -/
  store : D → S → D
  data₀ : D
  start : Nat → κ
  code : Nat → κ → Op D S κ
  /-- The thread holds the lock. -/
  inside : κ → Bool
  start_out : ∀ t, inside (start t) = false
  code_ok : ∀ t k, (code t k).Ok inside (inside k)

/-- The requests and acquisitions of the lock. -/
inductive Event
  | request (tid : Nat)
  | acquire (tid : Nat)
deriving DecidableEq, Repr

def Event.requested : Event → Option Nat
  | .request t => some t
  | .acquire _ => none

def Event.acquired : Event → Option Nat
  | .request _ => none
  | .acquire t => some t

/-! ## 2. The code -/

/-- The client's data and `union ticketlock`. -/
structure Mem (D : Type) where
  data : D
  ticket : BitVec 16
  users : BitVec 16

inductive Store (S : Type)
  | data (st : S)
  | ticket (x : BitVec 16)
  /-- `atomic_xadd(&t->s.users, 1)`. -/
  | take

/-- Where a thread is. -/
inductive Pc (κ : Type)
  /-- In the client. -/
  | run (k : κ)
  /-- `while (t->s.ticket != me)`. -/
  | wait (me : BitVec 16) (k : κ)
  /-- The store of `t->s.ticket++`. -/
  | setTicket (x : BitVec 16) (k : κ)

namespace Client

variable (c : Client D S κ)

def apply (m : Mem D) : Store S → Mem D
  | .data st => { m with data := c.store m.data st }
  | .ticket x => { m with ticket := x }
  | .take => { m with users := m.users + 1 }

end Client

/-- An instruction of the client. -/
def lift : Instr D S κ → Instr (Mem D) (Store S) (Option (Pc κ))
  | .load k => .load fun m => some (.run (k m.data))
  | .store st k => .store (.data st) (some (.run k))
  | .xchg st k => .xchg (.data st) fun m => some (.run (k m.data))
  | .fence k => .fence (some (.run k))

namespace Client

variable (c : Client D S κ)

/-- The instruction of thread `t` at a place; it leads to the next place, or to one more turn of the
wait loop.  Where a step looks at nothing shared it is a load that is not used. -/
def instr (t : Nat) : Pc κ → Option (Instr (Mem D) (Store S) (Option (Pc κ)))
  | .run k =>
    match c.code t k with
    | .priv k' => some <| .load fun _ => some (.run k')
    | .lock k' => some <| .xchg .take fun m => some (.wait m.users k')
    | .data i => some (lift i)
    | .unlock k' => some <| .load fun m => some (.setTicket (m.ticket + 1) k')
    | .tx _ abort => some <| .load fun _ => some (.run abort)
    | .halt => none
  | .wait me k => some <| .load fun m => if m.ticket ≠ me then none else some (.run k)
  | .setTicket x k => some <| .store (.ticket x) (some (.run k))

/-- What the instruction at a place says to the outside. -/
def event (t : Nat) : Pc κ → Option Event
  | .run k =>
    match c.code t k with
    | .lock _ => some (.request t)
    | _ => none
  | .wait _ _ => some (.acquire t)
  | .setTicket _ _ => none

/-- The thread is past `ticket_lock`, and `ticket_unlock` has not returned. -/
def holds : Pc κ → Bool
  | .run k => c.inside k
  | .wait _ _ => false
  | .setTicket _ _ => true

end Client

structure State (D S κ : Type) where
  mem : Mem D
  sbuf : Nat → List (Store S)
  pc : Nat → Pc κ

namespace State

variable (c : Client D S κ) (s : State D S κ) (t : Nat)

/-- Thread `t` executes the instruction it is at. -/
def step : Option (State D S κ) :=
  match c.instr t (s.pc t) with
  | none => none
  | some i =>
    match i.tso c.apply s.mem (s.sbuf t) with
    | some (m, b, some pc) =>
      some ⟨m, Function.update s.sbuf t b, Function.update s.pc t pc⟩
    | _ => none

/-- The oldest store of thread `t` reaches memory. -/
def drain : Option (State D S κ) :=
  match s.sbuf t with
  | [] => none
  | st :: b => some { s with mem := c.apply s.mem st, sbuf := Function.update s.sbuf t b }

/-- The transaction of thread `t` finds the lock `ticket_lockable`, and commits. -/
def commit : Option (State D S κ) :=
  match s.pc t with
  | .run k =>
    match c.code t k with
    | .tx f _ =>
      if s.sbuf t = [] ∧ s.mem.ticket = s.mem.users then
        some { s with
          mem := { s.mem with data := (f s.mem.data).1 }
          pc := Function.update s.pc t (.run (f s.mem.data).2) }
      else none
    | _ => none
  | _ => none

end State

/-- Nobody holds the lock; `TICKET_SPINLOCK_INITIALIZER`. -/
def State.initial (c : Client D S κ) : State D S κ :=
  ⟨⟨c.data₀, 0, 0⟩, fun _ => [], fun t => .run (c.start t)⟩

/-- `nthr` threads: any interleaving of instructions, drains and commits. -/
def sys (nthr : Nat) (c : Client D S κ) : Trans.Sys (State D S κ) Event where
  init s := s = .initial c
  step s l s' := ∃ t < nthr, (l = c.event t (s.pc t) ∧ s.step c t = some s') ∨
    (l = none ∧ (s.drain c t = some s' ∨ s.commit c t = some s'))

/-! ## 3. What the lock is for -/

namespace Spec

inductive Pc (κ : Type)
  | run (k : κ)
  | wait (k : κ)

/-- The data, and the threads that have asked for the lock, the one that has it or may take it
first. -/
structure State (D κ : Type) where
  data : D
  queue : List Nat
  pc : Nat → Pc κ

namespace State

variable (c : Client D S κ) (a : State D κ) (t : Nat)

def goto (pc : Pc κ) : State D κ := { a with pc := Function.update a.pc t pc }

/-- One step of thread `t`. -/
def step : Option (State D κ) :=
  match a.pc t with
  | .run k =>
    match c.code t k with
    | .priv k' => some (a.goto t (.run k'))
    | .lock k' => some { a.goto t (.wait k') with queue := a.queue ++ [t] }
    | .data i =>
      some { a.goto t (.run (i.sc c.store a.data).2) with data := (i.sc c.store a.data).1 }
    | .unlock k' => some { a.goto t (.run k') with queue := a.queue.tail }
    | .tx _ abort => some (a.goto t (.run abort))
    | .halt => none
  | .wait k => if a.queue.head? = some t then some (a.goto t (.run k)) else none

/-- A transaction commits while nobody has asked for the lock. -/
def commit : Option (State D κ) :=
  match a.pc t with
  | .run k =>
    match c.code t k with
    | .tx f _ =>
      if a.queue = [] then
        some { a.goto t (.run (f a.data).2) with data := (f a.data).1 }
      else none
    | _ => none
  | _ => none

def event : Option Event :=
  match a.pc t with
  | .run k =>
    match c.code t k with
    | .lock _ => some (.request t)
    | _ => none
  | .wait _ => some (.acquire t)

end State

def State.initial (c : Client D S κ) : State D κ := ⟨c.data₀, [], fun t => .run (c.start t)⟩

def sys (nthr : Nat) (c : Client D S κ) : Trans.Sys (State D κ) Event where
  init a := a = .initial c
  step a l a' := ∃ t < nthr, (l = a.event c t ∧ a.step c t = some a') ∨
    (l = none ∧ a.commit c t = some a')

/-- The thread has asked for the lock and not given it back. -/
def Pc.engaged (inside : κ → Bool) : Pc κ → Bool
  | .run k => inside k
  | .wait _ => true

end Spec

end MemOrder.TicketLock
