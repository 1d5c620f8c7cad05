/-
# The ticket lock is a queue

The lock of `ticket-spinlock.h` with store buffers refines the queue of `Spec`.  A thread that asks
draws a ticket from `users` with a locked `xadd` and spins until `ticket` is its own; giving the
lock back is `ticket++`, a plain load and a plain store; `ticket_lockable` compares the two
counters.  On the other side `ticket_lock` puts the thread at the end of a queue, the first of the
queue may go on, and giving back takes it off.  This file is the simulation, `refines_simulation`;
what it is good for is in `Fifo.lean`.

**Which tickets are out.**  The threads that have asked have consecutive tickets from the value of
`ticket` in memory on (`Rel.me`, `Rel.users`), in the order of the queue.  They are different
threads, at most 2^16 of them, so the 16-bit tickets differ (`ticket_inj`): a waiting thread that
sees its ticket is the first (`Rel.of_wait`), and equal counters mean that nobody has asked
(`Rel.lockable`).

**What is buffered.**  At any time one thread at most, the HOLDER, has stores in its buffer, and it
is the first that has asked.  The store to `ticket` is its last one: until that store drains the
next thread waits and no transaction commits, and when it drains all data of the holder are in
memory.  On the side of the queue the lock is given back when the store is made, not when it drains;
so for a while the tickets that are out are those of the queue and that of the last holder
(`tickets`, `released`), and the lock is nobody's (`Rel.not_holds`).
-/
import MemOrder.TicketLock.Model

namespace MemOrder.TicketLock

open Tso

variable {D S κ : Type} {nthr : Nat} {c : Client D S κ}

/-! ## 1. The queue

The specification's own invariant: the queue has exactly the threads that are waiting or inside,
each once, and whoever is inside is its first.  The client's code is assumed to be bracketed
(`Client.code_ok`), which is what ties the queue to the client's places. -/

namespace Spec

/-- The thread is past `ticket_lock`. -/
def Pc.holds (inside : κ → Bool) : Pc κ → Bool
  | .run k => inside k
  | .wait _ => false

/-- Threads in the queue are those that have asked and not given back; the one that is inside is the
first. -/
structure Inv (nthr : Nat) (c : Client D S κ) (a : State D κ) : Prop where
  nodup : a.queue.Nodup
  lt : ∀ t ∈ a.queue, t < nthr
  mem : ∀ t, t ∈ a.queue ↔ (a.pc t).engaged c.inside = true
  first : ∀ t, (a.pc t).holds c.inside = true → a.queue.head? = some t
  wait : ∀ t k, a.pc t = .wait k → c.inside k = true

section Inv

variable {a a' : State D κ} {t u : Nat} {k : κ} {d : D}

/-- At the start nobody has asked. -/
theorem inv_initial : Inv nthr c (State.initial c) := by
  refine ⟨List.nodup_nil, by simp [State.initial], ?_, ?_, ?_⟩
  · intro t
    simp [State.initial, Pc.engaged, c.start_out]
  · intro t ht
    rw [State.initial, Pc.holds, c.start_out] at ht
    cases ht
  · intro t k hpc
    cases hpc

/-- A step of thread `t` that leaves the queue alone. -/
theorem Inv.goto (h : Inv nthr c a) (heng : (a.pc t).engaged c.inside = c.inside k)
    (hfirst : c.inside k = true → a.queue.head? = some t) :
    Inv nthr c ⟨d, a.queue, Function.update a.pc t (.run k)⟩ := by
  refine ⟨h.nodup, h.lt, ?_, ?_, ?_⟩
  · intro u
    rcases eq_or_ne u t with rfl | hu
    · rw [h.mem u, heng]
      simp [Pc.engaged]
    · simpa [Function.update_of_ne hu] using h.mem u
  · intro u hhold
    rcases eq_or_ne u t with rfl | hu
    · simp only [Function.update_self] at hhold
      exact hfirst hhold
    · simp only [Function.update_of_ne hu] at hhold
      exact h.first u hhold
  · intro u k' hpc
    rcases eq_or_ne u t with rfl | hu
    · simp at hpc
    · simp only [Function.update_of_ne hu] at hpc
      exact h.wait u k' hpc

/-- `ticket_lock` begins. -/
theorem Inv.lock (h : Inv nthr c a) (ht : t < nthr) (hout : (a.pc t).engaged c.inside = false)
    (hin : c.inside k = true) : Inv nthr c { a.goto t (.wait k) with queue := a.queue ++ [t] } := by
  -- it asks once: a thread that is outside is not in the queue
  have hmem : t ∉ a.queue := by
    rw [h.mem, hout]
    simp
  refine ⟨?_, ?_, ?_, ?_, ?_⟩
  · exact h.nodup.append (List.nodup_singleton t) (by simpa using hmem)
  · intro u hu
    rcases List.mem_append.mp hu with hu | hu
    · exact h.lt u hu
    · rw [List.mem_singleton.mp hu]
      exact ht
  · intro u
    rcases eq_or_ne u t with rfl | hu
    · simp [State.goto, Pc.engaged]
    · simpa [State.goto, Function.update_of_ne hu, hu] using h.mem u
  · intro u hhold
    rcases eq_or_ne u t with rfl | hu
    · simp [State.goto, Pc.holds] at hhold
    · simp only [State.goto, Function.update_of_ne hu] at hhold
      simp [List.head?_append, h.first u hhold]
  · intro u k' hpc
    rcases eq_or_ne u t with rfl | hu
    · simp only [State.goto, Function.update_self, Pc.wait.injEq] at hpc
      rw [← hpc]
      exact hin
    · simp only [State.goto, Function.update_of_ne hu] at hpc
      exact h.wait u k' hpc

/-- The first thread gives the lock back. -/
theorem Inv.unlock (h : Inv nthr c a) (hhead : a.queue.head? = some t) (hout : c.inside k = false) :
    Inv nthr c { a.goto t (.run k) with queue := a.queue.tail } := by
  obtain ⟨q, hq⟩ : ∃ q, a.queue = t :: q := by
    cases hq : a.queue with
    | nil => rw [hq] at hhead; cases hhead
    | cons u q =>
      rw [hq] at hhead
      cases hhead
      exact ⟨q, rfl⟩
  -- the head occurs once, so it is not in the rest
  have hnodup := h.nodup
  rw [hq, List.nodup_cons] at hnodup
  refine ⟨?_, ?_, ?_, ?_, ?_⟩
  · simpa [State.goto, hq] using hnodup.2
  · intro u hu
    exact h.lt u (List.mem_of_mem_tail hu)
  · intro u
    have hmem := h.mem u
    rcases eq_or_ne u t with rfl | hu
    · simp [State.goto, hq, Pc.engaged, hout, hnodup.1]
    · simpa [State.goto, hq, Function.update_of_ne hu, hu] using hmem
  · intro u hhold
    rcases eq_or_ne u t with rfl | hu
    · simp [State.goto, Pc.holds, hout] at hhold
    · -- nobody else held the lock
      simp only [State.goto, Function.update_of_ne hu] at hhold
      have := h.first u hhold
      rw [hhead] at this
      exact absurd (Option.some.inj this).symm hu
  · intro u k' hpc
    rcases eq_or_ne u t with rfl | hu
    · simp [State.goto] at hpc
    · simp only [State.goto, Function.update_of_ne hu] at hpc
      exact h.wait u k' hpc

/-- **A step keeps the queue's invariant**, by cases on the client's instruction. -/
theorem Inv.step (h : Inv nthr c a) (ht : t < nthr) (hst : a.step c t = some a') :
    Inv nthr c a' := by
  cases hpc : a.pc t with
  | run k =>
    have hok := c.code_ok t k
    have hfirst := h.first t
    rw [hpc] at hfirst
    cases hcode : c.code t k with
    | priv k' =>
      rw [hcode] at hok
      simp only [State.step, hpc, hcode, Option.some.injEq] at hst
      subst hst
      refine h.goto ?_ (fun hin => hfirst (hok.symm.trans hin))
      rw [hpc]
      exact hok.symm
    | lock k' =>
      rw [hcode] at hok
      simp only [State.step, hpc, hcode, Option.some.injEq] at hst
      subst hst
      refine h.lock ht ?_ hok.2
      rw [hpc]
      exact hok.1
    | data i =>
      rw [hcode] at hok
      simp only [State.step, hpc, hcode, Option.some.injEq] at hst
      subst hst
      refine h.goto ?_ (fun _ => hfirst hok.1)
      rw [hpc]
      exact hok.1.trans (hok.2.sc a.data).symm
    | unlock k' =>
      rw [hcode] at hok
      simp only [State.step, hpc, hcode, Option.some.injEq] at hst
      subst hst
      -- the head of the queue leaves it
      exact h.unlock (hfirst hok.1) hok.2
    | tx f abort =>
      rw [hcode] at hok
      simp only [State.step, hpc, hcode, Option.some.injEq] at hst
      subst hst
      refine h.goto ?_ (fun hin => absurd hin (by simp [hok.2.2]))
      rw [hpc]
      exact hok.1.trans hok.2.2.symm
    | halt => simp [State.step, hpc, hcode] at hst
  | wait k =>
    simp only [State.step, hpc] at hst
    split at hst
    · rename_i hhead
      cases hst
      refine h.goto ?_ (fun _ => hhead)
      rw [hpc, h.wait t k hpc]
      rfl
    · cases hst

/-- A transaction is outside the lock and leaves the queue alone. -/
theorem Inv.commit (h : Inv nthr c a) (hst : a.commit c t = some a') : Inv nthr c a' := by
  cases hpc : a.pc t with
  | run k =>
    have hok := c.code_ok t k
    cases hcode : c.code t k with
    | tx f abort =>
      rw [hcode] at hok
      simp only [State.commit, hpc, hcode] at hst
      split at hst
      · cases hst
        refine h.goto ?_ (fun hin => absurd hin (by simp [hok.2.1]))
        rw [hpc]
        exact hok.1.trans (hok.2.1 _).symm
      · cases hst
    | _ => simp [State.commit, hpc, hcode] at hst
  | wait k => simp [State.commit, hpc] at hst

/-- The queue's invariant in every reachable state. -/
theorem reach_inv (h : (sys nthr c).Reach a) : Inv nthr c a := by
  refine Trans.Sys.reach_of_inductive (I := Inv nthr c) ?_ ?_ h
  · rintro a rfl
    exact inv_initial
  · rintro a l a' - ih ⟨t, ht, ⟨-, hst⟩ | ⟨-, hst⟩⟩
    · exact ih.step ht hst
    · exact ih.commit hst

end Inv

end Spec

/-! ## 2. Tickets

Tickets are counted in `Nat` here and cut to 16 bits where the code has them.  The bound on the
number of threads is used in `ticket_inj` only. -/

section Tickets

/-- Fewer than 2^16 tickets from `n` on differ. -/
theorem ticket_inj {n i : Nat} (h : BitVec.ofNat 16 (n + i) = BitVec.ofNat 16 n) (hi : i < 2 ^ 16) :
    i = 0 := by
  have := congrArg BitVec.toNat h
  simp only [BitVec.toNat_ofNat] at this
  omega

/-- `ticket++` and the `xadd` wrap. -/
theorem ticket_succ (n : Nat) : BitVec.ofNat 16 n + 1 = BitVec.ofNat 16 (n + 1) := by
  rw [BitVec.ofNat_add]
  rfl

/-- There are no more than `n` different threads. -/
theorem queue_length_le {q : List Nat} {n : Nat} (hq : q.Nodup) (hlt : ∀ t ∈ q, t < n) :
    q.length ≤ n := by
  have hsub : q ⊆ List.range n := fun t ht => List.mem_range.mpr (hlt t ht)
  simpa using (hq.subperm hsub).length_le

/-- An entry of a list with one more at the end. -/
theorem getElem?_snoc {l : List Nat} {x y i : Nat} (h : (l ++ [x])[i]? = some y) :
    l[i]? = some y ∨ i = l.length ∧ y = x := by
  rw [List.getElem?_append] at h
  split at h
  · exact Or.inl h
  · obtain ⟨hlt, hx⟩ := List.getElem?_eq_some_iff.mp h
    rw [List.length_singleton] at hlt
    refine Or.inr ⟨by omega, ?_⟩
    simpa using hx.symm

end Tickets

/-! ## 3. The relation

The ghost parameters of `Rel` are the number `n` of the ticket that is served, the holder `h`, the
data stores in its buffer, and whether its store to `ticket` is there too.  They are not functions
of the state: with empty buffers any thread will do for `h` (`Rel.switch`), which is how the next
holder takes over. -/

/-- The places of thread `t`.  The queue gives the lock back when the new value of `ticket` is
stored. -/
def PcRel (c : Client D S κ) (n t : Nat) : Pc κ → Spec.Pc κ → Prop
  | .run k, pc => pc = .run k
  | .wait _ k, pc => pc = .wait k
  | .setTicket x k, pc => x = BitVec.ofNat 16 (n + 1) ∧ ∃ k', pc = .run k' ∧ c.code t k' = .unlock k

/-- The threads that have tickets not below `ticket`: with the store to `ticket` still in its buffer
the holder is one. -/
def tickets (released : Bool) (h : Nat) (queue : List Nat) : List Nat :=
  if released then h :: queue else queue

/-- The state `s` with store buffers and the state `a` of the queue: `ticket` is `n`, and `ds` are the
data stores in the buffer of the holder `h`, who has given back the lock or not. -/
structure Rel (nthr : Nat) (c : Client D S κ) (n h : Nat) (ds : List S) (released : Bool) (s : State D S κ)
    (a : Spec.State D κ) : Prop where
  pc : ∀ t, PcRel c n t (s.pc t) (a.pc t)
  others : ∀ t, t ≠ h → s.sbuf t = []
  buf : s.sbuf h = ds.map .data ++ if released then [.ticket (BitVec.ofNat 16 (n + 1))] else []
  holder : s.sbuf h ≠ [] → (tickets released h a.queue).head? = some h ∧ ∀ k, a.pc h ≠ .wait k
  out : released = true → h ∉ a.queue ∧ h < nthr
  data : a.data = view c.store s.mem.data ds
  ticket : s.mem.ticket = BitVec.ofNat 16 n
  users : s.mem.users = BitVec.ofNat 16 (n + (tickets released h a.queue).length)
  me : ∀ i t me k, (tickets released h a.queue)[i]? = some t → s.pc t = .wait me k →
    me = BitVec.ofNat 16 (n + i)
  tail : ∀ i t, (tickets released h a.queue)[i + 1]? = some t → ∃ k, a.pc t = .wait k

section Rel

variable {n h t : Nat} {ds : List S} {b : Bool} {s s' : State D S κ} {a a' : Spec.State D κ}
  {p : Pc κ} {q : Spec.Pc κ}

/-- At the start ticket 0 is served and nobody has one. -/
theorem rel_initial : Rel nthr c 0 0 [] false (State.initial c) (Spec.State.initial c) := by
  refine ⟨fun t => rfl, fun t _ => rfl, rfl, fun hne => absurd rfl hne, ?_, rfl, rfl, rfl, ?_, ?_⟩
  · intro hb
    cases hb
  · intro i t me k hi
    simp [tickets, Spec.State.initial] at hi
  · intro i t hi
    simp [tickets, Spec.State.initial] at hi

/-- No thread has two tickets out: the last holder asks again only when its store has drained, since
the `xadd` is a locked instruction. -/
theorem Rel.nodup (h' : Rel nthr c n h ds b s a) (ha : Spec.Inv nthr c a) :
    (tickets b h a.queue).Nodup := by
  unfold tickets
  split
  · rename_i hb
    exact List.nodup_cons.mpr ⟨(h'.out hb).1, ha.nodup⟩
  · exact ha.nodup

/-- Tickets are drawn by the threads of the program. -/
theorem Rel.lt (h' : Rel nthr c n h ds b s a) (ha : Spec.Inv nthr c a) :
    ∀ t ∈ tickets b h a.queue, t < nthr := by
  unfold tickets
  split
  · rename_i hb
    intro t ht
    rcases List.mem_cons.mp ht with rfl | ht
    · exact (h'.out hb).2
    · exact ha.lt t ht
  · exact ha.lt

/-- So there are no more tickets out than threads. -/
theorem Rel.length_le (h' : Rel nthr c n h ds b s a) (ha : Spec.Inv nthr c a) :
    (tickets b h a.queue).length ≤ nthr :=
  queue_length_le (h'.nodup ha) (h'.lt ha)

/-- With nothing buffered anybody may be called the holder. -/
theorem Rel.switch (h' : Rel nthr c n h ds b s a) (hb : s.sbuf h = []) (t : Nat) :
    ds = [] ∧ b = false ∧ Rel nthr c n t [] false s a := by
  have hbuf := h'.buf
  rw [hb] at hbuf
  obtain ⟨hds, hrel⟩ := List.append_eq_nil_iff.mp hbuf.symm
  -- an empty buffer has no data stores and no store to `ticket`
  have hnil : ds = [] := List.map_eq_nil_iff.mp hds
  have hfalse : b = false := by
    cases b with
    | false => rfl
    | true => cases hrel
  subst hnil hfalse
  have hempty : ∀ u, s.sbuf u = [] := by
    intro u
    by_cases hu : u = h
    · rw [hu, hb]
    · exact h'.others u hu
  refine ⟨rfl, rfl, h'.pc, fun u _ => hempty u, hempty t, fun hne => absurd (hempty t) hne, ?_,
    h'.data, h'.ticket, h'.users, h'.me, h'.tail⟩
  intro hb'
  cases hb'

/-- With the lock given back and not free yet, nobody holds it: the first of the queue is behind the
last holder's ticket, and still waits. -/
theorem Rel.not_holds (h' : Rel nthr c n h ds true s a) (ha : Spec.Inv nthr c a) (t : Nat) :
    (a.pc t).holds c.inside = false := by
  by_contra ht
  rw [Bool.not_eq_false] at ht
  have hhead := ha.first t ht
  have hone : (tickets true h a.queue)[0 + 1]? = some t := by
    rw [List.head?_eq_getElem?] at hhead
    simpa [tickets] using hhead
  obtain ⟨k, hk⟩ := h'.tail 0 t hone
  rw [hk] at ht
  cases ht

/-- **Who holds the lock is the holder**, and has not given it back. -/
theorem Rel.of_holds (h' : Rel nthr c n h ds b s a) (ha : Spec.Inv nthr c a)
    (ht : (a.pc t).holds c.inside = true) : ∃ ds', Rel nthr c n t ds' false s a := by
  have hhead := ha.first t ht
  by_cases hb : s.sbuf h = []
  · exact ⟨[], (h'.switch hb t).2.2⟩
  · have hfirst := (h'.holder hb).1
    cases b with
    | false =>
      -- the first thread that has asked
      have : t = h := Option.some.inj (hhead.symm.trans hfirst)
      exact ⟨ds, this ▸ h'⟩
    | true =>
      rw [h'.not_holds ha t] at ht
      cases ht

/-- A thread that has nothing to do with the lock. -/
theorem Rel.not_mem (h' : Rel nthr c n h ds b s a) (ha : Spec.Inv nthr c a)
    (hout : (a.pc t).engaged c.inside = false) (hbuf : s.sbuf t = []) :
    t ∉ tickets b h a.queue := by
  have hmem : t ∉ a.queue := by
    rw [ha.mem, hout]
    simp
  unfold tickets
  split
  · rename_i hb
    rw [List.mem_cons, not_or]
    refine ⟨?_, hmem⟩
    rintro rfl
    have := h'.buf
    rw [hbuf, hb] at this
    simp at this
  · exact hmem

/-- Thread `t` goes on, and touches nothing shared.  It is not behind another thread, so nobody
relies on its waiting. -/
theorem Rel.goto (h' : Rel nthr c n h ds b s a) (hrel : PcRel c n t p q)
    (hp : ∀ me k, p ≠ .wait me k) (hq : ∀ k, q ≠ .wait k)
    (htail : ∀ i, (tickets b h a.queue)[i + 1]? ≠ some t) :
    Rel nthr c n h ds b ⟨s.mem, Function.update s.sbuf t (s.sbuf t), Function.update s.pc t p⟩
      (a.goto t q) := by
  rw [Function.update_eq_self]
  refine ⟨?_, h'.others, h'.buf, ?_, h'.out, h'.data, h'.ticket, h'.users, ?_, ?_⟩
  · intro u
    rcases eq_or_ne u t with rfl | hu
    · simpa [Spec.State.goto] using hrel
    · simpa [Spec.State.goto, Function.update_of_ne hu] using h'.pc u
  · intro hne
    obtain ⟨hhead, hwait⟩ := h'.holder hne
    refine ⟨hhead, ?_⟩
    intro k
    rcases eq_or_ne h t with rfl | hu
    · simpa [Spec.State.goto] using hq k
    · simpa [Spec.State.goto, Function.update_of_ne hu] using hwait k
  · intro i u me k hi hpc
    rcases eq_or_ne u t with rfl | hu
    · simp only [Function.update_self] at hpc
      exact absurd hpc (hp me k)
    · simp only [Function.update_of_ne hu] at hpc
      exact h'.me i u me k hi hpc
  · intro i u hi
    rcases eq_or_ne u t with rfl | hu
    · exact absurd hi (htail i)
    · simpa [Spec.State.goto, Function.update_of_ne hu] using h'.tail i u hi

/-- A thread that does not wait is not behind another one. -/
theorem Rel.not_tail (h' : Rel nthr c n h ds b s a) {k : κ} (hpc : a.pc t = .run k) (i : Nat) :
    (tickets b h a.queue)[i + 1]? ≠ some t := by
  intro hi
  obtain ⟨k', hk'⟩ := h'.tail i t hi
  rw [hpc] at hk'
  cases hk'

/-- **`ticket_lock` begins**: the thread's ticket is the next one, and it is behind all others.  The
`xadd` needs an empty buffer, so the thread is not the last holder with its store still to drain. -/
theorem Rel.lock (h' : Rel nthr c n h ds b s a) (ha : Spec.Inv nthr c a)
    (hout : (a.pc t).engaged c.inside = false) (hbuf : s.sbuf t = []) (k : κ) :
    Rel nthr c n h ds b ⟨c.apply s.mem .take, Function.update s.sbuf t [],
        Function.update s.pc t (.wait s.mem.users k)⟩
      { a.goto t (.wait k) with queue := a.queue ++ [t] } := by
  -- the thread has no ticket yet, in the queue or on its way out
  have hnot := h'.not_mem ha hout hbuf
  have htickets : tickets b h (a.queue ++ [t]) = tickets b h a.queue ++ [t] := by
    unfold tickets
    split <;> simp
  have hmem : t ∉ a.queue := by
    rw [ha.mem, hout]
    simp
  rw [show Function.update s.sbuf t [] = s.sbuf by rw [← hbuf, Function.update_eq_self]]
  refine ⟨?_, h'.others, h'.buf, ?_, ?_, h'.data, h'.ticket, ?_, ?_, ?_⟩
  · intro u
    rcases eq_or_ne u t with rfl | hu
    · simp [Spec.State.goto, PcRel]
    · simpa [Spec.State.goto, Function.update_of_ne hu] using h'.pc u
  · intro hne
    obtain ⟨hhead, hwait⟩ := h'.holder hne
    have hu : h ≠ t := fun heq => hne (heq ▸ hbuf)
    refine ⟨?_, fun k' => by simpa [Spec.State.goto, Function.update_of_ne hu] using hwait k'⟩
    simp only [htickets]
    rw [List.head?_append, hhead]
    rfl
  · intro hb
    obtain ⟨hn, hlt⟩ := h'.out hb
    have hu : h ≠ t := by
      rintro rfl
      exact hnot (by simp [tickets, hb])
    exact ⟨by simpa [hu] using hn, hlt⟩
  -- the `xadd` counts the new ticket
  · simp only [htickets, List.length_append, List.length_singleton, Client.apply]
    rw [h'.users, ticket_succ, Nat.add_assoc]
  · intro i u me k' hi hpc
    rw [htickets] at hi
    rcases getElem?_snoc hi with hi | ⟨rfl, rfl⟩
    · have hu : u ≠ t := fun heq => hnot (heq ▸ List.mem_of_getElem? hi)
      simp only [Function.update_of_ne hu] at hpc
      exact h'.me i u me k' hi hpc
    · simp only [Function.update_self, Pc.wait.injEq] at hpc
      rw [← hpc.1, h'.users]
  · intro i u hi
    rw [htickets] at hi
    rcases getElem?_snoc hi with hi | ⟨-, rfl⟩
    · have hu : u ≠ t := fun heq => hnot (heq ▸ List.mem_of_getElem? hi)
      simpa [Spec.State.goto, Function.update_of_ne hu] using h'.tail i u hi
    · exact ⟨k, by simp [Spec.State.goto]⟩

/-- What the holder sees: its own data stores, over memory. -/
theorem view_data (c : Client D S κ) (m : Mem D) (ds : List S) :
    view c.apply m (ds.map .data) = { m with data := view c.store m.data ds } := by
  induction ds generalizing m with
  | nil => rfl
  | cons st ds ih =>
    rw [List.map_cons, view_cons, ih]
    rfl

/-- An instruction of the client is one on the data, as the thread sees them.  Locked instructions
and fences wait for the buffer on both readings, and then see memory. -/
theorem lift_tso {i : Instr D S κ} {m m' : Mem D} {buf : List (Store S)} {r : Option (Pc κ)}
    (hst : (lift i).tso c.apply m (ds.map .data) = some (m', buf, r)) :
    ∃ ds', buf = ds'.map .data ∧ m'.ticket = m.ticket ∧ m'.users = m.users ∧
      view c.store m'.data ds' = (i.sc c.store (view c.store m.data ds)).1 ∧
      r = some (.run (i.sc c.store (view c.store m.data ds)).2) := by
  cases i with
  | load k =>
    cases hst
    exact ⟨ds, rfl, rfl, rfl, rfl, by rw [view_data]; rfl⟩
  | store st k =>
    cases hst
    exact ⟨ds ++ [st], by simp, rfl, rfl, view_append ds st, rfl⟩
  | xchg st k =>
    simp only [lift, Instr.tso] at hst
    split at hst
    · rename_i hnil
      cases hst
      obtain rfl : ds = [] := List.map_eq_nil_iff.mp hnil
      exact ⟨[], rfl, rfl, rfl, rfl, rfl⟩
    · cases hst
  | fence k =>
    simp only [lift, Instr.tso] at hst
    split at hst
    · rename_i hnil
      cases hst
      obtain rfl : ds = [] := List.map_eq_nil_iff.mp hnil
      exact ⟨[], rfl, rfl, rfl, rfl, rfl⟩
    · cases hst

/-- **The holder executes an instruction of the client.**  It sees the data of the queue's side,
which are those in memory under its own buffered stores, and leaves them so. -/
theorem Rel.data_step (h' : Rel nthr c n t ds false s a) (ha : Spec.Inv nthr c a)
    (ht : (a.pc t).holds c.inside = true) {i : Instr D S κ} {m : Mem D} {buf : List (Store S)}
    {r : Option (Pc κ)} (hst : (lift i).tso c.apply s.mem (s.sbuf t) = some (m, buf, r)) :
    ∃ ds', r = some (.run (i.sc c.store a.data).2) ∧
      Rel nthr c n t ds' false
        ⟨m, Function.update s.sbuf t buf, Function.update s.pc t (.run (i.sc c.store a.data).2)⟩
        { a.goto t (.run (i.sc c.store a.data).2) with data := (i.sc c.store a.data).1 } := by
  have hbuf := h'.buf
  simp only [Bool.false_eq_true, if_false, List.append_nil] at hbuf
  rw [hbuf] at hst
  obtain ⟨ds', rfl, hticket, husers, hdata, hr⟩ := lift_tso hst
  rw [← h'.data] at hdata hr
  have hhead := ha.first t ht
  -- the threads behind the head wait, and this one does not
  have hnotail : ∀ i, a.queue[i + 1]? ≠ some t := by
    intro i hi
    obtain ⟨k, hk⟩ := h'.tail i t hi
    rw [hk] at ht
    cases ht
  refine ⟨ds', hr, ?_, ?_, ?_, ?_, ?_, hdata.symm, ?_, ?_, ?_, ?_⟩
  · intro u
    rcases eq_or_ne u t with rfl | hu
    · simp [Spec.State.goto, PcRel]
    · simpa [Spec.State.goto, Function.update_of_ne hu] using h'.pc u
  · intro u hu
    exact (Function.update_of_ne hu _ _).trans (h'.others u hu)
  · simp
  · intro _
    exact ⟨hhead, by simp [Spec.State.goto]⟩
  · intro hb
    cases hb
  · exact hticket.trans h'.ticket
  · exact husers.trans h'.users
  · intro i u me k hi hpc
    rcases eq_or_ne u t with rfl | hu
    · simp at hpc
    · simp only [Function.update_of_ne hu] at hpc
      exact h'.me i u me k hi hpc
  · intro i u hi
    rcases eq_or_ne u t with rfl | hu
    · exact absurd hi (hnotail i)
    · simpa [Spec.State.goto, Function.update_of_ne hu] using h'.tail i u hi

/-- **The holder stores `ticket`, and the queue has the lock back.**  The tickets that are out are
the same before and after: the holder leaves the queue and is counted as the last holder instead. -/
theorem Rel.release (h' : Rel nthr c n t ds false s a) (ha : Spec.Inv nthr c a)
    (ht : (a.pc t).holds c.inside = true) (k : κ) :
    Rel nthr c n t ds true
      ⟨s.mem, Function.update s.sbuf t (s.sbuf t ++ [.ticket (BitVec.ofNat 16 (n + 1))]),
        Function.update s.pc t (.run k)⟩
      { a.goto t (.run k) with queue := a.queue.tail } := by
  obtain ⟨q, hq⟩ : ∃ q, a.queue = t :: q := by
    have hhead := ha.first t ht
    cases hq : a.queue with
    | nil => rw [hq] at hhead; cases hhead
    | cons u q =>
      rw [hq] at hhead
      cases hhead
      exact ⟨q, rfl⟩
  -- the tickets are the same: `t` has left the queue, but its ticket is in use until the store
  -- drains
  have htickets : tickets true t a.queue.tail = tickets false t a.queue := by
    rw [hq]
    rfl
  have hnodup := ha.nodup
  rw [hq, List.nodup_cons] at hnodup
  have hbuf := h'.buf
  simp only [Bool.false_eq_true, if_false, List.append_nil] at hbuf
  refine ⟨?_, ?_, ?_, ?_, ?_, h'.data, h'.ticket, ?_, ?_, ?_⟩
  · intro u
    rcases eq_or_ne u t with rfl | hu
    · simp [Spec.State.goto, PcRel]
    · simpa [Spec.State.goto, Function.update_of_ne hu] using h'.pc u
  · intro u hu
    exact (Function.update_of_ne hu _ _).trans (h'.others u hu)
  · simp [hbuf]
  · intro _
    exact ⟨rfl, by simp [Spec.State.goto]⟩
  · intro _
    refine ⟨?_, ha.lt t (by rw [hq]; simp)⟩
    simpa [Spec.State.goto, hq] using hnodup.1
  · rw [htickets]
    exact h'.users
  · intro i u me k' hi hpc
    rw [htickets] at hi
    rcases eq_or_ne u t with rfl | hu
    · simp at hpc
    · simp only [Function.update_of_ne hu] at hpc
      exact h'.me i u me k' hi hpc
  · intro i u hi
    rw [htickets] at hi
    rcases eq_or_ne u t with rfl | hu
    · obtain ⟨k', hk'⟩ := h'.tail i u hi
      rw [hk'] at ht
      cases ht
    · simpa [Spec.State.goto, Function.update_of_ne hu] using h'.tail i u hi

/-- **A store of the holder drains.**  A data store moves from the buffer to memory, and the data
under the buffer are the same.  The store to `ticket` is the last: then everything of the holder is
in memory, the next ticket is served, and the tickets that are out are those of the queue. -/
theorem Rel.drain (h' : Rel nthr c n h ds b s a) (ha : Spec.Inv nthr c a) (hst : s.drain c t = some s') :
    ∃ n' ds' b', Rel nthr c n' h ds' b' s' a := by
  unfold State.drain at hst
  cases hbuf : s.sbuf t with
  | nil => rw [hbuf] at hst; cases hst
  | cons st buf =>
    rw [hbuf] at hst
    cases hst
    have hth : t = h := by
      by_contra hne
      rw [h'.others t hne] at hbuf
      cases hbuf
    subst hth
    have hothers : ∀ u, u ≠ t → Function.update s.sbuf t buf u = [] :=
      fun u hu => (Function.update_of_ne hu _ _).trans (h'.others u hu)
    have hne : s.sbuf t ≠ [] := by rw [hbuf]; simp
    have hlong := h'.buf
    rw [hbuf] at hlong
    cases ds with
    | cons d ds =>
      -- a store to the data
      rw [List.map_cons, List.cons_append, List.cons.injEq] at hlong
      obtain ⟨rfl, hlong⟩ := hlong
      refine ⟨n, ds, b, h'.pc, hothers, ?_, fun _ => h'.holder hne, h'.out, h'.data, h'.ticket,
        h'.users, h'.me, h'.tail⟩
      simp only [Function.update_self]
      exact hlong
    | nil =>
      -- the store to `ticket`: the tickets are now those from `n + 1` on
      cases b with
      | false => cases hlong
      | true =>
        simp only [List.map_nil, List.nil_append, if_true, List.cons.injEq] at hlong
        obtain ⟨rfl, rfl⟩ := hlong
        refine ⟨n + 1, [], false, ?_, hothers, by simp, ?_, ?_, h'.data, rfl, ?_, ?_, ?_⟩
        · intro u
          have hpc := h'.pc u
          cases hp : s.pc u with
          | run k => rw [hp] at hpc; exact hpc
          | wait me k => rw [hp] at hpc; exact hpc
          | setTicket x k =>
            -- nobody holds the lock
            rw [hp] at hpc
            obtain ⟨-, k', hrun, hcode⟩ := hpc
            have hin : (a.pc u).holds c.inside = true := by
              have hok := c.code_ok u k'
              rw [hcode] at hok
              rw [hrun]
              exact hok.1
            rw [h'.not_holds ha u] at hin
            cases hin
        · simp
        · intro hb
          cases hb
        -- one ticket fewer is out, and the first of them is one later
        · have husers := h'.users
          simp only [tickets, if_true, List.length_cons] at husers
          simp only [Client.apply, tickets, Bool.false_eq_true, if_false]
          rw [husers]
          congr 1
          omega
        · intro i u me k hi hpc
          have := h'.me (i + 1) u me k (by simpa [tickets] using hi) hpc
          rw [this]
          congr 1
          omega
        · intro i u hi
          exact h'.tail (i + 1) u (by simpa [tickets] using hi)

/-- **`ticket_lockable` means that nobody has asked for the lock**, and that the last holder's
stores are in memory.  The thread that asks this has no ticket itself, so fewer than 2^16 are out,
and equal counters mean none. -/
theorem Rel.lockable (h' : Rel nthr c n h ds b s a) (ha : Spec.Inv nthr c a) (hn : nthr ≤ 2 ^ 16)
    (ht : t < nthr) (hout : (a.pc t).engaged c.inside = false) (hbuf : s.sbuf t = [])
    (hfree : s.mem.ticket = s.mem.users) : a.queue = [] ∧ s.sbuf h = [] := by
  have hnot := h'.not_mem ha hout hbuf
  -- the thread itself has no ticket
  have hlt : (tickets b h a.queue).length < 2 ^ 16 := by
    have hnodup : (t :: tickets b h a.queue).Nodup := List.nodup_cons.mpr ⟨hnot, h'.nodup ha⟩
    have hle : (t :: tickets b h a.queue).length ≤ nthr := by
      refine queue_length_le hnodup ?_
      intro u hu
      rcases List.mem_cons.mp hu with rfl | hu
      · exact ht
      · exact h'.lt ha u hu
    rw [List.length_cons] at hle
    omega
  have hzero := ticket_inj (h'.users.symm.trans (hfree.symm.trans h'.ticket)) hlt
  have hnil : tickets b h a.queue = [] := List.length_eq_zero_iff.mp hzero
  refine ⟨?_, ?_⟩
  · unfold tickets at hnil
    split at hnil
    · cases hnil
    · exact hnil
  · by_contra hne
    have := (h'.holder hne).1
    rw [hnil] at this
    cases this

/-- **A waiting thread that sees its ticket is the first**, and it sees memory.  Its ticket is the
one served and tickets that are out differ, so it is the first of them; the first of them is the
last holder only while that one's store is buffered, and then it is not waiting. -/
theorem Rel.of_wait (h' : Rel nthr c n h ds b s a) (ha : Spec.Inv nthr c a) (hn : nthr ≤ 2 ^ 16)
    {me : BitVec 16} {k : κ} (hpc : s.pc t = .wait me k) (hwait : a.pc t = .wait k) :
    s.sbuf t = [] ∧ (s.mem.ticket = me → a.queue.head? = some t ∧
      ∀ i, (tickets b h a.queue)[i + 1]? ≠ some t) := by
  have hbuf : s.sbuf t = [] := by
    rcases eq_or_ne t h with rfl | hth
    · by_contra hne
      exact (h'.holder hne).2 k hwait
    · exact h'.others t hth
  refine ⟨hbuf, ?_⟩
  rintro rfl
  have hmem : t ∈ a.queue := by
    rw [ha.mem, hwait]
    rfl
  -- its position among the tickets is its number less the one being served, which fits into 16 bits
  obtain ⟨i, hi⟩ : ∃ i, (tickets b h a.queue)[i]? = some t := by
    refine List.mem_iff_getElem?.mp ?_
    unfold tickets
    split
    · exact List.mem_cons_of_mem _ hmem
    · exact hmem
  have hme := h'.me i t _ k hi hpc
  have hle := h'.length_le ha
  have hlt := (List.getElem?_eq_some_iff.mp hi).1
  obtain rfl := ticket_inj (hme.symm.trans h'.ticket) (by omega)
  refine ⟨?_, fun j hj => ?_⟩
  swap
  · have := (List.getElem?_inj hlt (h'.nodup ha)).mp (hi.trans hj.symm)
    omega
  cases b with
  | false =>
    rw [List.head?_eq_getElem?]
    exact hi
  | true =>
    -- the first ticket is that of the holder, who does not wait
    have hth : h = t := Option.some.inj hi
    subst hth
    exact absurd hmem (h'.out rfl).1

/-- **A transaction commits**: with no ticket out and no store buffered, memory is the queue's data.
-/
theorem Rel.commit (h' : Rel nthr c n h ds b s a) (hfree : s.sbuf h = []) {k k' : κ} (d : D)
    (hpc : a.pc t = .run k) :
    Rel nthr c n t [] false
      { s with mem := { s.mem with data := d }, pc := Function.update s.pc t (.run k') }
      { a.goto t (.run k') with data := d } := by
  obtain ⟨-, -, h'⟩ := h'.switch hfree t
  have hgo := h'.goto (p := .run k') (q := .run k') rfl (by simp) (by simp) (h'.not_tail hpc)
  rw [Function.update_eq_self] at hgo
  exact ⟨hgo.pc, hgo.others, hgo.buf, hgo.holder, hgo.out, rfl, hgo.ticket, hgo.users, hgo.me,
    hgo.tail⟩

end Rel

/-! ## 4. Simulation

One step of the lock is one of the queue with the same label, but for the load of `ticket++` and the
drains, which are none.  The cases are those of the client's instructions and of the three places of
the lock's code. -/

section Step

variable {n h t : Nat} {ds : List S} {b : Bool} {s s' : State D S κ} {a a' : Spec.State D κ}

/-- The relation, with what belongs to it. -/
def Refines (nthr : Nat) (c : Client D S κ) (s : State D S κ) (a : Spec.State D κ) : Prop :=
  Spec.Inv nthr c a ∧ ∃ n h ds b, Rel nthr c n h ds b s a

/-- **An instruction**: a step of the queue with the same label, or, for the load of `ticket++`, none. -/
theorem Refines.step (hR : Refines nthr c s a) (hn : nthr ≤ 2 ^ 16) (ht : t < nthr)
    (hst : s.step c t = some s') :
    (c.event t (s.pc t) = none ∧ Refines nthr c s' a) ∨
      (c.event t (s.pc t) = a.event c t ∧ ∃ a', a.step c t = some a' ∧ Refines nthr c s' a') := by
  obtain ⟨ha, n, h, ds, b, h'⟩ := hR
  have hpc' := h'.pc t
  unfold State.step at hst
  cases hpc : s.pc t with
  | run k =>
    rw [hpc] at hpc' hst
    have hrun : a.pc t = .run k := hpc'
    have hok := c.code_ok t k
    cases hcode : c.code t k with
    | priv k' =>
      simp only [Client.instr, hcode, Instr.tso, Option.some.injEq] at hst
      have hspec : a.step c t = some (a.goto t (.run k')) := by
        simp [Spec.State.step, hrun, hcode]
      refine Or.inr ⟨by simp [Client.event, Spec.State.event, hrun, hcode], _, hspec,
        ha.step ht hspec, n, h, ds, b, ?_⟩
      rw [← hst]
      exact h'.goto rfl (by simp) (by simp) (h'.not_tail hrun)
    -- the `xadd`, which needs an empty buffer: the queue's lock
    | lock k' =>
      rw [hcode] at hok
      have hout : (a.pc t).engaged c.inside = false := by
        rw [hrun]
        exact hok.1
      have hspec : a.step c t =
          some { a.goto t (.wait k') with queue := a.queue ++ [t] } := by
        simp [Spec.State.step, hrun, hcode]
      refine Or.inr ⟨by simp [Client.event, Spec.State.event, hrun, hcode], _, hspec,
        ha.step ht hspec, n, h, ds, b, ?_⟩
      by_cases hbuf : s.sbuf t = []
      · simp only [Client.instr, hcode, Instr.tso, hbuf, if_true, Option.some.injEq] at hst
        rw [← hst]
        exact h'.lock ha hout hbuf k'
      · simp [Client.instr, hcode, Instr.tso, hbuf] at hst
    -- inside the critical section; the stores of the section before have drained (`of_holds`)
    | data i =>
      rw [hcode] at hok
      have hin : (a.pc t).holds c.inside = true := by
        rw [hrun]
        exact hok.1
      obtain ⟨ds', h''⟩ := h'.of_holds ha hin
      have hspec : a.step c t = some { a.goto t (.run (i.sc c.store a.data).2) with
          data := (i.sc c.store a.data).1 } := by
        simp [Spec.State.step, hrun, hcode]
      refine Or.inr ⟨by simp [Client.event, Spec.State.event, hrun, hcode], _, hspec,
        ha.step ht hspec, ?_⟩
      simp only [Client.instr, hcode] at hst
      cases htso : (lift i : Instr (Mem D) (Store S) (Option (Pc κ))).tso c.apply s.mem (s.sbuf t) with
      | none => rw [htso] at hst; cases hst
      | some x =>
        obtain ⟨m, buf, r⟩ := x
        obtain ⟨ds'', rfl, h''⟩ := h''.data_step ha hin htso
        rw [htso] at hst
        simp only [Option.some.injEq] at hst
        rw [← hst]
        exact ⟨n, t, ds'', false, h''⟩
    -- the load of `ticket++`: the queue stands still
    | unlock k' =>
      rw [hcode] at hok
      have hin : (a.pc t).holds c.inside = true := by
        rw [hrun]
        exact hok.1
      obtain ⟨ds', h''⟩ := h'.of_holds ha hin
      refine Or.inl ⟨by simp [Client.event, hcode], ha, n, t, ds', false, ?_⟩
      have hbuf := h''.buf
      simp only [Bool.false_eq_true, if_false, List.append_nil] at hbuf
      have hseen : (view c.apply s.mem (s.sbuf t)).ticket + 1 = BitVec.ofNat 16 (n + 1) := by
        rw [hbuf, view_data, h''.ticket, ticket_succ]
      simp only [Client.instr, hcode, Instr.tso, hseen, Option.some.injEq] at hst
      have hgo := h''.goto (p := .setTicket (BitVec.ofNat 16 (n + 1)) k') (q := a.pc t)
        ⟨rfl, k, hrun, hcode⟩ (by simp) (by simp [hrun]) (h''.not_tail hrun)
      rw [Spec.State.goto, Function.update_eq_self t a.pc] at hgo
      rw [← hst]
      exact hgo
    -- an aborted transaction changes nothing but the place
    | tx f abort =>
      simp only [Client.instr, hcode, Instr.tso, Option.some.injEq] at hst
      have hspec : a.step c t = some (a.goto t (.run abort)) := by
        simp [Spec.State.step, hrun, hcode]
      refine Or.inr ⟨by simp [Client.event, Spec.State.event, hrun, hcode], _, hspec,
        ha.step ht hspec, n, h, ds, b, ?_⟩
      rw [← hst]
      exact h'.goto rfl (by simp) (by simp) (h'.not_tail hrun)
    | halt => simp [Client.instr, hcode] at hst
  | wait me k =>
    rw [hpc] at hpc' hst
    have hwait : a.pc t = .wait k := hpc'
    obtain ⟨hbuf, hserved⟩ := h'.of_wait ha hn hpc hwait
    -- its own ticket is in memory: the thread is at the head, and nobody is on the way out
    by_cases hme : s.mem.ticket = me
    · obtain ⟨hhead, hnotail⟩ := hserved hme
      have hspec : a.step c t = some (a.goto t (.run k)) := by
        simp [Spec.State.step, hwait, hhead]
      refine Or.inr ⟨by simp [Client.event, Spec.State.event, hwait], _, hspec,
        ha.step ht hspec, n, h, ds, b, ?_⟩
      simp only [Client.instr, Instr.tso, hbuf, view_nil, hme, ne_eq, not_true_eq_false, if_false,
        Option.some.injEq] at hst
      have hgo := h'.goto (p := .run k) (q := .run k) rfl (by simp) (by simp) hnotail
      rw [hbuf] at hgo
      rw [← hst]
      exact hgo
    · simp [Client.instr, Instr.tso, hbuf, hme] at hst
  -- the store of `ticket++`: the queue's unlock
  | setTicket x k =>
    rw [hpc] at hpc' hst
    obtain ⟨rfl, k', hrun, hcode⟩ := hpc'
    have hok := c.code_ok t k'
    rw [hcode] at hok
    have hin : (a.pc t).holds c.inside = true := by
      rw [hrun]
      exact hok.1
    obtain ⟨ds', h''⟩ := h'.of_holds ha hin
    have hspec : a.step c t = some { a.goto t (.run k) with queue := a.queue.tail } := by
      simp [Spec.State.step, hrun, hcode]
    refine Or.inr ⟨by simp [Client.event, Spec.State.event, hrun, hcode], _, hspec,
      ha.step ht hspec, n, t, ds', true, ?_⟩
    simp only [Client.instr, Instr.tso, Option.some.injEq] at hst
    rw [← hst]
    exact h''.release ha hin k

/-- A transaction of the lock is one of the queue: the lock is free there too, and the data are the
same. -/
theorem Refines.commit (hR : Refines nthr c s a) (hn : nthr ≤ 2 ^ 16) (ht : t < nthr)
    (hst : s.commit c t = some s') : ∃ a', a.commit c t = some a' ∧ Refines nthr c s' a' := by
  obtain ⟨ha, n, h, ds, b, h'⟩ := hR
  have hpc' := h'.pc t
  unfold State.commit at hst
  cases hpc : s.pc t with
  | run k =>
    rw [hpc] at hpc' hst
    have hrun : a.pc t = .run k := hpc'
    have hok := c.code_ok t k
    cases hcode : c.code t k with
    | tx f abort =>
      rw [hcode] at hok
      simp only [hcode] at hst
      split at hst
      · rename_i hcond
        obtain ⟨hbuf, hfree⟩ := hcond
        have hout : (a.pc t).engaged c.inside = false := by
          rw [hrun]
          exact hok.1
        -- the lock is free in memory: the queue is empty, and no store of a holder is left
        obtain ⟨hq, hnil⟩ := h'.lockable ha hn ht hout hbuf hfree
        obtain ⟨hds, -, -⟩ := h'.switch hnil t
        have hdata : s.mem.data = a.data := by
          rw [h'.data, hds]
          rfl
        have hspec : a.commit c t =
            some { a.goto t (.run (f a.data).2) with data := (f a.data).1 } := by
          simp [Spec.State.commit, hrun, hcode, hq]
        refine ⟨_, hspec, ha.commit hspec, n, t, [], false, ?_⟩
        rw [hdata] at hst
        cases hst
        exact h'.commit hnil _ hrun
      · cases hst
    | _ => simp [hcode] at hst
  | wait me k => rw [hpc] at hst; cases hst
  | setTicket x k => rw [hpc] at hst; cases hst

/-- **The ticket lock refines the queue**, for every client and at most 2^16 threads. -/
theorem refines_simulation (nthr : Nat) (c : Client D S κ) (hn : nthr ≤ 2 ^ 16) :
    Trans.Simulation (sys nthr c) (Spec.sys nthr c) (Refines nthr c) where
  init s hs := by
    subst hs
    exact ⟨_, rfl, Spec.inv_initial, 0, 0, [], false, rel_initial⟩
  step := by
    rintro s l s' a - hR ⟨t, ht, ⟨rfl, hst⟩ | ⟨rfl, hst | hst⟩⟩
    · rcases hR.step hn ht hst with ⟨hnone, hR'⟩ | ⟨hev, a', hspec, hR'⟩
      · exact ⟨a, a, Or.inl rfl, Or.inl ⟨hnone, rfl⟩, hR'⟩
      · exact ⟨a, a', Or.inl rfl, Or.inr ⟨t, ht, Or.inl ⟨hev, hspec⟩⟩, hR'⟩
    · obtain ⟨ha, n, h, ds, b, h'⟩ := hR
      obtain ⟨n', ds', b', h''⟩ := h'.drain ha hst
      exact ⟨a, a, Or.inl rfl, Or.inl ⟨rfl, rfl⟩, ha, n', h, ds', b', h''⟩
    · obtain ⟨a', hspec, hR'⟩ := hR.commit hn ht hst
      exact ⟨a, a', Or.inl rfl, Or.inr ⟨t, ht, Or.inr ⟨rfl, hspec⟩⟩, hR'⟩

end Step

end MemOrder.TicketLock
