/-
# The turns of `mem-replay-rtmcommit.c`

The log is `order`, the threads of the blocks.  A replaying system is described by two numbers: `k`
blocks are closed and `j` accesses of the open one have been made.  The open block belongs to the
thread `order[k]`, its OWNER; memory and the accesses made so far are `j` accesses of the owner
after `serial (order.take k)`.  A thread that is past its wait, up to the store to `g_next_thr`, is
the owner (`PcInv`): this is what protects the cursor and `g_next_thr`.

The block is closed by the store to `g_next_thr`, or, for the last one, by the check that finds the
log exhausted.  `g_next_thr` then keeps its value, but no thread has an access left.

The argument is a race that nobody can win.  `g_next_thr` is written by the owner only, and it is
the owner's number until the owner hands the turn over; so a thread that sees its own number there
owns the open block (`InvAt.owner_of_turn`).  That the owner hands over after the right number of
accesses is the business of the counter: at a multiple of `RTM_BATCH_N` it is at the end of its
block (`InvAt.owner_mod`), because it was at a multiple when the block was opened
(`Good.open_owner`), and the counter has not wrapped in between (`Good.fits`).

`InvAt order w prog m₀ k j` is kept by every step of every thread; the steps that close a block are
those `State.closes` points out (`InvAt.step_closes`), and the others leave `k` alone.  Safety and
progress both come from it: who fails the assertion would have the turn without owning the block
(`InvAt.not_fail`), and as long as a block is open its owner can step, since only the wait blocks
(`InvAt.progress`).
-/
import MemOrder.Commit.Replay

namespace MemOrder.Commit.Replay

variable {Addr : Type} [DecidableEq Addr]

/-! ## 1. What has been done

An access is made at its load or store and counted later, by `g_sim_bbcnt++`.  `config`
has what is made; the tests on the counter see what is counted. -/

/-- The access a thread has made and not yet counted. -/
def Pc.pending : Pc Addr → List (Made Addr)
  | .after m | .count m => [m]
  | .readEntry c | .advance _ c | .setNext _ c => c.toList
  | .start | .wait _ | .check _ | .access _ | .finished => []

/-- 1 between the two stores of `read_next_thr`. -/
def Pc.moved : Pc Addr → Nat
  | .setNext _ _ => 1
  | _ => 0

/-- The next step of `t` closes a block: the store to `g_next_thr`, or the check that finds the log
exhausted. -/
def State.closes (log : List Int) (s : State Addr) (t : Nat) : Bool :=
  match s.pc t with
  | .setNext _ _ => true
  | .readEntry _ => decide (s.buf + 1 > log.length)
  | _ => false

/-- Memory and all accesses made, counted or not. -/
def State.config (s : State Addr) : Config Addr := ⟨s.mem, fun t => s.done t ++ (s.pc t).pending⟩

omit [DecidableEq Addr] in
@[simp] theorem config_done (s : State Addr) (t : Nat) :
    s.config.done t = s.done t ++ (s.pc t).pending := rfl

omit [DecidableEq Addr] in
@[simp] theorem resume_pending (c : Option (Made Addr)) : (resume c).pending = c.toList := by
  cases c <;> rfl

omit [DecidableEq Addr] in
@[simp] theorem resume_moved (c : Option (Made Addr)) : (resume c).moved = 0 := by
  cases c <;> rfl

/-- The open block, number `k`, is a block of thread `t`. -/
def Owner (order : List Nat) (k t : Nat) : Prop := order[k]? = some t

/-- A block has one owner. -/
theorem Owner.eq {order : List Nat} {k t u : Nat} (ht : Owner order k t) (hu : Owner order k u) :
    u = t := Option.some.inj (hu.symm.trans ht)

/-- A block that is open is in the log. -/
theorem Owner.lt {order : List Nat} {k t : Nat} (h : Owner order k t) : k < order.length :=
  (List.getElem?_eq_some_iff.mp h).1

/-- The order, cut at the open block. -/
theorem Owner.split {order : List Nat} {k t : Nat} (h : Owner order k t) :
    order = order.take k ++ t :: order.drop (k + 1) := by
  obtain ⟨hk, hget⟩ := List.getElem?_eq_some_iff.mp h
  rw [← hget, ← List.drop_eq_getElem_cons hk, List.take_append_drop]

/-- The blocks closed when this one is. -/
theorem Owner.take_succ {order : List Nat} {k t : Nat} (h : Owner order k t) :
    order.take (k + 1) = order.take k ++ [t] := by
  rw [List.take_add_one, h]
  rfl

/-! ## 2. The invariant

`PcInv` says of each place whether the thread owns the block there, and what it knows of its
position in it.  At the places outside a block it says what keeps a thread that does not own it out:
its number of accesses is a multiple of the batch size, so it goes to the wait. -/

/-- The block can be closed: it is full, or `mem_finish_thr` is called. -/
def Closing (j : Nat) (next : Option (Acc Addr)) : Option (Made Addr) → Prop
  | some _ => j = rtmBatchN
  | none => next = none

/-- What holds of thread `t` at `pc`: it has made `len` accesses and its next one is `next`. -/
def PcInv (order : List Nat) (k j t len : Nat) (next : Option (Acc Addr)) : Pc Addr → Prop
  | .start | .count _ =>
    (Owner order k t → j < rtmBatchN) ∧ (¬ Owner order k t → len % rtmBatchN = 0)
  | .wait acc => next = some acc ∧ len % rtmBatchN = 0 ∧ (Owner order k t → j < rtmBatchN)
  | .check acc | .access acc => next = some acc ∧ Owner order k t ∧ j < rtmBatchN
  | .after _ => Owner order k t ∧ 0 < j
  | .readEntry c => Owner order k t ∧ Closing j next c
  | .advance p c | .setNext p c =>
    Owner order k t ∧ Closing j next c ∧ p = k + 1 ∧ k + 1 < order.length
  | .finished => next = none ∧ ¬ Owner order k t

/-- The blocks before number `k` are closed and `j` accesses of block `k` have been made. -/
structure InvAt (order : List Nat) (w : Option Nat) (prog : Nat → Prog Addr) (m₀ : Addr → Val)
    (k j : Nat) (s : State Addr) : Prop where
  k_le : k ≤ order.length
  j_le : j ≤ rtmBatchN
  j_zero : k = order.length → j = 0
  cfg : s.config = runAccesses prog (order.getD k 0) j (serial prog m₀ (order.take k))
  len : ∀ t, Owner order k t →
    (s.config.done t).length = ((serial prog m₀ (order.take k)).done t).length + j
  turn : ∀ t, Owner order k t → s.nextThr = t
  buf : ∀ t, Owner order k t → s.buf = k + 1 + (s.pc t).moved
  cnt : ∀ t, s.bbcnt t = wrap w (s.done t).length
  thr : ∀ t, PcInv order k j t (s.config.done t).length (s.config.next prog t) (s.pc t)

/-- What is assumed of the log: the threads exist, every block has an access to make, no program
goes on after the last block, and the counters are wide enough. -/
structure Good (nthr : Nat) (order : List Nat) (w : Option Nat) (prog : Nat → Prog Addr)
    (m₀ : Addr → Val) : Prop where
  tids : ∀ t ∈ order, t < nthr
  opens : Opens prog m₀ order
  ended : ∀ t < nthr, (serial prog m₀ order).next prog t = none
  fits : ∀ t < nthr, Fits w ((serial prog m₀ order).done t).length

section Facts

variable {nthr k j t u : Nat} {order : List Nat} {w : Option Nat} {prog : Nat → Prog Addr}
  {m₀ : Addr → Val} {s s' : State Addr}

/-- The owner had an access to make when its block was opened, at a multiple of the block size. -/
theorem Good.open_owner (hg : Good nthr order w prog m₀) (ho : Owner order k t) :
    (serial prog m₀ (order.take k)).next prog t ≠ none ∧
      ((serial prog m₀ (order.take k)).done t).length % rtmBatchN = 0 := by
  have hn := hg.opens _ _ _ ho.split
  exact ⟨hn, (boundary_serial _ t).resolve_right hn⟩

/-- The accesses made in the open block are the owner's. -/
theorem InvAt.cfg_owner (h : InvAt order w prog m₀ k j s) (ho : Owner order k t) :
    s.config = runAccesses prog t j (serial prog m₀ (order.take k)) := by
  have hget : order.getD k 0 = t := by rw [List.getD_eq_getElem?_getD, ho, Option.getD_some]
  rw [← hget]
  exact h.cfg

/-- With no block open the serial run is complete. -/
theorem InvAt.cfg_end (h : InvAt order w prog m₀ order.length j s) :
    s.config = serial prog m₀ order := by
  rw [h.cfg, h.j_zero rfl, List.take_length]
  rfl

/-- An access that is still to be made belongs to an open block. -/
theorem InvAt.open_of_next (hg : Good nthr order w prog m₀) (h : InvAt order w prog m₀ k j s)
    (ht : t < nthr) {acc : Acc Addr} (hn : s.config.next prog t = some acc) : k < order.length := by
  rcases Nat.lt_or_eq_of_le h.k_le with hlt | rfl
  · exact hlt
  · rw [h.cfg_end, hg.ended t ht] at hn
    cases hn

/-- **Whoever holds the turn and has an access to make owns the open block**: a block is open, and
`g_next_thr` is the number of its owner. -/
theorem InvAt.owner_of_turn (hg : Good nthr order w prog m₀) (h : InvAt order w prog m₀ k j s)
    (ht : t < nthr) {acc : Acc Addr} (hn : s.config.next prog t = some acc)
    (hturn : s.nextThr = t) : Owner order k t := by
  have hk := h.open_of_next hg ht hn
  have ho : Owner order k order[k] := List.getElem?_eq_getElem hk
  have := h.turn _ ho
  have heq : order[k] = t := by omega
  rw [← heq]
  exact ho

/-- The owner's position in its block is its number of accesses modulo the batch size. -/
theorem InvAt.owner_mod (hg : Good nthr order w prog m₀) (h : InvAt order w prog m₀ k j s)
    (ho : Owner order k t) : (s.config.done t).length % rtmBatchN = j % rtmBatchN := by
  rw [h.len t ho, Nat.add_mod, (hg.open_owner ho).2, Nat.zero_add, Nat.mod_mod]

/-- A full block, or one whose program has ended, is block `k` of the serial run. -/
theorem InvAt.cfg_closing (h : InvAt order w prog m₀ k j s) (ho : Owner order k t)
    {c : Option (Made Addr)} (hc : Closing j (s.config.next prog t) c) :
    s.config = serial prog m₀ (order.take (k + 1)) := by
  rw [ho.take_succ, serial_snoc, runBlock, h.cfg_owner ho]
  cases c with
  | some m => rw [show j = rtmBatchN from hc]
  | none =>
    rw [h.cfg_owner ho] at hc
    exact (runAccesses_of_next_none hc _ h.j_le).symm

/-- **Nothing is done that the serial run does not do.** -/
theorem InvAt.prefix_serial (h : InvAt order w prog m₀ k j s) (t : Nat) :
    s.config.done t <+: (serial prog m₀ order).done t := by
  rcases Nat.lt_or_eq_of_le h.k_le with hlt | rfl
  · have ho : Owner order k order[k] := List.getElem?_eq_getElem hlt
    rw [h.cfg_owner ho]
    refine (runAccesses_mono h.j_le t).trans ?_
    rw [← runBlock, ← serial_snoc, ← ho.take_succ]
    have := @serial_mono Addr _ prog m₀ (order.take (k + 1)) (order.drop (k + 1)) t
    rwa [List.take_append_drop] at this
  · exact ⟨[], by rw [h.cfg_end, List.append_nil]⟩

/-- So the counter has not overflowed. -/
theorem Good.fits_made (hg : Good nthr order w prog m₀) (h : InvAt order w prog m₀ k j s)
    (ht : t < nthr) : Fits w (s.config.done t).length :=
  (hg.fits t ht).mono (h.prefix_serial t).length_le

end Facts

/-! ## 3. Preservation

First the steps that leave the two numbers alone, then the access, which moves `j`, and the two ways
to close a block, which move `k`.  A thread that does not own the open block is where the two
numbers do not matter (`PcInv.of_not_owner`), so the others need no attention. -/

section Preserve

variable {nthr k j t u : Nat} {order : List Nat} {w : Option Nat} {prog : Nat → Prog Addr}
  {m₀ : Addr → Val} {s s' : State Addr}

omit [DecidableEq Addr] in
/-- A thread that does not own the block is where its number and length do not matter. -/
theorem PcInv.of_not_owner {k' j' len : Nat} {next : Option (Acc Addr)} {pc : Pc Addr}
    (h : PcInv order k j t len next pc) (hno : ¬ Owner order k t)
    (hj : Owner order k' t → j' < rtmBatchN) (hn : next = none → ¬ Owner order k' t) :
    PcInv order k' j' t len next pc := by
  cases pc with
  | start | count => exact ⟨hj, fun _ => h.2 hno⟩
  | wait => exact ⟨h.1, h.2.1, hj⟩
  | check | access => exact absurd h.2.1 hno
  | after | readEntry | advance | setNext => exact absurd h.1 hno
  | finished => exact ⟨h.1, hn h.1⟩

omit [DecidableEq Addr] in
/-- Between the two stores of `read_next_thr` only the owner can be. -/
theorem PcInv.moved_of_not_owner {len : Nat} {next : Option (Acc Addr)} {pc : Pc Addr}
    (h : PcInv order k j t len next pc) (hno : ¬ Owner order k t) : pc.moved = 0 := by
  cases pc with
  | setNext => exact absurd h.1 hno
  | _ => rfl

/-- A step of `t` that makes no access and closes no block.  The others keep their facts; the
cursor, the counters and the new place of `t` are to be shown. -/
theorem InvAt.stutter (h : InvAt order w prog m₀ k j s) (hcfg : s'.config = s.config)
    (hturn : s'.nextThr = s.nextThr) (hpc : ∀ u, u ≠ t → s'.pc u = s.pc u)
    (hbuf : ∀ u, Owner order k u → s'.buf = k + 1 + (s'.pc u).moved)
    (hcnt : ∀ u, s'.bbcnt u = wrap w (s'.done u).length)
    (hthr : PcInv order k j t (s.config.done t).length (s.config.next prog t) (s'.pc t)) :
    InvAt order w prog m₀ k j s' := by
  refine ⟨h.k_le, h.j_le, h.j_zero, by rw [hcfg]; exact h.cfg, ?_,
    fun u hu => by rw [hturn]; exact h.turn u hu, hbuf, hcnt, ?_⟩
  · intro u hu
    rw [hcfg]
    exact h.len u hu
  · intro u
    rw [hcfg]
    by_cases hu : u = t
    · rw [hu]; exact hthr
    · rw [hpc u hu]
      exact h.thr u

omit [DecidableEq Addr] in
/-- What has been made does not change when a thread only moves. -/
theorem goto_config {pc : Pc Addr} (hpend : pc.pending = (s.pc t).pending) :
    (s.goto t pc).config = s.config := by
  simp only [State.config, State.goto, Config.mk.injEq, true_and]
  funext u
  by_cases hu : u = t
  · rw [hu, Function.update_self, hpend]
  · rw [Function.update_of_ne hu]

/-- A step that only moves `t`. -/
theorem InvAt.goto (h : InvAt order w prog m₀ k j s) {pc : Pc Addr}
    (hpend : pc.pending = (s.pc t).pending) (hmoved : pc.moved = (s.pc t).moved)
    (hthr : PcInv order k j t (s.config.done t).length (s.config.next prog t) pc) :
    InvAt order w prog m₀ k j (s.goto t pc) := by
  refine h.stutter (t := t) (goto_config hpend) rfl (fun u hu => Function.update_of_ne hu _ _)
    ?_ h.cnt (by simpa [State.goto] using hthr)
  intro u hu
  have := h.buf u hu
  by_cases hut : u = t
  · subst hut
    simpa [State.goto, hmoved] using this
  · simpa [State.goto, Function.update_of_ne hut] using this

/-- **The load or store of an access**: one more access of the owner, in the serial run's memory. -/
theorem InvAt.access (h : InvAt order w prog m₀ k j s) {acc : Acc Addr}
    (hpc : s.pc t = .access acc) :
    InvAt order w prog m₀ k (j + 1)
      ({ s with mem := (doAcc s.mem acc).1 }.goto t (.after ⟨acc, (doAcc s.mem acc).2⟩)) := by
  have hthr := h.thr t
  rw [hpc] at hthr
  obtain ⟨hnext, ho, hj⟩ := hthr
  have hcfg : ({ s with mem := (doAcc s.mem acc).1 }.goto t
      (.after ⟨acc, (doAcc s.mem acc).2⟩)).config = s.config.access t acc := by
    simp only [State.config, State.goto, Config.access, Config.mk.injEq, true_and]
    funext u
    by_cases hu : u = t
    · subst hu
      simp [hpc, Pc.pending]
    · simp [Function.update_of_ne hu]
  refine ⟨h.k_le, hj, fun hk => absurd ho.lt (by omega), ?_, ?_, h.turn, ?_,
    h.cnt, ?_⟩
  · rw [hcfg, h.cfg, runAccesses]
    have hget : order.getD k 0 = t := by rw [List.getD_eq_getElem?_getD, ho, Option.getD_some]
    rw [hget, ← h.cfg_owner ho, hnext]
  · intro u hu
    obtain rfl := ho.eq hu
    have := h.len u hu
    rw [hcfg, access_done_self, List.length_append, List.length_singleton]
    omega
  · intro u hu
    obtain rfl := ho.eq hu
    have := h.buf u hu
    rw [hpc] at this
    simpa [State.goto, Pc.moved] using this
  · intro u
    rw [hcfg]
    by_cases hu : u = t
    · subst hu
      simp only [State.goto, Function.update_self]
      exact ⟨ho, Nat.succ_pos j⟩
    · have hno : ¬ Owner order k u := fun hu' => hu (ho.eq hu')
      simp only [State.goto, Function.update_of_ne hu, Config.next, access_done_ne hu]
      exact (h.thr u).of_not_owner hno (fun hu' => absurd hu' hno) (fun _ => hno)

/-- **The block of `t` is closed and the turn passed to the next owner, if there is one.**  The
block is whole, so what has been done is the serial run up to the next block, which begins with none
of its accesses made. -/
theorem InvAt.close (hg : Good nthr order w prog m₀) (h : InvAt order w prog m₀ k j s)
    {c : Option (Made Addr)} (ho : Owner order k t) (hc : Closing j (s.config.next prog t) c)
    (hpend : (s.pc t).pending = c.toList) (hbuf : k + 1 < order.length → s.buf = k + 2)
    {n : Int} (hn : ∀ u, Owner order (k + 1) u → n = u) :
    InvAt order w prog m₀ (k + 1) 0 ({ s with nextThr := n }.goto t (resume c)) := by
  have hcfg : ({ s with nextThr := n }.goto t (resume c)).config = s.config :=
    goto_config (s := { s with nextThr := n }) (by rw [resume_pending, hpend])
  have hser := h.cfg_closing ho hc
  -- the next owner has an access to make, so it has not finished
  have hopen : ∀ u, s.config.next prog u = none → ¬ Owner order (k + 1) u := by
    intro u hu ho'
    rw [hser] at hu
    exact (hg.open_owner ho').1 hu
  refine ⟨ho.lt, Nat.zero_le _, fun _ => rfl, by rw [hcfg, hser]; rfl, ?_, hn,
    ?_, h.cnt, ?_⟩
  · intro u _
    rw [hcfg, hser]
    rfl
  · intro u hu
    have hmoved : ((({ s with nextThr := n }).goto t (resume c)).pc u).moved = 0 := by
      by_cases hut : u = t
      · simp [State.goto, hut]
      · have hno : ¬ Owner order k u := fun hu' => hut (ho.eq hu')
        simp only [State.goto, Function.update_of_ne hut]
        exact (h.thr u).moved_of_not_owner hno
    rw [hmoved]
    exact hbuf hu.lt
  · intro u
    rw [hcfg]
    by_cases hut : u = t
    · subst hut
      simp only [State.goto, Function.update_self]
      cases c with
      | none => exact ⟨hc, hopen u hc⟩
      | some m =>
        refine ⟨fun _ => by decide, ?_⟩
        intro _
        have hfull : j = rtmBatchN := hc
        rw [h.owner_mod hg ho, hfull, Nat.mod_self]
    · have hno : ¬ Owner order k u := fun hu' => hut (ho.eq hu')
      simp only [State.goto, Function.update_of_ne hut]
      exact (h.thr u).of_not_owner hno (fun _ => by decide) (hopen u)

/-- `g_sim_bbcnt++`: the access is counted, and the counter is the number of accesses again,
wrapped. -/
theorem InvAt.count (h : InvAt order w prog m₀ k j s) {m : Made Addr} (hpc : s.pc t = .count m) :
    InvAt order w prog m₀ k j ({ s with
      bbcnt := Function.update s.bbcnt t (wrap w (s.bbcnt t + 1))
      done := Function.update s.done t (s.done t ++ [m]) }.goto t .start) := by
  have hthr := h.thr t
  rw [hpc] at hthr
  refine h.stutter (t := t) ?_ rfl (fun u hu => Function.update_of_ne hu _ _) ?_
    ?_ (by simp only [State.goto, Function.update_self]; exact hthr)
  · simp only [State.config, State.goto, Config.mk.injEq, true_and]
    funext u
    by_cases hu : u = t
    · subst hu
      simp [hpc, Pc.pending]
    · simp [Function.update_of_ne hu]
  · intro u hu
    have := h.buf u hu
    by_cases hut : u = t
    · subst hut
      rw [hpc] at this
      simpa [State.goto, Pc.moved] using this
    · simpa [State.goto, Function.update_of_ne hut] using this
  · intro u
    have := h.cnt u
    by_cases hut : u = t
    · subst hut
      simp [State.goto, this, wrap_succ]
    · simpa [State.goto, Function.update_of_ne hut] using this

/-- The test at the start of an access: at a multiple of the batch size the thread waits for its
turn, inside a block it goes on. -/
theorem InvAt.start (hg : Good nthr order w prog m₀) (h : InvAt order w prog m₀ k j s)
    (ht : t < nthr) (hpc : s.pc t = .start)
    (hst : step (order.map (fun t : Nat => (t : Int))) w prog s t = .next s') :
    InvAt order w prog m₀ k j s' := by
  have hthr := h.thr t
  rw [hpc] at hthr
  obtain ⟨hown, hother⟩ := hthr
  have hdone : s.done t = s.config.done t := by simp [hpc, Pc.pending]
  have hnext : s.config.next prog t = prog t ((s.done t).map Made.res) := by
    rw [Config.next, ← hdone]
  have hzero : (s.bbcnt t).tmod rtmBatchN = 0 ↔ (s.config.done t).length % rtmBatchN = 0 := by
    rw [h.cnt t, hdone]
    exact tmod_eq_zero_iff (hg.fits_made h ht)
  -- inside a block the thread is its owner
  have howner : (s.config.done t).length % rtmBatchN ≠ 0 → Owner order k t := by
    intro hne
    by_contra hno
    exact hne (hother hno)
  simp only [step, hpc] at hst
  cases hn : prog t ((s.done t).map Made.res) with
  | some acc =>
    simp only [hn] at hst
    split at hst
    · rename_i hz
      cases hst
      exact h.goto (by rw [hpc]; rfl) (by rw [hpc]; rfl) ⟨hnext.trans hn, hzero.mp hz, hown⟩
    · rename_i hz
      cases hst
      have ho := howner (fun h0 => hz (hzero.mpr h0))
      exact h.goto (by rw [hpc]; rfl) (by rw [hpc]; rfl) ⟨hnext.trans hn, ho, hown ho⟩
  | none =>
    simp only [hn] at hst
    split at hst
    · rename_i hz
      cases hst
      have ho := howner (fun h0 => hz (hzero.mpr h0))
      exact h.goto (by rw [hpc]; rfl) (by rw [hpc]; rfl) ⟨ho, hnext.trans hn⟩
    · rename_i hz
      cases hst
      refine h.goto (by rw [hpc]; rfl) (by rw [hpc]; rfl) ⟨hnext.trans hn, ?_⟩
      intro ho
      -- the owner is at the start of its block, which has an access to make
      have hmod := hzero.mp (not_not.mp hz)
      rw [h.owner_mod hg ho, Nat.mod_eq_of_lt (hown ho)] at hmod
      have hcfg := h.cfg_owner ho
      rw [hmod] at hcfg
      refine (hg.open_owner ho).1 ?_
      rw [← hnext, hcfg] at hn
      exact hn

/-- The test at the end of an access: the owner goes on to `read_next_thr` when its block is full.
-/
theorem InvAt.after (hg : Good nthr order w prog m₀) (h : InvAt order w prog m₀ k j s)
    (ht : t < nthr) {m : Made Addr} (hpc : s.pc t = .after m)
    (hst : step (order.map (fun t : Nat => (t : Int))) w prog s t = .next s') :
    InvAt order w prog m₀ k j s' := by
  have hthr := h.thr t
  rw [hpc] at hthr
  obtain ⟨ho, hpos⟩ := hthr
  have hlen : (s.config.done t).length = (s.done t).length + 1 := by simp [hpc, Pc.pending]
  have hfits := hg.fits_made h ht
  rw [hlen] at hfits
  have htmod : (s.bbcnt t).tmod rtmBatchN = ((s.done t).length % rtmBatchN : Nat) := by
    rw [h.cnt t]
    exact tmod_of_lt hfits
  have hmod := h.owner_mod hg ho
  have hle := h.j_le
  rw [hlen] at hmod
  simp only [step, hpc, htmod] at hst
  split at hst
  · rename_i hlast
    cases hst
    refine h.goto (by rw [hpc]; rfl) (by rw [hpc]; rfl) ⟨ho, ?_⟩
    simp only [Closing, rtmBatchN] at hmod hle hlast ⊢
    omega
  · rename_i hlast
    cases hst
    refine h.goto (by rw [hpc]; rfl) (by rw [hpc]; rfl)
      ⟨?_, fun hno => absurd ho hno⟩
    intro _
    simp only [rtmBatchN] at hmod hle hlast ⊢
    omega

/-- The store of the advanced cursor: only the owner sees it. -/
theorem InvAt.advance (h : InvAt order w prog m₀ k j s) {p : Nat} {c : Option (Made Addr)}
    (hpc : s.pc t = .advance p c) :
    InvAt order w prog m₀ k j ({ s with buf := p + 1 }.goto t (.setNext p c)) := by
  have hthr := h.thr t
  rw [hpc] at hthr
  have hp : p = k + 1 := hthr.2.2.1
  have ho : Owner order k t := hthr.1
  refine h.stutter (t := t) ?_ rfl (fun u hu => Function.update_of_ne hu _ _) ?_
    h.cnt (by simp only [State.goto, Function.update_self]; exact hthr)
  · exact goto_config (s := { s with buf := p + 1 }) (by rw [hpc]; rfl)
  · intro u hu
    obtain rfl := ho.eq hu
    simp [State.goto, Pc.moved, hp]

/-- `read_log_entry` at the end of a block: the next entry, or the end of the log and with it the
end of the last block. -/
theorem InvAt.readEntry (hg : Good nthr order w prog m₀) (h : InvAt order w prog m₀ k j s)
    {c : Option (Made Addr)} (hpc : s.pc t = .readEntry c)
    (hst : step (order.map (fun t : Nat => (t : Int))) w prog s t = .next s') :
    ∃ j', InvAt order w prog m₀
      (k + (s.closes (order.map (fun t : Nat => (t : Int))) t).toNat) j' s' := by
  have hthr := h.thr t
  rw [hpc] at hthr
  obtain ⟨ho, hc⟩ := hthr
  have hbuf := h.buf t ho
  have hk := ho.lt
  rw [hpc] at hbuf
  simp only [Pc.moved, Nat.add_zero] at hbuf
  simp only [Replay.step, hpc, List.length_map] at hst
  simp only [State.closes, hpc, List.length_map]
  split at hst
  · rename_i hend
    cases hst
    have hlast : order.length = k + 1 := by omega
    have hnone : ∀ u, ¬ Owner order (k + 1) u := fun u hu => absurd hu.lt (by omega)
    rw [decide_eq_true hend]
    exact ⟨0, h.close hg ho hc (by rw [hpc]; rfl) (by omega) (fun u hu => absurd hu (hnone u))⟩
  · rename_i hmore
    cases hst
    rw [decide_eq_false hmore]
    exact ⟨j, h.goto (by rw [hpc]; rfl) (by rw [hpc]; rfl) ⟨ho, hc, hbuf, by omega⟩⟩

/-- `g_next_thr = *next`: the block is closed and the turn handed over. -/
theorem InvAt.setNext (hg : Good nthr order w prog m₀) (h : InvAt order w prog m₀ k j s) {p : Nat}
    {c : Option (Made Addr)} (hpc : s.pc t = .setNext p c)
    (hst : step (order.map (fun t : Nat => (t : Int))) w prog s t = .next s') :
    InvAt order w prog m₀ (k + 1) 0 s' := by
  have hthr := h.thr t
  rw [hpc] at hthr
  obtain ⟨ho, hc, rfl, hk⟩ := hthr
  have hbuf := h.buf t ho
  rw [hpc] at hbuf
  simp only [Replay.step, hpc] at hst
  cases hst
  refine h.close hg ho hc (by rw [hpc]; rfl) (fun _ => hbuf) ?_
  intro u hu
  rw [List.getD_eq_getElem?_getD, List.getElem?_map, hu]
  rfl

/-- **What one step keeps**, and which steps close a block. -/
theorem InvAt.step_closes (hg : Good nthr order w prog m₀) (hn : nthr ≤ 127)
    (h : InvAt order w prog m₀ k j s) (ht : t < nthr)
    (hst : step (order.map (fun t : Nat => (t : Int))) w prog s t = .next s') :
    ∃ j', InvAt order w prog m₀
      (k + (s.closes (order.map (fun t : Nat => (t : Int))) t).toNat) j' s' := by
  have hthr := h.thr t
  have htid : tidT t = t := tidT_of_lt (by omega)
  -- everywhere else nothing is closed
  have hkeep : s.closes (order.map (fun t : Nat => (t : Int))) t = false →
      (∃ j', InvAt order w prog m₀ k j' s') → ∃ j', InvAt order w prog m₀
        (k + (s.closes (order.map (fun t : Nat => (t : Int))) t).toNat) j' s' := by
    intro hc hinv
    rw [hc]
    exact hinv
  cases hpc : s.pc t with
  | start => exact hkeep (by simp [State.closes, hpc]) ⟨j, h.start hg ht hpc hst⟩
  | wait acc =>
    refine hkeep (by simp [State.closes, hpc]) ?_
    rw [hpc] at hthr
    simp only [Replay.step, hpc] at hst
    split at hst
    · cases hst
    · rename_i hturn
      cases hst
      -- whoever sees its number in `g_next_thr` owns the open block
      have ho := h.owner_of_turn hg ht hthr.1 ((not_not.mp hturn).trans htid)
      exact ⟨j, h.goto (by rw [hpc]; rfl) (by rw [hpc]; rfl) ⟨hthr.1, ho, hthr.2.2 ho⟩⟩
  | check acc =>
    refine hkeep (by simp [State.closes, hpc]) ?_
    rw [hpc] at hthr
    simp only [Replay.step, hpc] at hst
    split at hst
    · cases hst
      exact ⟨j, h.goto (by rw [hpc]; rfl) (by rw [hpc]; rfl) hthr⟩
    · cases hst
  | access acc =>
    refine hkeep (by simp [State.closes, hpc]) ?_
    simp only [Replay.step, hpc] at hst
    cases hst
    exact ⟨j + 1, h.access hpc⟩
  | after m => exact hkeep (by simp [State.closes, hpc]) ⟨j, h.after hg ht hpc hst⟩
  | readEntry c => exact h.readEntry hg hpc hst
  | advance p c =>
    refine hkeep (by simp [State.closes, hpc]) ?_
    simp only [Replay.step, hpc] at hst
    cases hst
    exact ⟨j, h.advance hpc⟩
  -- the one place where the next entry of the log becomes the open block
  | setNext p c =>
    have hc : s.closes (order.map (fun t : Nat => (t : Int))) t = true := by
      simp [State.closes, hpc]
    rw [hc]
    exact ⟨0, h.setNext hg hpc hst⟩
  | count m =>
    refine hkeep (by simp [State.closes, hpc]) ?_
    simp only [Replay.step, hpc] at hst
    cases hst
    exact ⟨j, h.count hpc⟩
  | finished =>
    simp only [Replay.step, hpc] at hst
    cases hst

/-- `mem_init` reads the first entry of the log. -/
theorem InvAt.memInit (hn : memInit m₀ (order.map (fun t : Nat => (t : Int))) = some s) :
    InvAt order w prog m₀ 0 0 s := by
  cases order with
  | nil => cases hn
  | cons t ts =>
    obtain rfl := Option.some.inj hn
    have hfirst : ∀ u, Owner (t :: ts) 0 u → t = u := fun u hu => Option.some.inj hu
    refine ⟨Nat.zero_le _, Nat.zero_le _, fun _ => rfl, rfl, fun u _ => rfl, ?_,
      fun u _ => rfl, ?_, fun u => ⟨fun _ => by decide, fun _ => rfl⟩⟩
    · intro u hu
      rw [← hfirst u hu]
    · intro u
      cases w with
      | none => rfl
      | some b => simp [wrap]

/-- **Every reachable state is some accesses into some block of the serial run.** -/
theorem reach_invAt (hg : Good nthr order w prog m₀) (hn : nthr ≤ 127)
    (h : (sys nthr (order.map (fun t : Nat => (t : Int))) w prog m₀).Reach s) :
    ∃ k j, InvAt order w prog m₀ k j s := by
  refine Trans.Sys.reach_of_inductive (I := fun s => ∃ k j, InvAt order w prog m₀ k j s) ?_ ?_ h
  · intro s hs
    exact ⟨0, 0, InvAt.memInit hs⟩
  · rintro s l s' - ⟨k, j, hinv⟩ ⟨t, ht, hst⟩
    obtain ⟨j', hinv'⟩ := hinv.step_closes hg hn ht hst
    exact ⟨_, j', hinv'⟩

end Preserve

/-! ## 4. What the invariant gives

The assertion, progress, and what has been done at the end. -/

section Results

variable {nthr k j t : Nat} {order : List Nat} {w : Option Nat} {prog : Nat → Prog Addr}
  {m₀ : Addr → Val} {s : State Addr} {log : List Int}

/-- Where the program can stop. -/
theorem step_fail (h : Replay.step log w prog s t = .fail) :
    ∃ acc, s.pc t = .check acc ∧ s.nextThr ≠ tidT t := by
  cases hpc : s.pc t with
  | check acc =>
    refine ⟨acc, rfl, ?_⟩
    intro hturn
    simp only [Replay.step, hpc, hturn, if_true] at h
    cases h
  | start =>
    simp only [Replay.step, hpc] at h
    split at h <;> split at h <;> cases h
  | wait acc | after m | readEntry c =>
    simp only [Replay.step, hpc] at h
    split at h <;> cases h
  | access acc | advance p c | setNext p c | count m | finished =>
    simp only [Replay.step, hpc] at h
    cases h

/-- **`assert(g_next_thr == g_tid)` holds**: a thread past its wait is the owner. -/
theorem InvAt.not_fail (h : InvAt order w prog m₀ k j s) (ht : t < 128) :
    Replay.step log w prog s t ≠ .fail := by
  intro hst
  obtain ⟨acc, hpc, hne⟩ := step_fail hst
  have hthr := h.thr t
  rw [hpc] at hthr
  exact hne ((h.turn t hthr.2.1).trans (tidT_of_lt ht).symm)

/-- Only a thread that waits can be held up. -/
theorem exists_step (hf : s.pc t ≠ .finished)
    (hturn : ∀ acc, s.pc t = .wait acc ∨ s.pc t = .check acc → s.nextThr = tidT t) :
    ∃ s', Replay.step log w prog s t = .next s' := by
  cases hpc : s.pc t with
  | start =>
    simp only [Replay.step, hpc]
    split <;> split <;> exact ⟨_, rfl⟩
  | wait acc =>
    refine ⟨s.goto t (.check acc), ?_⟩
    simp [Replay.step, hpc, hturn acc (Or.inl hpc)]
  | check acc =>
    refine ⟨s.goto t (.access acc), ?_⟩
    simp [Replay.step, hpc, hturn acc (Or.inr hpc)]
  | access acc | advance p c | setNext p c | count m =>
    simp only [Replay.step, hpc]
    exact ⟨_, rfl⟩
  | after m | readEntry c =>
    simp only [Replay.step, hpc]
    split <;> exact ⟨_, rfl⟩
  | finished => exact absurd hpc hf

/-- **While a thread has not finished, some thread can take a step.**  It steps itself unless it
waits; then it has an access to make, a block is open, and the owner of that block steps. -/
theorem InvAt.progress (hg : Good nthr order w prog m₀) (hn : nthr ≤ 127)
    (h : InvAt order w prog m₀ k j s) (ht : t < nthr) (hf : s.pc t ≠ .finished) :
    ∃ u < nthr, ∃ s', Replay.step log w prog s u = .next s' := by
  rcases Nat.lt_or_eq_of_le h.k_le with hk | rfl
  · -- the owner of the open block has the turn
    have ho : Owner order k order[k] := List.getElem?_eq_getElem hk
    have hlt := hg.tids _ (List.getElem_mem hk)
    refine ⟨order[k], hlt, exists_step ?_ ?_⟩
    · intro hpc
      have hthr := h.thr order[k]
      rw [hpc] at hthr
      exact hthr.2 ho
    · intro _ _
      rw [h.turn _ ho, tidT_of_lt (by omega)]
  · -- all blocks are closed and no thread waits
    refine ⟨t, ht, exists_step hf ?_⟩
    intro acc hacc
    have hthr := h.thr t
    have hnext : s.config.next prog t = some acc := by
      rcases hacc with hpc | hpc
      · rw [hpc] at hthr; exact hthr.1
      · rw [hpc] at hthr; exact hthr.1
    exact absurd (h.open_of_next hg ht hnext) (by omega)

/-- **When all threads have finished, the serial run is complete.** -/
theorem InvAt.complete (hg : Good nthr order w prog m₀) (h : InvAt order w prog m₀ k j s)
    (hf : ∀ t < nthr, s.pc t = .finished) : s.config = serial prog m₀ order := by
  rcases Nat.lt_or_eq_of_le h.k_le with hk | rfl
  · have ho : Owner order k order[k] := List.getElem?_eq_getElem hk
    have hthr := h.thr order[k]
    rw [hf _ (hg.tids _ (List.getElem_mem hk))] at hthr
    exact absurd ho hthr.2
  · exact h.cfg_end

end Results

end MemOrder.Commit.Replay
