/-
# `mem-record-rtmcluster.c`: one transaction per block of accesses

A thread's accesses are cut into blocks of `RTM_BATCH_N`.  A block begins with `_xbegin`.  If the
transaction commits, all accesses of the block take effect at its `_xend`: at the last access of
the block, or in `before_finish_thr` for the partial block of a thread that ends.  If it aborts
the thread is back at its `_xbegin`, and every access of the block goes through the fallback code,
one at a time, until `g_sim_bbcnt` comes to the next block.

`g_sim_bbcnt` is a 32-bit `int`, and the tests on it are C's truncating remainder.  When a thread has
made 2^31 accesses it wraps: the block that began at 2^31-2 has four accesses, and while the counter
is negative the test for the last access of a block never holds, so no transaction comes to the
`_xend` there.  It is still open at the next block's `assert(!_xtest())`, which aborts it.  A thread
that ends inside such a block commits it all the same, in `before_finish_thr` (`xend`).

Inside a transaction each read checks for an odd version and each write for a taken lock; nothing
is checked at the end.  The guards are enough because the effect of a block is the effect of its
accesses one after another: each keeps the invariant, the later ones in the state the earlier
ones leave, and no other thread comes between.  Where a block is cut plays no part in this, so the
result holds of a thread with any number of accesses.
-/
import MemOrder.Rtm.Tx
import MemOrder.Lib.Trans

namespace MemOrder.Rtm.Cluster

open Tso Seqlock

variable {Addr : Type} [DecidableEq Addr]

/-! ## 1. The model

The state of the seqlock, with the counter of each thread.  `blocks` is not in the source; it
remembers which accesses were committed together. -/

/-- `mem_read` inside a transaction: the memory it leaves, the version and the value, or an
abort. -/
def memReadTx (L : Layout Addr) (m : Mem Addr) (a : Addr) : Option (Mem Addr × Int × Val) :=
  let version := m.version (L.calcObjid a)
  if version % 2 = 1 then none else some (m, version, m.val a)

/-- `mem_write` inside a transaction. -/
def memWriteTx (L : Layout Addr) (m : Mem Addr) (a : Addr) (x : Val) :
    Option (Mem Addr × Int × Val) :=
  let version := m.version (L.calcObjid a)
  if m.writeLock (L.calcObjid a) then none
  else
    let m₁ := m.store (.val a x)
    some (m₁.store (.version (L.calcObjid a) (m₁.version (L.calcObjid a) + 2)), version, x)

def tx (L : Layout Addr) (m : Mem Addr) : Acc Addr → Option (Mem Addr × Int × Val)
  | .read a => memReadTx L m a
  | .write a x => memWriteTx L m a x

/-- The accesses of a transaction of thread `t`, one after another; an abort of one aborts all. -/
def runTx (L : Layout Addr) (t : Nat) : List (Acc Addr) → Seqlock.State Addr →
    Option (Seqlock.State Addr)
  | [], s => some s
  | acc :: accs, s =>
    (tx L s.mem acc).bind fun r => runTx L t accs (committed s t acc r.1 r.2.1 r.2.2)

/-- How a transaction in which `n` more accesses are made comes to its `_xend`, with `g_sim_bbcnt` at
`c`: at the last of them, the end of the block, or after it in `before_finish_thr`, when the thread
ends there (`some true`); or not at all. -/
def xend : Nat → Int → Option Bool
  | 0, c => if c.tmod rtmBatchN ≠ 0 then some true else none
  | n + 1, c =>
    if c.tmod rtmBatchN = (rtmBatchN : Int) - 1 then if n = 0 then some false else none
    -- `assert(!_xtest())` at the next access
    else if n ≠ 0 ∧ (int32 (c + 1)).tmod rtmBatchN = 0 then none
    else xend n (int32 (c + 1))

/-- A seqlock run, with each thread's `g_sim_bbcnt`, whether it has finished, and the accesses of
the blocks committed so far. -/
structure State (Addr : Type) extends Seqlock.State Addr where
  simBbcnt : Nat → Int
  finished : Nat → Bool
  blocks : List (List (Event Addr))

namespace State

variable (L : Layout Addr) (s : State Addr) (t : Nat)

/-- Thread `t` is between two accesses and will make another. -/
def ready : Prop := s.pc t = .idle ∧ s.finished t = false

instance : Decidable (s.ready t) := inferInstanceAs (Decidable (_ ∧ _))

/-- The block that thread `t` begins here commits, at its last access or in `before_finish_thr`. -/
def commit (accs : List (Acc Addr)) : Option (State Addr) :=
  if s.ready t ∧ (s.simBbcnt t).tmod rtmBatchN = 0 ∧ accs ≠ [] then
    (xend accs.length (s.simBbcnt t)).bind fun last =>
      (runTx L t accs s.toState).map fun c =>
        { toState := c
          simBbcnt := Function.update s.simBbcnt t (int32 (s.simBbcnt t + accs.length))
          finished := Function.update s.finished t last
          blocks := s.blocks ++ [(c.done t).drop (s.done t).length] }
  else none

/-- Thread `t` makes an access outside a transaction: its block has aborted. -/
def call (acc : Acc Addr) : Option (State Addr) :=
  if s.ready t then (s.toState.call t acc).map fun c => { s with toState := c } else none

/-- One instruction of a fallback access; the access is counted when it is over. -/
def instr : Option (State Addr) :=
  (scInstr L s.toState t).map fun r =>
    { s with
      toState := r.1
      simBbcnt :=
        match r.2 with
        | .goto _ => s.simBbcnt
        | .ret _ _ _ _ => Function.update s.simBbcnt t (int32 (s.simBbcnt t + 1)) }

/-- `before_finish_thr`, outside a transaction. -/
def finish : Option (State Addr) :=
  if s.ready t then some { s with finished := Function.update s.finished t true } else none

end State

/-- The state before the run. -/
def State.initial (m₀ : Addr → Val) : State Addr :=
  ⟨.initial m₀, fun _ => 0, fun _ => false, []⟩

/-- The recorder: `nthr` threads, any accesses, any choice of committing or aborting for each
block, any interleaving. -/
def sys (L : Layout Addr) (nthr : Nat) (m₀ : Addr → Val) : Trans.Sys (State Addr) Unit where
  init s := s = .initial m₀
  step s _ s' := ∃ t < nthr, (∃ accs, s.commit L t accs = some s') ∨
    (∃ acc, s.call t acc = some s') ∨ s.instr L t = some s' ∨ s.finish t = some s'

/-! ## 2. Where a block is cut

What the counter allows.  The recorder relies on none of this for the order of its accesses; it
bounds the number of accesses of a block, which is what the queue of `MemOrder.Record.Batch` has
room for. -/

/-- The truncating remainder is zero where the other one is. -/
theorem tmod_eq_zero_iff (c : Int) : c.tmod rtmBatchN = 0 ↔ c % 7 = 0 := by
  rw [← Int.dvd_iff_tmod_eq_zero, ← Int.dvd_iff_emod_eq_zero]
  rfl

/-- A transaction that is open at `g_sim_bbcnt = c` makes at most the accesses that are left of seven.
The induction is on the accesses: the remainder grows by one with each, or by four where the counter
wraps, and an open transaction never sees it come to zero. -/
theorem xend_add_le {n : Nat} {c : Int} {last : Bool} (hlo : -2 ^ 31 ≤ c) (hhi : c < 2 ^ 31)
    (h : xend n c = some last) : (n : Int) + c % 7 ≤ 7 := by
  induction n generalizing c with
  | zero => omega
  | succ n ih =>
    have hnext := int32_succ hlo hhi
    have hbounds := int32_bounds (c + 1)
    rw [xend] at h
    split at h
    · split at h
      · omega
      · cases h
    split at h
    · cases h
    · rename_i hopen
      have hle := ih hbounds.1 hbounds.2 h
      rw [tmod_eq_zero_iff] at hopen
      split at hnext <;> omega

/-- While the counter is negative no transaction ends with its block. -/
theorem xend_of_neg {n : Nat} {c : Int} (hlo : -2 ^ 31 ≤ c) (hn : c + n ≤ 0) :
    xend n c ≠ some false := by
  induction n generalizing c with
  | zero =>
    rw [xend]
    split <;> simp
  | succ n ih =>
    have hnext := int32_succ hlo (by omega)
    rw [if_neg (by omega)] at hnext
    have hneg := Int.tmod_nonneg rtmBatchN (show 0 ≤ -c by omega)
    rw [Int.neg_tmod] at hneg
    have hne : ¬ c.tmod rtmBatchN = (rtmBatchN : Int) - 1 := by
      have hseven : (rtmBatchN : Int) = 7 := rfl
      omega
    rw [xend, if_neg hne, hnext]
    split
    · simp
    · exact ih (by omega) (by omega)

-- full blocks from 0 and from -7 on, and the block at the wrap, left after three and after four accesses
example : xend 7 0 = some false ∧ xend 7 (-7) = none ∧ xend 3 (2 ^ 31 - 2) = some true ∧
    xend 4 (2 ^ 31 - 2) = none := by decide

/-! ## 3. A committed block is a run of atomic accesses

The accesses of a block one after another, each against the invariant of the seqlock. -/

section Tx

variable {L : Layout Addr} {m₀ : Addr → Val} {s s' : Seqlock.State Addr}
  {tr : List (Event Addr)} {t : Nat}

/-- An access inside a transaction is an atomic access. -/
theorem inv_tx (h : Inv L m₀ s tr) (hpc : s.pc t = .idle) (hbuf : s.buf t = []) {acc : Acc Addr}
    {r : Mem Addr × Int × Val} (htx : tx L s.mem acc = some r) :
    Inv L m₀ (committed s t acc r.1 r.2.1 r.2.2)
      (tr ++ [s.event t acc.op acc.addr r.2.1 r.2.2]) := by
  cases acc with
  | read a =>
    simp only [tx, memReadTx] at htx
    split at htx
    · cases htx
    · cases htx
      exact inv_txRead h hpc (by omega)
  | write a x =>
    simp only [tx, memWriteTx] at htx
    split at htx
    · cases htx
    · rename_i hlock
      cases htx
      exact inv_txWrite h hpc hbuf (by simpa using hlock)

/-- **A committed block** adds its accesses to the order, and nothing between them. -/
theorem inv_runTx : ∀ (accs : List (Acc Addr)) {s : Seqlock.State Addr} {tr : List (Event Addr)},
    Inv L m₀ s tr → s.pc t = .idle → s.buf t = [] → runTx L t accs s = some s' →
    ∃ es, Inv L m₀ s' (tr ++ es) ∧ s'.done t = s.done t ++ es ∧ s'.buf = s.buf ∧
      es.length = accs.length
  | [], s, tr, h, _, _, hrun => by
    cases hrun
    exact ⟨[], by simpa using h, by simp, rfl, rfl⟩
  | acc :: accs, s, tr, h, hpc, hbuf, hrun => by
    obtain ⟨r, htx, hrest⟩ := Option.bind_eq_some_iff.mp hrun
    obtain ⟨es, hinv, hdone, hb, hlen⟩ := inv_runTx accs (inv_tx h hpc hbuf htx) hpc hbuf hrest
    refine ⟨s.event t acc.op acc.addr r.2.1 r.2.2 :: es, ?_, ?_, hb, congrArg (· + 1) hlen⟩
    · rw [List.append_assoc] at hinv
      exact hinv
    · rw [hdone]
      simp [committed]

end Tx

/-! ## 4. Every reachable state

The blocks stand in the order in one piece, since they were added to it in one step and it only
grows at its end. -/

section Reach

variable {L : Layout Addr} {nthr : Nat} {m₀ : Addr → Val} {s s' : State Addr} {t : Nat}

/-- The seqlock invariant, with the committed blocks standing in one piece in the order.  The counters
are `int`s, so a block has no more accesses than `xend` lets it have. -/
structure ClusterInv (L : Layout Addr) (m₀ : Addr → Val) (s : State Addr)
    (tr : List (Event Addr)) : Prop where
  inv : Inv L m₀ s.toState tr
  buf : ∀ t, s.buf t = []
  blocks : ∀ B ∈ s.blocks, B <:+: tr ∧ B.length ≤ rtmBatchN
  bbcnt : ∀ t, -2 ^ 31 ≤ s.simBbcnt t ∧ s.simBbcnt t < 2 ^ 31

/-- An `int` takes the place of the counter of one thread. -/
theorem bbcnt_update {f : Nat → Int} (h : ∀ t, -2 ^ 31 ≤ f t ∧ f t < 2 ^ 31) (t : Nat) (i : Int)
    (u : Nat) :
    -2 ^ 31 ≤ Function.update f t (int32 i) u ∧ Function.update f t (int32 i) u < 2 ^ 31 := by
  rcases eq_or_ne u t with rfl | hu
  · rw [Function.update_self]
    exact int32_bounds i
  · rw [Function.update_of_ne hu]
    exact h u

/-- A committed block goes to the end of the order. -/
theorem ClusterInv.step_commit {tr : List (Event Addr)} (h : ClusterInv L m₀ s tr)
    {accs : List (Acc Addr)} (hst : s.commit L t accs = some s') :
    ∃ tr', ClusterInv L m₀ s' tr' := by
  unfold State.commit at hst
  split at hst
  · rename_i hc
    obtain ⟨last, hlast, hst⟩ := Option.bind_eq_some_iff.mp hst
    obtain ⟨c, hrun, rfl⟩ := Option.map_eq_some_iff.mp hst
    obtain ⟨es, hinv, hdone, hb, hlen⟩ := inv_runTx accs h.inv hc.1.1 (h.buf t) hrun
    have hle := xend_add_le (h.bbcnt t).1 (h.bbcnt t).2 hlast
    rw [(tmod_eq_zero_iff _).mp hc.2.1] at hle
    refine ⟨tr ++ es, hinv, ?_, ?_, bbcnt_update h.bbcnt t _⟩
    · intro u
      show c.buf u = []
      rw [hb]
      exact h.buf u
    · intro B hB
      rcases List.mem_append.mp hB with hB | hB
      · exact ⟨(h.blocks B hB).1.trans (List.infix_append' [] tr es), (h.blocks B hB).2⟩
      · rw [List.mem_singleton] at hB
        rw [hB, hdone, List.drop_left, hlen]
        refine ⟨(List.suffix_append tr es).isInfix, ?_⟩
        show accs.length ≤ 7
        omega
  · cases hst

/-- A call changes the place of its thread. -/
theorem ClusterInv.step_call {tr : List (Event Addr)} (h : ClusterInv L m₀ s tr)
    {acc : Acc Addr} (hst : s.call t acc = some s') : ClusterInv L m₀ s' tr := by
  unfold State.call at hst
  split at hst
  · obtain ⟨c, hc, rfl⟩ := Option.map_eq_some_iff.mp hst
    refine ⟨inv_call h.inv hc, ?_, h.blocks, h.bbcnt⟩
    intro u
    unfold Seqlock.State.call at hc
    split at hc
    · cases hc
      exact h.buf u
    · cases hc
  · cases hst

/-- A fallback instruction is the seqlock's, and a block that stands in the order stays in one
piece. -/
theorem ClusterInv.step_instr {tr : List (Event Addr)} (h : ClusterInv L m₀ s tr)
    (hst : s.instr L t = some s') : ClusterInv L m₀ s' (tr ++ s.toState.enters L t) := by
  obtain ⟨⟨c, n⟩, hc, rfl⟩ := Option.map_eq_some_iff.mp hst
  refine ⟨inv_scInstr h.inv h.buf hc, ?_, ?_, ?_⟩
  · intro u
    show c.buf u = []
    rw [scInstr_buf hc]
    exact h.buf u
  · intro B hB
    exact ⟨(h.blocks B hB).1.trans (List.infix_append' [] tr _), (h.blocks B hB).2⟩
  · cases n with
    | goto p => exact h.bbcnt
    | ret op a v x => exact bbcnt_update h.bbcnt t _

/-- Every reachable state has its order. -/
theorem reach_inv (h : (sys L nthr m₀).Reach s) : ∃ tr, ClusterInv L m₀ s tr := by
  refine Trans.Sys.reach_of_inductive (I := fun s => ∃ tr, ClusterInv L m₀ s tr) ?_ ?_ h
  · rintro s rfl
    have hzero : -2 ^ 31 ≤ (0 : Int) ∧ (0 : Int) < 2 ^ 31 := by decide
    exact ⟨[], inv_initial, fun _ => rfl, fun B hB => absurd hB (by simp [State.initial]),
      fun _ => hzero⟩
  · rintro s l s' - ⟨tr, hinv⟩ ⟨t, -, ⟨accs, hst⟩ | ⟨acc, hst⟩ | hst | hst⟩
    · exact hinv.step_commit hst
    · exact ⟨tr, hinv.step_call hst⟩
    · exact ⟨_, hinv.step_instr hst⟩
    · unfold State.finish at hst
      split at hst
      · cases hst
        exact ⟨tr, hinv.inv, hinv.buf, hinv.blocks, hinv.bbcnt⟩
      · cases hst

/-- No committed block has more than `RTM_BATCH_N` accesses. -/
theorem blocks_length_le (h : (sys L nthr m₀).Reach s) {B : List (Event Addr)} (hB : B ∈ s.blocks) :
    B.length ≤ rtmBatchN := by
  obtain ⟨tr, hinv⟩ := reach_inv h
  exact (hinv.blocks B hB).2

/-! ## 5. Interleavings, executed

A run with a committed block beside a fallback access, and a partial block at the end. -/

/-- What one thread does next. -/
inductive Act (Addr : Type)
  | commit (accs : List (Acc Addr))
  | call (acc : Acc Addr)
  | instr
  | finish

def act (L : Layout Addr) (s : State Addr) : Nat × Act Addr → Option (Option Unit × State Addr)
  | (t, .commit accs) => (s.commit L t accs).map fun s' => (none, s')
  | (t, .call acc) => (s.call t acc).map fun s' => (none, s')
  | (t, .instr) => (s.instr L t).map fun s' => (none, s')
  | (t, .finish) => (s.finish t).map fun s' => (none, s')

/-- What is executed is a step. -/
theorem step_act {l : Option Unit} {p : Nat × Act Addr} (hlt : p.1 < nthr)
    (h : act L s p = some (l, s')) : (sys L nthr m₀).step s l s' := by
  obtain ⟨t, a⟩ := p
  cases a with
  | commit accs =>
    obtain ⟨s₁, hst, heq⟩ := Option.map_eq_some_iff.mp h
    cases heq
    exact ⟨t, hlt, Or.inl ⟨accs, hst⟩⟩
  | call acc =>
    obtain ⟨s₁, hst, heq⟩ := Option.map_eq_some_iff.mp h
    cases heq
    exact ⟨t, hlt, Or.inr (Or.inl ⟨acc, hst⟩)⟩
  | instr =>
    obtain ⟨s₁, hst, heq⟩ := Option.map_eq_some_iff.mp h
    cases heq
    exact ⟨t, hlt, Or.inr (Or.inr (Or.inl hst))⟩
  | finish =>
    obtain ⟨s₁, hst, heq⟩ := Option.map_eq_some_iff.mp h
    cases heq
    exact ⟨t, hlt, Or.inr (Or.inr (Or.inr hst))⟩

/-- Thread 1 writes A in the fallback handler and holds its lock, with the version not yet
raised, when a full block of thread 0 commits that reads A and writes and reads B.  Thread 1 goes
on; at the end thread 0's partial block is committed by `before_finish_thr`. -/
def clusterSched : List (Nat × Act Bool) :=
  [(1, .call (.write false 5)), (1, .instr), (1, .instr),
    (0, .commit [.read false, .write true 1, .read true, .write true 2, .read true, .read false,
      .read true])] ++
    List.replicate 7 (1, .instr) ++
    [(1, .finish), (0, .commit [.read false, .write false 8])]

/-- The state after it. -/
def clusterEnd : State Bool :=
  ((Trans.runSched (act pairLayout) clusterSched (.initial fun _ => 0)).map Prod.snd).getD
    (.initial fun _ => 0)

theorem cluster_reach : (sys pairLayout 2 (fun _ => 0)).Reach clusterEnd := by
  have hsome : (Trans.runSched (act pairLayout) clusterSched (.initial fun _ => 0)).isSome = true := by
    decide
  have hlt : ∀ p ∈ clusterSched, p.1 < 2 := by decide
  exact Trans.Sys.reach_end (fun p hp _ _ _ h => step_act (hlt p hp) h) rfl hsome

/-! ## 6. Serializability

What holds of the order, put together. -/

/-- **The clustered recorder is serializable.**  In every reachable state the accesses that have
taken effect stand in one order that is program order on every thread, respects the recorded
versions and has every committed block in one piece; the writes of each object record the versions
`0, 2, 4, ...`, and an object whose version is even is in memory what the order leaves. -/
theorem rtmcluster_serializable (h : (sys L nthr m₀).Reach s) :
    ∃ tr, (∀ t, thread t tr = s.effected t) ∧ Serial L m₀ tr ∧ (∀ B ∈ s.blocks, B <:+: tr) ∧
      (∀ o, (writesTo L o tr).map Event.version
        = (List.range (writesTo L o tr).length).map (fun k : Nat => 2 * (k : Int))) ∧
      (∀ o, s.mem.version o % 2 = 0 →
        s.mem.version o = (Shared.after L m₀ tr).ver o ∧
        ∀ b, L.calcObjid b = o → s.mem.val b = (Shared.after L m₀ tr).mem b) := by
  obtain ⟨tr, hinv⟩ := reach_inv h
  refine ⟨tr, hinv.inv.effected, hinv.inv.legal.serial, fun B hB => (hinv.blocks B hB).1,
    hinv.inv.legal.writesTo_version, ?_⟩
  intro o ho
  obtain ⟨h1, h2⟩ := hinv.inv.mem_even ho
  exact ⟨by rw [h1, Int.add_zero], h2⟩

/-- In the example both blocks of thread 0 commit, and its last write is at version 2. -/
theorem rtmcluster_serializable_blocks :
    clusterEnd.blocks.map List.length = [7, 2] ∧
      clusterEnd.effected 1 = [⟨1, 0, .W, false, 0, 5⟩] ∧
      (clusterEnd.effected 0).getLast? = some ⟨0, 8, .W, false, 2, 8⟩ ∧
      ∃ tr, (∀ t, thread t tr = clusterEnd.effected t) ∧ Serial pairLayout (fun _ => 0) tr ∧
        ∀ B ∈ clusterEnd.blocks, B <:+: tr :=
  ⟨by decide, by decide, by decide,
    let ⟨tr, h1, h2, h3, _⟩ := rtmcluster_serializable cluster_reach
    ⟨tr, h1, h2, h3⟩⟩

end Reach

end MemOrder.Rtm.Cluster
