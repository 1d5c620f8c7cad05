/-
# Who holds the turn in `mem-replay-rtmcommit.c`

`g_next_thr` and the cursor of the commit log are written without a lock.  A thread may write them
between two points of its own: it has passed the wait at the start of a block, and it has not yet
stored the next thread, or found that there is none.  This module says that no two threads are ever
between these points, that the blocks are closed in the order of the log, and that the threads do
not all wait.

The two points are the labels of the runs (`Turn`), so that "between them" is a fact about the run
(`Inside`) and the order of the closed blocks can be read off it; `State.inBlock` is the same in terms
of the place and the counter of the thread.  The counters are unbounded here.
-/
import MemOrder.Commit.Reproduce

namespace MemOrder.Commit.Replay

variable {Addr : Type} [DecidableEq Addr]

/-! ## 1. The two points

`turnSys` is the replayer with labels and nothing else: it has the same states and the same steps.
-/

/-- What a thread does to the turn. -/
inductive Turn
  /-- It has passed `while (g_next_thr != g_tid)`. -/
  | passed (t : Nat)
  /-- It has stored the next thread, or found the log exhausted. -/
  | closed (t : Nat)
deriving DecidableEq, Repr

def Turn.thread : Turn → Nat
  | .passed t | .closed t => t

/-- What the next step of `t` does to the turn. -/
def State.turn (log : List Int) (s : State Addr) (t : Nat) : Option Turn :=
  match s.pc t with
  | .wait _ => some (.passed t)
  | _ => if s.closes log t then some (.closed t) else none

/-- The replaying threads, with the turns as labels. -/
def turnSys (nthr : Nat) (log : List Int) (w : Option Nat) (prog : Nat → Prog Addr)
    (m₀ : Addr → Val) : Trans.Sys (State Addr) Turn where
  init s := memInit m₀ log = some s
  step s l s' := ∃ t < nthr, step log w prog s t = .next s' ∧ l = s.turn log t

/-- The threads of the closed blocks, in the order of closing. -/
def closedBy (ls : List Turn) : List Nat :=
  ls.filterMap fun
    | .closed t => some t
    | .passed _ => none

/-- Thread `t` has passed its wait and not closed the block since. -/
def Inside (ls : List Turn) (t : Nat) : Prop :=
  (ls.filter (fun l => l.thread == t)).getLast? = some (.passed t)

/-- Thread `t` is inside a block.  Between two accesses, and before the increment, the counter
tells whether the block goes on. -/
def State.inBlock (s : State Addr) (t : Nat) : Prop :=
  match s.pc t with
  | .start => (s.bbcnt t).tmod rtmBatchN ≠ 0
  | .count _ => (s.bbcnt t).tmod rtmBatchN ≠ rtmBatchN - 1
  | .wait _ | .finished => False
  | .check _ | .access _ | .after _ | .readEntry _ | .advance _ _ | .setNext _ _ => True

omit [DecidableEq Addr] in
/-- A step from the wait passes it. -/
theorem turn_of_wait (log : List Int) {s : State Addr} {t : Nat} {acc : Acc Addr}
    (hpc : s.pc t = .wait acc) : s.turn log t = some (.passed t) ∧ s.closes log t = false := by
  simp [State.turn, State.closes, hpc]

omit [DecidableEq Addr] in
/-- Any other step closes a block or has no label. -/
theorem turn_of_not_wait {log : List Int} {s : State Addr} {t : Nat}
    (hpc : ¬ ∃ acc, s.pc t = .wait acc) :
    s.turn log t = if s.closes log t then some (.closed t) else none := by
  unfold State.turn
  split
  · rename_i acc hw
    exact absurd ⟨acc, hw⟩ hpc
  · rfl

omit [DecidableEq Addr] in
/-- A block is closed from inside. -/
theorem inBlock_of_closes {log : List Int} {s : State Addr} {t : Nat}
    (h : s.closes log t = true) : s.inBlock t := by
  unfold State.closes at h
  unfold State.inBlock
  cases hpc : s.pc t with
  | setNext p c | readEntry c => trivial
  | _ => rw [hpc] at h; cases h

/-- The labels only add to the runs. -/
theorem exec_of_reach {nthr : Nat} {log : List Int} {w : Option Nat} {prog : Nat → Prog Addr}
    {m₀ : Addr → Val} {s : State Addr} (h : (sys nthr log w prog m₀).Reach s) :
    ∃ ls, (turnSys nthr log w prog m₀).Exec ls s := by
  induction h with
  | init hs => exact ⟨[], .init hs⟩
  | step _ hst ih =>
    obtain ⟨ls, hls⟩ := ih
    obtain ⟨t, ht, hst⟩ := hst
    exact ⟨_, hls.step ⟨t, ht, hst, rfl⟩⟩

/-! ## 2. One step

What a step does to `State.inBlock`, from the invariant of the replayer.  For the other threads it
does nothing; for the thread itself it is true after the step if it was true before or the wait has
been passed, and the step does not close the block. -/

section Step

variable {nthr k j t u : Nat} {order : List Nat} {prog : Nat → Prog Addr} {m₀ : Addr → Val}
  {s s' : State Addr} {log : List Int} {w : Option Nat}

/-- A step leaves the other threads where they are. -/
theorem inBlock_frame (hst : step log w prog s t = .next s') (hu : u ≠ t) :
    s'.inBlock u ↔ s.inBlock u := by
  rw [State.inBlock, State.inBlock, (step_frame hst).1 u hu, (step_bbcnt_of_ne hst hu).1]

/-- An unbounded counter is the number of accesses. -/
theorem InvAt.cnt_tmod (h : InvAt order none prog m₀ k j s) (t : Nat) :
    (s.bbcnt t).tmod rtmBatchN = ((s.done t).length % rtmBatchN : Nat) := by
  rw [h.cnt t]
  exact tmod_of_lt (w := none) trivial

/-- **Who is inside a block owns it.**  At each place inside of a block the invariant says so.
Between two accesses it is the counter that tells: it is a multiple of the block size, or about to
become one, for every thread that does not own the open block. -/
theorem InvAt.owner_of_inBlock (h : InvAt order none prog m₀ k j s) (hin : s.inBlock t) :
    Owner order k t := by
  have hthr := h.thr t
  have hcnt := h.cnt_tmod t
  unfold State.inBlock at hin
  cases hpc : s.pc t with
  | start =>
    rw [hpc] at hthr hin
    by_contra hno
    have hlen := hthr.2 hno
    rw [config_done, hpc] at hlen
    simp only [Pc.pending, List.append_nil] at hlen
    rw [hcnt, hlen] at hin
    exact hin rfl
  | count m =>
    rw [hpc] at hthr hin
    by_contra hno
    have hlen := hthr.2 hno
    rw [config_done, hpc] at hlen
    simp only [Pc.pending, List.length_append, List.length_singleton, rtmBatchN] at hlen hin hcnt
    omega
  | wait acc | finished => rw [hpc] at hin; exact absurd hin id
  | check acc | access acc => rw [hpc] at hthr; exact hthr.2.1
  | after m | readEntry c | advance p c | setNext p c => rw [hpc] at hthr; exact hthr.1

/-- A block closed by an access is full, so the counter says that it is over. -/
theorem InvAt.not_inBlock_resume (hg : Good nthr order none prog m₀)
    (h : InvAt order none prog m₀ k j s) (s' : State Addr) {c : Option (Made Addr)}
    (ho : Owner order k t) (hc : Closing j (s.config.next prog t) c)
    (hpend : (s.pc t).pending = c.toList) (hpc : s'.pc t = resume c) (hcnt : s'.bbcnt t = s.bbcnt t) : ¬ s'.inBlock t := by
  unfold State.inBlock
  rw [hpc]
  cases c with
  | none => exact id
  | some m =>
    have hfull : j = rtmBatchN := hc
    have hmod := h.owner_mod hg ho
    have htmod := h.cnt_tmod t
    rw [config_done, hpend, hfull] at hmod
    simp only [resume, hcnt, ne_eq, not_not]
    simp only [Option.toList_some, List.length_append, List.length_singleton, rtmBatchN] at hmod htmod ⊢
    omega

/-- **A thread comes into a block by passing its wait and leaves it by closing it.** -/
theorem InvAt.inBlock_step (hg : Good nthr order none prog m₀)
    (h : InvAt order none prog m₀ k j s) (hst : step log none prog s t = .next s') :
    s'.inBlock t ↔
      (s.inBlock t ∨ ∃ acc, s.pc t = .wait acc) ∧ s.closes log t = false := by
  have hthr := h.thr t
  cases hpc : s.pc t with
  | start =>
    simp only [step, hpc] at hst
    split at hst <;> split at hst <;> cases hst <;> simp_all [State.inBlock, State.closes, State.goto]
  | wait acc =>
    simp only [step, hpc] at hst
    split at hst <;> cases hst
    simp [State.inBlock, State.closes, State.goto, hpc]
  | check acc =>
    simp only [step, hpc] at hst
    split at hst <;> cases hst
    simp [State.inBlock, State.closes, State.goto, hpc]
  | access acc | advance p c =>
    simp only [step, hpc] at hst
    cases hst
    simp [State.inBlock, State.closes, State.goto, hpc]
  | after m =>
    simp only [step, hpc] at hst
    split at hst <;> cases hst <;> simp_all [State.inBlock, State.closes, State.goto]
  -- the log is at its end and the block is closed here, or the thread goes on inside
  | readEntry c =>
    rw [hpc] at hthr
    simp only [step, hpc] at hst
    split at hst
    · rename_i hend
      cases hst
      have hout := h.not_inBlock_resume hg (s.goto t (resume c)) hthr.1 hthr.2
        (by rw [hpc]; rfl) (by simp [State.goto]) rfl
      simp [hout, State.closes, hpc, hend]
    · rename_i hmore
      cases hst
      simp [State.inBlock, State.closes, State.goto, hpc, hmore]
  -- the next thread is stored: the block is closed
  | setNext p c =>
    rw [hpc] at hthr
    simp only [step, hpc] at hst
    cases hst
    have hout := h.not_inBlock_resume hg
      ({ s with nextThr := log.getD p 0 }.goto t (resume c)) hthr.1 hthr.2.1
      (by rw [hpc]; rfl) (by simp [State.goto]) rfl
    have hcl : s.closes log t = true := by simp [State.closes, hpc]
    rw [hcl]
    exact iff_of_false hout (fun hc => absurd hc.2 (by decide))
  -- before the increment the remainder is compared with the last of a block, after it with zero
  | count m =>
    have hcnt := h.cnt_tmod t
    have hnext : (wrap none (s.bbcnt t + 1)).tmod rtmBatchN
        = (((s.done t).length + 1) % rtmBatchN : Nat) := by
      rw [h.cnt t, wrap_succ]
      exact tmod_of_lt (w := none) trivial
    simp only [step, hpc] at hst
    cases hst
    simp only [State.inBlock, State.closes, State.goto, hpc, Function.update_self, hnext, hcnt,
      reduceCtorEq, exists_false, or_false, and_true]
    simp only [rtmBatchN]
    omega
  | finished =>
    simp only [step, hpc] at hst
    cases hst

end Step

/-! ## 3. Whole runs

`Inside` obeys the same rule, so that the two agree along every run; and each label `closed` takes
one entry of the log. -/

section Runs

variable {nthr k j t u : Nat} {order : List Nat} {prog : Nat → Prog Addr} {m₀ : Addr → Val}
  {s s' : State Addr} {ls : List Turn}

/-- The last label of the thread decides. -/
theorem inside_snoc_self {l : Turn} (hl : l.thread = t) : Inside (ls ++ [l]) t ↔ l = .passed t := by
  simp [Inside, hl]

/-- A label of another thread does not matter. -/
theorem inside_snoc_ne {l : Turn} (hl : l.thread ≠ t) : Inside (ls ++ [l]) t ↔ Inside ls t := by
  simp [Inside, hl]

/-- The closed blocks of a run that goes on. -/
theorem closedBy_append (ls ls' : List Turn) : closedBy (ls ++ ls') = closedBy ls ++ closedBy ls' :=
  List.filterMap_append

/-- The run so far: the closed blocks are the first of the log, and who is inside a block is so by
the labels. -/
structure TurnInv (order : List Nat) (prog : Nat → Prog Addr) (m₀ : Addr → Val) (ls : List Turn)
    (s : State Addr) : Prop where
  at_ : ∃ j, InvAt order none prog m₀ (closedBy ls).length j s
  closed : closedBy ls = order.take (closedBy ls).length
  inside : ∀ t, s.inBlock t ↔ Inside ls t

section OneStep

variable (hg : Good nthr order none prog m₀) (hn : nthr ≤ 127) (h : TurnInv order prog m₀ ls s)
  (ht : t < nthr) (hst : step (order.map (fun t : Nat => (t : Int))) none prog s t = .next s')

include h hst

/-- A turn of `t` changes only whether `t` is inside. -/
theorem TurnInv.inside_snoc {l : Turn} (hl : l.thread = t) (hself : s'.inBlock t ↔ l = .passed t)
    (u : Nat) : s'.inBlock u ↔ Inside (ls ++ [l]) u := by
  by_cases hu : u = t
  · subst hu
    exact hself.trans (inside_snoc_self hl).symm
  · rw [inBlock_frame hst hu, h.inside u, inside_snoc_ne (fun he => hu (he.symm.trans hl))]

include hg hn ht

/-- `t` passes its wait. -/
theorem TurnInv.passed {acc : Acc Addr} (hpc : s.pc t = .wait acc) :
    TurnInv order prog m₀ (ls ++ [.passed t]) s' := by
  obtain ⟨j, hinv⟩ := h.at_
  obtain ⟨j', hinv'⟩ := hinv.step_closes hg hn ht hst
  have hself := hinv.inBlock_step hg hst
  rw [(turn_of_wait _ hpc).2] at hinv' hself
  have hsame : closedBy (ls ++ [.passed t]) = closedBy ls := by
    rw [closedBy_append]
    exact List.append_nil _
  refine ⟨⟨j', ?_⟩, ?_, ?_⟩
  · rw [hsame]
    exact hinv'
  · rw [hsame]
    exact h.closed
  · refine h.inside_snoc hst rfl ?_
    exact iff_of_true (hself.mpr ⟨Or.inr ⟨acc, hpc⟩, rfl⟩) rfl

/-- `t` neither passes its wait nor closes a block. -/
theorem TurnInv.stays (hwait : ¬ ∃ acc, s.pc t = .wait acc)
    (hcl : s.closes (order.map (fun t : Nat => (t : Int))) t = false) :
    TurnInv order prog m₀ ls s' := by
  obtain ⟨j, hinv⟩ := h.at_
  obtain ⟨j', hinv'⟩ := hinv.step_closes hg hn ht hst
  have hself := hinv.inBlock_step hg hst
  rw [hcl] at hinv' hself
  refine ⟨⟨j', hinv'⟩, h.closed, ?_⟩
  intro u
  by_cases hu : u = t
  · subst hu
    rw [hself, ← h.inside u]
    simp [hwait]
  · exact (inBlock_frame hst hu).trans (h.inside u)

/-- `t` closes the block, which it owns. -/
theorem TurnInv.closes (hcl : s.closes (order.map (fun t : Nat => (t : Int))) t = true) :
    TurnInv order prog m₀ (ls ++ [.closed t]) s' := by
  obtain ⟨j, hinv⟩ := h.at_
  obtain ⟨j', hinv'⟩ := hinv.step_closes hg hn ht hst
  have hself := hinv.inBlock_step hg hst
  have ho := hinv.owner_of_inBlock (inBlock_of_closes hcl)
  rw [hcl] at hinv' hself
  have hsnoc : closedBy (ls ++ [.closed t]) = closedBy ls ++ [t] := closedBy_append _ _
  refine ⟨⟨j', ?_⟩, ?_, ?_⟩
  · rw [hsnoc, List.length_append]
    exact hinv'
  · rw [hsnoc, List.length_append, List.length_singleton, ho.take_succ, ← h.closed]
  · refine h.inside_snoc hst rfl ?_
    exact iff_of_false (fun hin => absurd (hself.mp hin).2 (by decide)) (by simp)

/-- **What one step keeps.** -/
theorem TurnInv.step :
    TurnInv order prog m₀
      (ls ++ (s.turn (order.map (fun t : Nat => (t : Int))) t).toList) s' := by
  by_cases hwait : ∃ acc, s.pc t = .wait acc
  · obtain ⟨acc, hpc⟩ := hwait
    rw [(turn_of_wait _ hpc).1, Option.toList_some]
    exact h.passed hg hn ht hst hpc
  · rw [turn_of_not_wait hwait]
    cases hcl : s.closes (order.map (fun t : Nat => (t : Int))) t with
    | false =>
      rw [if_neg (by decide), Option.toList_none, List.append_nil]
      exact h.stays hg hn ht hst hwait hcl
    | true =>
      rw [if_pos rfl, Option.toList_some]
      exact h.closes hg hn ht hst hcl

end OneStep

/-- **What a whole run keeps.** -/
theorem exec_turnInv (hg : Good nthr order none prog m₀) (hn : nthr ≤ 127)
    (h : (turnSys nthr (order.map (fun t : Nat => (t : Int))) none prog m₀).Exec ls s) :
    TurnInv order prog m₀ ls s := by
  induction h with
  | init hs =>
    refine ⟨⟨0, InvAt.memInit hs⟩, rfl, ?_⟩
    intro t
    cases order with
    | nil => cases hs
    | cons u us =>
      obtain rfl := Option.some.inj hs
      exact iff_of_false (by simp [State.inBlock]) (by simp [Inside])
  | step _ hst ih =>
    obtain ⟨t, ht, hst, rfl⟩ := hst
    exact ih.step hg hn ht hst

end Runs

/-! ## 4. The turn

The result, for any log that has the right number of blocks for each thread. -/

/-- A log in which every thread has the blocks of its accesses is a good one. -/
theorem good_of_counts {nthr : Nat} {order : List Nat} {prog : Nat → Prog Addr} {n : Nat → Nat}
    (hc : Counted prog n) (htids : ∀ t ∈ order, t < nthr)
    (hcount : ∀ t < nthr, order.count t = (n t + (rtmBatchN - 1)) / rtmBatchN) (m₀ : Addr → Val) :
    Good nthr order none prog m₀ := by
  refine ⟨htids, ?_, ?_, fun _ _ => trivial⟩
  · refine hc.opens ?_
    intro t ht
    have hpos : 0 < order.count t := List.count_pos_iff.mpr ht
    have := hcount t (htids t ht)
    simp only [rtmBatchN] at this ⊢
    omega
  · intro t ht
    rw [hc.next_eq_none, hc.length_serial, hcount t ht]
    simp only [rtmBatchN]
    omega

/-- **The turn is exclusive and never stalls.**  Every thread `t` makes `n t` accesses and the log
names it once for each of its blocks, in any order.  Then in every run: a thread that has passed its
wait and not closed the block since is the one in `g_next_thr`, so there is at most one; the blocks
closed so far were closed in the order of the log, and an open one belongs to the next entry; and
while a thread has not finished, some thread can take a step that is not a turn of its wait loop. -/
theorem turn_exclusive {nthr : Nat} (hn : nthr ≤ 127) {n : Nat → Nat} {prog : Nat → Prog Addr}
    (hc : Counted prog n) {order : List Nat} (htids : ∀ t ∈ order, t < nthr)
    (hcount : ∀ t < nthr, order.count t = (n t + (rtmBatchN - 1)) / rtmBatchN) {m₀ : Addr → Val}
    {ls : List Turn} {s : State Addr}
    (h : (turnSys nthr (order.map (fun t : Nat => (t : Int))) none prog m₀).Exec ls s) :
    (∀ t, s.inBlock t ↔ Inside ls t) ∧
      (∀ t, s.inBlock t → s.nextThr = t) ∧
      (∀ t u, s.inBlock t → s.inBlock u → t = u) ∧
      closedBy ls <+: order ∧
      (∀ t, s.inBlock t → order[(closedBy ls).length]? = some t) ∧
      ∀ t < nthr, s.pc t ≠ .finished →
        ∃ u < nthr, ∃ s', step (order.map (fun t : Nat => (t : Int))) none prog s u = .next s' := by
  have hg := good_of_counts hc htids hcount m₀
  obtain ⟨⟨j, hinv⟩, hclosed, hinside⟩ := exec_turnInv hg hn h
  refine ⟨hinside, ?_, ?_, ?_, fun t ht => hinv.owner_of_inBlock ht, ?_⟩
  · intro t ht
    exact hinv.turn t (hinv.owner_of_inBlock ht)
  · intro t u ht hu
    exact (hinv.owner_of_inBlock hu).eq (hinv.owner_of_inBlock ht)
  · rw [hclosed]
    exact List.take_prefix _ _
  · intro t ht hf
    exact hinv.progress hg hn ht hf

/-- Eight reads by thread 0 and a write by thread 1 between its two blocks: thread 0 has passed its
first wait. -/
theorem turn_exclusive_eight : ∃ ls s,
    (turnSys 2 ([0, 1, 0].map (fun t : Nat => (t : Int))) none (readsAndWrite 8) (fun _ => 0)).Exec ls s ∧
      s.inBlock 0 ∧ ¬ s.inBlock 1 ∧ s.nextThr = 0 ∧
      ∃ u < 2, ∃ s', step ([0, 1, 0].map (fun t : Nat => (t : Int))) none (readsAndWrite 8) s u
        = .next s' := by
  let S := turnSys 2 ([0, 1, 0].map (fun t : Nat => (t : Int))) none (readsAndWrite 8) (fun _ => 0)
  let s₀ : State Unit := ⟨fun _ => 0, 1, 0, fun _ => .start, fun _ => 0, fun _ => []⟩
  have h₀ : S.Exec [] s₀ := .init rfl
  have h₁ : S.Exec [] (s₀.goto 0 (.wait (.read ()))) := h₀.step ⟨0, by decide, rfl, rfl⟩
  have h₂ : S.Exec [.passed 0] ((s₀.goto 0 (.wait (.read ()))).goto 0 (.check (.read ()))) :=
    h₁.step ⟨0, by decide, rfl, rfl⟩
  obtain ⟨-, hturn, hex, -, -, hprogress⟩ := turn_exclusive (by decide)
    (counted_readsAndWrite 8) (by decide) (by decide) h₂
  have hin : ((s₀.goto 0 (.wait (.read ()))).goto 0 (.check (.read ()))).inBlock 0 := trivial
  refine ⟨_, _, h₂, hin, ?_, hturn 0 hin, hprogress 1 (by decide) ?_⟩
  · intro hin'
    exact absurd (hex 0 1 hin hin') (by decide)
  · intro hf
    cases hf

end MemOrder.Commit.Replay
