/-
# `mem-record-rtmcommit.c`: the commit order of blocks

A thread's accesses are cut into blocks of `RTM_BATCH_N`; the last, partial one is closed by
`mem_finish_thr`.  A block runs as a transaction, which takes effect as one step and commits only
while `g_lock` is free, or, after an abort, access by access between `spin_lock` and `spin_unlock`
of `g_lock`.  `g_time++` gives the block its stamp inside the block; `log_commit` writes it to the
thread's own log after the block, when other threads may long have gone on.

`order` is not in the code: the threads of the blocks that have their stamp, in the order of the
stamps.  The invariant is that everything is a function of it: outside fallback blocks memory and
all accesses are `serial order`, `g_time` is its length, and the stamps a thread has logged or is
about to log are the positions of the thread in it.

The one delicate place is a fallback block.  It is not atomic: its accesses and the two halves of
`g_time++` are separate steps.  But as long as it holds the lock no transaction commits and no other
fallback block begins, so what the block started from is still `serial order`, and what it has done
so far is the beginning of its block (`PcInv`).  With the store of `g_time++` the block is complete
and enters the order.
-/
import MemOrder.Commit.Serial
import MemOrder.Lib.Trans

namespace MemOrder.Commit.Record

variable {Addr : Type} [DecidableEq Addr]

/-! ## 1. The model

A step is a transaction as a whole, one access of a fallback block, or one of the instructions that
follow it. -/

/-- Where a thread is. -/
inductive Pc
  /-- Outside a block. -/
  | idle
  /-- Inside a fallback block, at the next access. -/
  | locked
  /-- `bb_end`: the load of `g_time++`. -/
  | timeLoad
  /-- The store of `g_time++`; `ts` is the loaded stamp. -/
  | timeStore (ts : Nat)
  /-- `spin_unlock`. -/
  | unlock (ts : Nat)
  /-- `log_commit(ts)`. -/
  | logCommit (ts : Nat)
deriving DecidableEq, Repr

structure State (Addr : Type) where
  cfg : Config Addr
  /-- `g_time`. -/
  time : Nat
  /-- The holder of `g_lock`. -/
  lock : Option Nat
  pc : Nat → Pc
  /-- The `g_commit_log` of each thread. -/
  log : Nat → List Nat
  /-- The threads of the stamped blocks, in order. -/
  order : List Nat

namespace State

variable (prog : Nat → Prog Addr) (s : State Addr) (t : Nat)

/-- Thread `t` is at an access with which a block begins. -/
def atBlock : Prop :=
  s.pc t = .idle ∧ (s.cfg.done t).length % rtmBatchN = 0 ∧ s.cfg.next prog t ≠ none

instance : Decidable (s.atBlock prog t) := inferInstanceAs (Decidable (_ ∧ _ ∧ _))

/-- The block runs as a transaction that commits. -/
def commit : Option (State Addr) :=
  if s.atBlock prog t ∧ s.lock = none then
    some { s with
      cfg := runBlock prog s.cfg t
      time := s.time + 1
      pc := Function.update s.pc t (.logCommit s.time)
      order := s.order ++ [t] }
  else none

/-- The transaction has aborted and the thread takes `g_lock`. -/
def spinLock : Option (State Addr) :=
  if s.atBlock prog t ∧ s.lock = none then
    some { s with lock := some t, pc := Function.update s.pc t .locked }
  else none

/-- One access of a fallback block; `bb_end` follows the last. -/
def access : Option (State Addr) :=
  if s.pc t = .locked then
    (s.cfg.next prog t).map fun acc =>
      { s with
        cfg := s.cfg.access t acc
        pc := Function.update s.pc t
          (if (s.cfg.done t).length % rtmBatchN = rtmBatchN - 1 then .timeLoad else .locked) }
  else none

/-- `mem_finish_thr` inside a fallback block. -/
def finishThr : Option (State Addr) :=
  if s.pc t = .locked ∧ s.cfg.next prog t = none ∧ (s.cfg.done t).length % rtmBatchN ≠ 0 then
    some { s with pc := Function.update s.pc t .timeLoad }
  else none

/-- The rest of `bb_end` outside a transaction. -/
def bbEnd : Option (State Addr) :=
  match s.pc t with
  | .timeLoad => some { s with pc := Function.update s.pc t (.timeStore s.time) }
  | .timeStore ts =>
    some { s with
      time := ts + 1
      pc := Function.update s.pc t (.unlock ts)
      order := s.order ++ [t] }
  | .unlock ts => some { s with lock := none, pc := Function.update s.pc t (.logCommit ts) }
  | .logCommit ts =>
    some { s with
      log := Function.update s.log t (s.log t ++ [ts])
      pc := Function.update s.pc t .idle }
  | _ => none

end State

/-- The state before the run. -/
def State.initial (m₀ : Addr → Val) : State Addr :=
  ⟨⟨m₀, fun _ => []⟩, 0, none, fun _ => .idle, fun _ => [], []⟩

/-- `nthr` threads, every block either way, any interleaving. -/
def sys (nthr : Nat) (prog : Nat → Prog Addr) (m₀ : Addr → Val) :
    Trans.Sys (State Addr) Unit where
  init s := s = .initial m₀
  step s _ s' := ∃ t < nthr, s.commit prog t = some s' ∨ s.spinLock prog t = some s' ∨
    s.access prog t = some s' ∨ s.finishThr prog t = some s' ∨ s.bbEnd t = some s'

/-- Thread `t` has made all its accesses and logged all its stamps. -/
def Finished (prog : Nat → Prog Addr) (s : State Addr) (t : Nat) : Prop :=
  s.pc t = .idle ∧ s.cfg.next prog t = none

/-! ## 2. The stamps of a thread

A stamp is a position in the order. -/

/-- The positions of thread `t` in an order of blocks. -/
def stamps (order : List Nat) (t : Nat) : List Nat :=
  (List.range order.length).filter (fun k => order[k]? == some t)

/-- A new block at the end of the order gives its thread one more stamp. -/
theorem stamps_snoc (order : List Nat) (u t : Nat) :
    stamps (order ++ [u]) t = stamps order t ++ if u = t then [order.length] else [] := by
  rw [stamps, List.length_append, List.length_singleton, List.range_succ, List.filter_append]
  congr 1
  · unfold stamps
    refine List.filter_congr ?_
    intro k hk
    rw [List.getElem?_append_left (List.mem_range.mp hk)]
  · by_cases h : u = t <;> simp [h]

/-- A stamp of a thread is a position of it. -/
theorem mem_stamps {order : List Nat} {t k : Nat} : k ∈ stamps order t ↔ order[k]? = some t := by
  simp only [stamps, List.mem_filter, List.mem_range, beq_iff_eq, and_iff_right_iff_imp]
  intro h
  exact (List.getElem?_eq_some_iff.mp h).1

/-- A thread has as many stamps as it has blocks in the order. -/
theorem stamps_length (order : List Nat) (t : Nat) :
    (stamps order t).length = order.count t := by
  induction order using List.reverseRecOn with
  | nil => rfl
  | append_singleton order u ih =>
    rw [stamps_snoc, List.length_append, ih, List.count_append]
    by_cases h : u = t <;> simp [h]

/-! ## 3. The invariant

Eight things are to be shown of each step; most of them do not change, and `Inv.step_rule` is stated
with those that may. -/

/-- Between `spin_lock` and `spin_unlock`. -/
def Pc.holds : Pc → Bool
  | .idle => false
  | .logCommit _ => false
  | _ => true

/-- The stamp of a block that is not in the log yet. -/
def Pc.stamp : Pc → List Nat
  | .unlock ts => [ts]
  | .logCommit ts => [ts]
  | _ => []

/-- What a fallback block has done so far, from the blocks before it. -/
def PcInv (prog : Nat → Prog Addr) (m₀ : Addr → Val) (s : State Addr) (t : Nat) : Prop :=
  match s.pc t with
  | .locked => (serial prog m₀ s.order).next prog t ≠ none ∧
      ((serial prog m₀ s.order).done t).length % rtmBatchN = 0 ∧
      ∃ j < rtmBatchN, s.cfg = runAccesses prog t j (serial prog m₀ s.order) ∧
        (s.cfg.done t).length = ((serial prog m₀ s.order).done t).length + j
  | .timeLoad => (serial prog m₀ s.order).next prog t ≠ none ∧
      s.cfg = runBlock prog (serial prog m₀ s.order) t
  | .timeStore ts => ts = s.time ∧ (serial prog m₀ s.order).next prog t ≠ none ∧
      s.cfg = runBlock prog (serial prog m₀ s.order) t
  | .unlock _ => s.cfg = serial prog m₀ s.order
  | _ => True

structure Inv (nthr : Nat) (prog : Nat → Prog Addr) (m₀ : Addr → Val) (s : State Addr) :
    Prop where
  time : s.time = s.order.length
  lt : ∀ t ∈ s.order, t < nthr
  out : ∀ t, nthr ≤ t → s.pc t = .idle
  opens : Opens prog m₀ s.order
  lock : ∀ t, s.lock = some t ↔ (s.pc t).holds = true
  free : s.lock = none → s.cfg = serial prog m₀ s.order
  thr : ∀ t, PcInv prog m₀ s t
  log : ∀ t, s.log t ++ (s.pc t).stamp = stamps s.order t

section Preserve

variable {nthr : Nat} {prog : Nat → Prog Addr} {m₀ : Addr → Val} {s s' : State Addr} {t u : Nat}

/-- Outside fallback blocks there is nothing to show. -/
theorem pcInv_of_not_holds (h : (s.pc t).holds = false) : PcInv prog m₀ s t := by
  unfold PcInv
  cases hpc : s.pc t <;> simp_all [Pc.holds]

/-- Only the holder of the lock is inside a fallback block. -/
theorem Inv.not_holds (h : Inv nthr prog m₀ s) (ht : (s.pc t).holds = true) (hu : u ≠ t) :
    (s.pc u).holds = false := by
  by_contra hc
  have h1 := (h.lock t).mpr ht
  have h2 := (h.lock u).mpr (by simpa using hc)
  rw [h1] at h2
  exact hu (Option.some.inj h2).symm

/-- With the lock free nobody is inside a fallback block. -/
theorem Inv.not_holds_of_free (h : Inv nthr prog m₀ s) (hl : s.lock = none) (u : Nat) :
    (s.pc u).holds = false := by
  by_contra hc
  have := (h.lock u).mpr (by simpa using hc)
  rw [hl] at this
  cases this

/-- **The step rule**: what is to show about the thread that steps; the others are outside
fallback blocks or nothing they rely on has changed. -/
theorem Inv.step_rule (h : Inv nthr prog m₀ s) (ht : t < nthr) {p : Pc}
    (hpc : s'.pc = Function.update s.pc t p)
    (htime : s'.time = s'.order.length)
    (hlt : ∀ u ∈ s'.order, u < nthr)
    (hopens : Opens prog m₀ s'.order)
    (hlock : s'.lock = if p.holds then some t else none)
    (hother : ∀ u, u ≠ t → (s.pc u).holds = false)
    (hfree : p.holds = false → s'.cfg = serial prog m₀ s'.order)
    (hthr : PcInv prog m₀ s' t)
    (hlog : ∀ u, s'.log u ++ (s'.pc u).stamp = stamps s'.order u) : Inv nthr prog m₀ s' := by
  have hpt : s'.pc t = p := by rw [hpc, Function.update_self]
  have hpu : ∀ u, u ≠ t → s'.pc u = s.pc u := fun u hu => by rw [hpc, Function.update_of_ne hu]
  refine ⟨htime, hlt, ?_, hopens, ?_, ?_, ?_, hlog⟩
  · intro u hu
    rw [hpu u (by omega)]
    exact h.out u hu
  · intro u
    by_cases hut : u = t
    · subst hut
      rw [hlock, hpt]
      by_cases hp : p.holds = true <;> simp [hp]
    · rw [hlock, hpu u hut, hother u hut]
      by_cases hp : p.holds = true <;> simp [hp, Ne.symm hut]
  · intro hl
    refine hfree ?_
    rw [hlock] at hl
    by_contra hc
    rw [if_pos (by simpa using hc)] at hl
    cases hl
  · intro u
    by_cases hut : u = t
    · subst hut; exact hthr
    · exact pcInv_of_not_holds (by rw [hpu u hut]; exact hother u hut)

/-- The logs when only the place of thread `t` changes. -/
theorem Inv.log_update (h : Inv nthr prog m₀ s) {p : Pc} (hst : p.stamp = (s.pc t).stamp) (u : Nat) :
    s.log u ++ (Function.update s.pc t p u).stamp = stamps s.order u := by
  by_cases hut : u = t
  · subst hut; rw [Function.update_self, hst]; exact h.log u
  · rw [Function.update_of_ne hut]; exact h.log u

/-- The logs when thread `t` gets a stamp. -/
theorem Inv.log_stamp (h : Inv nthr prog m₀ s) {p : Pc} (hno : (s.pc t).stamp = [])
    (hst : p.stamp = [s.order.length]) (u : Nat) :
    s.log u ++ (Function.update s.pc t p u).stamp = stamps (s.order ++ [t]) u := by
  rw [stamps_snoc]
  by_cases hut : u = t
  · subst hut
    rw [Function.update_self, hst, if_pos rfl, ← h.log u, hno, List.append_nil]
  · rw [Function.update_of_ne hut, if_neg (Ne.symm hut), List.append_nil]
    exact h.log u

/-- The thread that enters the order is one of the `nthr`. -/
theorem Inv.lt_snoc (h : Inv nthr prog m₀ s) (ht : t < nthr) : ∀ u ∈ s.order ++ [t], u < nthr := by
  intro u hu
  rcases List.mem_append.mp hu with hu | hu
  · exact h.lt u hu
  · rw [List.mem_singleton] at hu
    rw [hu]
    exact ht

/-- **A transaction that commits** is a block at the end of the order: the lock is free, so memory
is `serial order` before it. -/
theorem Inv.commit (h : Inv nthr prog m₀ s) (ht : t < nthr) (hst : s.commit prog t = some s') :
    Inv nthr prog m₀ s' := by
  unfold State.commit at hst
  split at hst
  · rename_i hc
    obtain ⟨⟨hpc, -, hnext⟩, hl⟩ := hc
    cases hst
    have hcfg := h.free hl
    rw [hcfg] at hnext
    refine h.step_rule ht rfl ?_ ?_ (h.opens.snoc hnext) hl
      (fun u _ => h.not_holds_of_free hl u) ?_ ?_ (h.log_stamp ?_ ?_)
    · simp [h.time]
    · exact h.lt_snoc ht
    · intro _
      rw [hcfg, serial_snoc]
    · exact pcInv_of_not_holds (by simp [Pc.holds])
    · rw [hpc]; rfl
    · rw [Pc.stamp, h.time]
  · cases hst

/-- A fallback block begins where the order ends, with nothing done. -/
theorem Inv.spinLock (h : Inv nthr prog m₀ s) (ht : t < nthr)
    (hst : s.spinLock prog t = some s') : Inv nthr prog m₀ s' := by
  unfold State.spinLock at hst
  split at hst
  · rename_i hc
    obtain ⟨⟨hpc, hmod, hnext⟩, hl⟩ := hc
    cases hst
    have hcfg := h.free hl
    refine h.step_rule ht rfl h.time h.lt h.opens rfl
      (fun u _ => h.not_holds_of_free hl u) (fun hp => by cases hp) ?_ (h.log_update ?_)
    · simp only [PcInv, Function.update_self]
      rw [← hcfg]
      exact ⟨hnext, hmod, 0, by decide, rfl, rfl⟩
    · rw [hpc]; rfl
  · cases hst

/-- **One access of a fallback block** is the next of the accesses that the block has to make.
After the last of them the whole block has been run. -/
theorem Inv.access (h : Inv nthr prog m₀ s) (ht : t < nthr) (hst : s.access prog t = some s') :
    Inv nthr prog m₀ s' := by
  unfold State.access at hst
  split at hst
  · rename_i hpc
    obtain ⟨acc, hacc, rfl⟩ := Option.map_eq_some_iff.mp hst
    have hthr := h.thr t
    simp only [PcInv, hpc] at hthr
    obtain ⟨hnext, hmod, j, hj, hcfg, hlen⟩ := hthr
    have hholds : (s.pc t).holds = true := by rw [hpc]; rfl
    -- the block so far, with this access
    have hstep : s.cfg.access t acc = runAccesses prog t (j + 1) (serial prog m₀ s.order) := by
      rw [runAccesses, ← hcfg, hacc]
    have hlen' : ((s.cfg.access t acc).done t).length
        = ((serial prog m₀ s.order).done t).length + (j + 1) := by
      rw [access_done_self, List.length_append, hlen]
      rfl
    have hl := (h.lock t).mpr hholds
    by_cases hlast : (s.cfg.done t).length % rtmBatchN = rtmBatchN - 1
    · -- the block is full
      have hj' : j + 1 = rtmBatchN := by
        rw [hlen] at hlast
        simp only [rtmBatchN] at hlast hj hmod ⊢
        omega
      refine h.step_rule ht rfl h.time h.lt h.opens (by simpa [hlast, Pc.holds] using hl)
        (fun u hu => h.not_holds hholds hu) ?_ ?_ (h.log_update ?_)
      · intro hp
        rw [if_pos hlast] at hp; cases hp
      · simp only [PcInv, Function.update_self, if_pos hlast]
        exact ⟨hnext, by rw [hstep, hj']; rfl⟩
      · rw [if_pos hlast, hpc]; rfl
    · have hj' : j + 1 < rtmBatchN := by
        rw [hlen] at hlast
        simp only [rtmBatchN] at hlast hj hmod ⊢
        omega
      refine h.step_rule ht rfl h.time h.lt h.opens (by simpa [hlast, Pc.holds] using hl)
        (fun u hu => h.not_holds hholds hu) ?_ ?_ (h.log_update ?_)
      · intro hp
        rw [if_neg hlast] at hp; cases hp
      · simp only [PcInv, Function.update_self, if_neg hlast]
        exact ⟨hnext, hmod, j + 1, hj', hstep, hlen'⟩
      · rw [if_neg hlast, hpc]
  · cases hst

/-- The program has ended inside of a block: what has been done is all that the block has. -/
theorem Inv.finishThr (h : Inv nthr prog m₀ s) (ht : t < nthr)
    (hst : s.finishThr prog t = some s') : Inv nthr prog m₀ s' := by
  unfold State.finishThr at hst
  split at hst
  · rename_i hc
    obtain ⟨hpc, hend, -⟩ := hc
    cases hst
    have hthr := h.thr t
    simp only [PcInv, hpc] at hthr
    obtain ⟨hnext, -, j, hj, hcfg, -⟩ := hthr
    have hholds : (s.pc t).holds = true := by rw [hpc]; rfl
    refine h.step_rule ht rfl h.time h.lt h.opens ?_ (fun u hu => h.not_holds hholds hu)
      (fun hp => by cases hp) ?_ (h.log_update ?_)
    · simpa [Pc.holds] using (h.lock t).mpr hholds
    · simp only [PcInv, Function.update_self]
      refine ⟨hnext, ?_⟩
      -- the program has ended, so the block is all it has left
      rw [hcfg] at hend
      rw [runBlock, runAccesses_of_next_none hend _ (Nat.le_of_lt hj)]
      exact hcfg
    · rw [hpc]; rfl
  · cases hst

/-- The stamp goes to the log, while the lock may be anyone else's. -/
theorem Inv.logCommit (h : Inv nthr prog m₀ s) (ht : t < nthr) {ts : Nat}
    (hpc : s.pc t = .logCommit ts) :
    Inv nthr prog m₀ { s with
      log := Function.update s.log t (s.log t ++ [ts])
      pc := Function.update s.pc t .idle } := by
  refine ⟨h.time, h.lt, ?_, h.opens, ?_, h.free, ?_, ?_⟩
  · intro u hu
    have hut : u ≠ t := by omega
    simp only [Function.update_of_ne hut]
    exact h.out u hu
  · intro u
    by_cases hut : u = t
    · subst hut
      simp [h.lock u, hpc, Pc.holds]
    · simp only [Function.update_of_ne hut]
      exact h.lock u
  · intro u
    by_cases hut : u = t
    · subst hut
      exact pcInv_of_not_holds (by simp [Pc.holds])
    · have := h.thr u
      simp only [PcInv, Function.update_of_ne hut]
      exact this
  · intro u
    have hlog := h.log u
    by_cases hut : u = t
    · subst hut
      rw [hpc] at hlog
      simpa [Pc.stamp] using hlog
    · simpa [Function.update_of_ne hut] using hlog

/-- **The instructions of `bb_end`.**  The load of `g_time` is still true at its store, since
whoever else changes `g_time` holds the lock or commits with the lock free. -/
theorem Inv.bbEnd (h : Inv nthr prog m₀ s) (ht : t < nthr) (hst : s.bbEnd t = some s') :
    Inv nthr prog m₀ s' := by
  have hthr := h.thr t
  cases hpc : s.pc t with
  | idle => simp [State.bbEnd, hpc] at hst
  | locked => simp [State.bbEnd, hpc] at hst
  | timeLoad =>
    have hholds : (s.pc t).holds = true := by rw [hpc]; rfl
    simp only [State.bbEnd, hpc, Option.some.injEq] at hst
    simp only [PcInv, hpc] at hthr
    subst hst
    refine h.step_rule ht rfl h.time h.lt h.opens ?_ (fun u hu => h.not_holds hholds hu)
      (fun hp => by cases hp) ?_ (h.log_update ?_)
    · simpa [Pc.holds] using (h.lock t).mpr hholds
    · simp only [PcInv, Function.update_self]
      exact ⟨trivial, hthr⟩
    · rw [hpc]; rfl
  | timeStore ts =>
    have hholds : (s.pc t).holds = true := by rw [hpc]; rfl
    simp only [State.bbEnd, hpc, Option.some.injEq] at hst
    simp only [PcInv, hpc] at hthr
    -- the stamp is still `g_time`: nobody else has been in `bb_end`
    obtain ⟨hts, hnext, hcfg⟩ := hthr
    subst hst
    refine h.step_rule ht rfl ?_ ?_ (h.opens.snoc hnext) ?_ (fun u hu => h.not_holds hholds hu)
      (fun hp => by cases hp) ?_ (h.log_stamp ?_ ?_)
    · simp [hts, h.time]
    · exact h.lt_snoc ht
    · simpa [Pc.holds] using (h.lock t).mpr hholds
    · simp only [PcInv, Function.update_self]
      rw [serial_snoc]
      exact hcfg
    · rw [hpc]; rfl
    · rw [Pc.stamp, hts, h.time]
  | unlock ts =>
    have hholds : (s.pc t).holds = true := by rw [hpc]; rfl
    simp only [State.bbEnd, hpc, Option.some.injEq] at hst
    simp only [PcInv, hpc] at hthr
    subst hst
    -- the lock is free again, and memory is `serial` of the order with this block
    refine h.step_rule ht rfl h.time h.lt h.opens rfl (fun u hu => h.not_holds hholds hu)
      (fun _ => hthr) ?_ (h.log_update ?_)
    · exact pcInv_of_not_holds (by simp [Pc.holds])
    · rw [hpc]; rfl
  | logCommit ts =>
    simp only [State.bbEnd, hpc, Option.some.injEq] at hst
    subst hst
    exact h.logCommit ht hpc

/-- The invariant holds in every reachable state. -/
theorem reach_inv (h : (sys nthr prog m₀).Reach s) : Inv nthr prog m₀ s := by
  refine Trans.Sys.reach_of_inductive (I := Inv nthr prog m₀) ?_ ?_ h
  · rintro s rfl
    refine ⟨rfl, fun t ht => absurd ht (by simp [State.initial]), fun _ _ => rfl, ?_, ?_,
      fun _ => rfl, fun t => pcInv_of_not_holds rfl, fun t => rfl⟩
    · intro pre t post heq
      exact absurd heq (by simp [State.initial])
    · intro t
      simp [State.initial, Pc.holds]
  · rintro s l s' - hinv ⟨t, ht, hst | hst | hst | hst | hst⟩
    · exact hinv.commit ht hst
    · exact hinv.spinLock ht hst
    · exact hinv.access ht hst
    · exact hinv.finishThr ht hst
    · exact hinv.bbEnd ht hst

/-! ## 4. A complete run

When all threads have finished, no fallback block is open and no stamp waits for its log. -/

/-- **A complete recorded run is the serial run of its stamp order**, and every thread has logged
exactly its positions in it. -/
theorem complete_run (h : (sys nthr prog m₀).Reach s) (hf : ∀ t < nthr, Finished prog s t) :
    s.cfg = serial prog m₀ s.order ∧ (∀ t, s.log t = stamps s.order t) ∧
      (∀ t ∈ s.order, t < nthr) ∧ Opens prog m₀ s.order := by
  have hinv := reach_inv h
  have hidle : ∀ t, s.pc t = .idle := by
    intro t
    rcases Nat.lt_or_ge t nthr with ht | ht
    · exact (hf t ht).1
    · exact hinv.out t ht
  refine ⟨hinv.free ?_, ?_, hinv.lt, hinv.opens⟩
  · cases hl : s.lock with
    | none => rfl
    | some t =>
      have := (hinv.lock t).mp hl
      rw [hidle t] at this
      cases this
  · intro t
    have := hinv.log t
    rw [hidle t] at this
    simpa [Pc.stamp] using this

/-- **Every order of blocks that have an access to make is the stamp order of some run**: each
block commits as a transaction and is logged before the next begins. -/
theorem exists_run {order : List Nat} (hlt : ∀ t ∈ order, t < nthr) (ho : Opens prog m₀ order) :
    ∃ r, (sys nthr prog m₀).Reach r ∧ r.order = order ∧ r.cfg = serial prog m₀ order ∧
      r.lock = none ∧ ∀ t, r.pc t = .idle := by
  induction order using List.reverseRecOn with
  | nil => exact ⟨.initial m₀, .init rfl, rfl, rfl, rfl, fun _ => rfl⟩
  | append_singleton order t ih =>
    obtain ⟨r, hr, hord, hcfg, hlock, hidle⟩ := ih (fun u hu => hlt u (by simp [hu])) ho.init
    have ht : t < nthr := hlt t (by simp)
    have hblock : r.atBlock prog t := by
      refine ⟨hidle t, ?_, ?_⟩
      · rw [hcfg]
        exact (boundary_serial order t).resolve_right ho.last
      · rw [hcfg]
        exact ho.last
    have h1 := hr.step (l := none) ⟨t, ht, Or.inl (if_pos ⟨hblock, hlock⟩)⟩
    have hlog : ({ r with
        cfg := runBlock prog r.cfg t
        time := r.time + 1
        pc := Function.update r.pc t (.logCommit r.time)
        order := r.order ++ [t] } : State Addr).bbEnd t = some { r with
          cfg := runBlock prog r.cfg t
          time := r.time + 1
          log := Function.update r.log t (r.log t ++ [r.time])
          order := r.order ++ [t] } := by
      have hpc : Function.update r.pc t .idle = r.pc := by rw [← hidle t, Function.update_eq_self]
      simp only [State.bbEnd, Function.update_self, Function.update_idem, hpc]
    refine ⟨_, h1.step (l := none) ⟨t, ht, Or.inr (Or.inr (Or.inr (Or.inr hlog)))⟩, ?_, ?_, hlock,
      hidle⟩
    · rw [hord]
    · rw [serial_snoc, hcfg]

end Preserve

end MemOrder.Commit.Record
