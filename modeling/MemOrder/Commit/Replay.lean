/-
# `mem-replay-rtmcommit.c`: blocks replayed by turns

The merged log names the thread of each block.  A replaying thread waits at the first access of a
block until `g_next_thr` is its own, and after the last access of the block (or in
`mem_finish_thr`) reads the next thread from the log.  Nothing protects the shared cursor or
`g_next_thr` but the turns themselves, so the model takes `read_next_thr` apart: the bounds check
and load of `buf`, the store of the advanced `buf`, the store to `g_next_thr`.

`g_sim_bbcnt` is a 32-bit `int` here and 64 bits wide in the recorder.  Its width is a parameter:
`some 32` is the source, `none` an unbounded counter.
-/
import MemOrder.Commit.Merge

namespace MemOrder.Commit.Replay

variable {Addr : Type} [DecidableEq Addr]

/-! ## 1. The model -/

/-- The value of a counter of `w` bits that should be `n`. -/
def wrap (w : Option Nat) (n : Int) : Int :=
  match w with
  | none => n
  | some b => n.bmod (2 ^ b)

/-- Where a thread is.  `read_next_thr` is called from an access, with the access made, or from
`mem_finish_thr`. -/
inductive Pc (Addr : Type)
  /-- Between two accesses. -/
  | start
  /-- `while (g_next_thr != g_tid)`. -/
  | wait (acc : Acc Addr)
  /-- `assert(g_next_thr == g_tid)`. -/
  | check (acc : Acc Addr)
  /-- The load or store of the access. -/
  | access (acc : Acc Addr)
  /-- The test for the end of the block. -/
  | after (made : Made Addr)
  /-- `read_next_thr`: the bounds check and load of `buf` in `read_log_entry`. -/
  | readEntry (caller : Option (Made Addr))
  /-- `log->buf += entry_size`. -/
  | advance (buf : Nat) (caller : Option (Made Addr))
  /-- `g_next_thr = *ptid`. -/
  | setNext (buf : Nat) (caller : Option (Made Addr))
  /-- `g_sim_bbcnt++` and the return of the access. -/
  | count (made : Made Addr)
  /-- After `mem_finish_thr`. -/
  | finished

structure State (Addr : Type) where
  mem : Addr → Val
  /-- The position of `g_commit_log.buf`; entries are one byte. -/
  buf : Nat
  /-- `g_next_thr`. -/
  nextThr : Int
  pc : Nat → Pc Addr
  /-- `g_sim_bbcnt` of each thread. -/
  bbcnt : Nat → Int
  /-- The accesses each thread has made. -/
  done : Nat → List (Made Addr)

/-- What the next step of a thread does. -/
inductive Outcome (Addr : Type)
  | next (s : State Addr)
  /-- One more turn of the wait loop. -/
  | spin
  /-- The assertion fails. -/
  | fail
  /-- There is no next step. -/
  | finished

/-- Where `read_next_thr` returns to. -/
def resume : Option (Made Addr) → Pc Addr
  | some m => .count m
  | none => .finished

def State.goto (s : State Addr) (t : Nat) (pc : Pc Addr) : State Addr :=
  { s with pc := Function.update s.pc t pc }

/-- One step of thread `t`. -/
def step (log : List Int) (w : Option Nat) (prog : Nat → Prog Addr) (s : State Addr) (t : Nat) :
    Outcome Addr :=
  match s.pc t with
  | .start =>
    match prog t ((s.done t).map Made.res) with
    | some acc =>
      if (s.bbcnt t).tmod rtmBatchN = 0 then .next (s.goto t (.wait acc))
      else .next (s.goto t (.check acc))
    | none =>
      if (s.bbcnt t).tmod rtmBatchN ≠ 0 then .next (s.goto t (.readEntry none))
      else .next (s.goto t .finished)
  | .wait acc => if s.nextThr ≠ tidT t then .spin else .next (s.goto t (.check acc))
  | .check acc => if s.nextThr = tidT t then .next (s.goto t (.access acc)) else .fail
  | .access acc =>
    .next ({ s with mem := (doAcc s.mem acc).1 }.goto t (.after ⟨acc, (doAcc s.mem acc).2⟩))
  | .after m =>
    if (s.bbcnt t).tmod rtmBatchN = rtmBatchN - 1 then .next (s.goto t (.readEntry (some m)))
    else .next (s.goto t (.count m))
  | .readEntry c =>
    if s.buf + 1 > log.length then .next (s.goto t (resume c))
    else .next (s.goto t (.advance s.buf c))
  | .advance p c => .next ({ s with buf := p + 1 }.goto t (.setNext p c))
  | .setNext p c => .next ({ s with nextThr := log.getD p 0 }.goto t (resume c))
  | .count m =>
    .next ({ s with
      bbcnt := Function.update s.bbcnt t (wrap w (s.bbcnt t + 1))
      done := Function.update s.done t (s.done t ++ [m]) }.goto t .start)
  | .finished => .finished

/-- `mem_init`: the first thread is read from the log.  An empty log cannot be mapped. -/
def memInit (m₀ : Addr → Val) : List Int → Option (State Addr)
  | [] => none
  | tid :: _ => some ⟨m₀, 1, tid, fun _ => .start, fun _ => 0, fun _ => []⟩

/-- `nthr` replaying threads, any interleaving. -/
def sys (nthr : Nat) (log : List Int) (w : Option Nat) (prog : Nat → Prog Addr) (m₀ : Addr → Val) :
    Trans.Sys (State Addr) Unit where
  init s := memInit m₀ log = some s
  step s _ s' := ∃ t < nthr, step log w prog s t = .next s'

/-! ## 2. The counter -/

/-- `n` increments stay where the tests on the counter are those on `n`. -/
def Fits : Option Nat → Nat → Prop
  | none, _ => True
  | some b, n => n ≤ 2 ^ (b - 1) ∧ 0 < b

theorem wrap_succ (w : Option Nat) (n : Nat) : wrap w (wrap w n + 1) = wrap w (n + 1 : Nat) := by
  cases w with
  | none => rfl
  | some b => simp [wrap, Int.bmod_add_bmod]

theorem Fits.mono {w : Option Nat} {m n : Nat} (h : Fits w n) (hmn : m ≤ n) : Fits w m := by
  cases w with
  | none => trivial
  | some b => exact ⟨Nat.le_trans hmn h.1, h.2⟩

/-- Below the limit the counter is `n`. -/
theorem wrap_of_lt {w : Option Nat} {n : Nat} (h : Fits w (n + 1)) : wrap w n = n := by
  cases w with
  | none => rfl
  | some b =>
    obtain ⟨hle, hb⟩ := h
    obtain ⟨c, rfl⟩ : ∃ c, b = c + 1 := ⟨b - 1, by omega⟩
    rw [Nat.add_sub_cancel] at hle
    have hpow : (2 : Nat) ^ (c + 1) = 2 * 2 ^ c := by rw [Nat.pow_succ, Nat.mul_comm]
    rw [wrap, Int.bmod_def, hpow]
    generalize (2 : Nat) ^ c = p at hle
    have h1 : ((n : Int) % ((2 * p : Nat) : Int)) = n :=
      Int.emod_eq_of_lt (by omega) (by omega)
    rw [h1, if_pos (by omega)]

theorem tmod_of_lt {w : Option Nat} {n : Nat} (h : Fits w (n + 1)) :
    (wrap w n).tmod rtmBatchN = (n % rtmBatchN : Nat) := by
  rw [wrap_of_lt h, Int.tmod_eq_emod_of_nonneg (by omega)]
  rfl

/-- At the limit the sign changes, which the test for 0 does not see. -/
theorem tmod_eq_zero_iff {w : Option Nat} {n : Nat} (h : Fits w n) :
    (wrap w n).tmod rtmBatchN = 0 ↔ n % rtmBatchN = 0 := by
  cases w with
  | none =>
    rw [wrap, Int.tmod_eq_emod_of_nonneg (by omega)]
    omega
  | some b =>
    obtain ⟨hle, hb⟩ := h
    rcases Nat.eq_or_lt_of_le hle with heq | hlt
    · obtain ⟨c, rfl⟩ : ∃ c, b = c + 1 := ⟨b - 1, by omega⟩
      rw [Nat.add_sub_cancel] at heq
      have hpow : (2 : Nat) ^ (c + 1) = 2 * 2 ^ c := by rw [Nat.pow_succ, Nat.mul_comm]
      have hneg : wrap (some (c + 1)) n = -(n : Int) := by
        rw [wrap, Int.bmod_def, hpow, ← heq]
        have h1 : ((n : Int) % ((2 * n : Nat) : Int)) = n := by
          have : 0 < n := by rw [heq]; exact Nat.two_pow_pos c
          exact Int.emod_eq_of_lt (by omega) (by omega)
        rw [h1, if_neg (by omega)]
        omega
      rw [hneg, Int.neg_tmod, Int.tmod_eq_emod_of_nonneg (by omega)]
      omega
    · have hfit : Fits (some b) (n + 1) := ⟨hlt, hb⟩
      rw [tmod_of_lt hfit]
      omega

/-! ## 3. What a step leaves alone -/

section Frame

variable {log : List Int} {w : Option Nat} {prog : Nat → Prog Addr} {s s' : State Addr} {t : Nat}

omit [DecidableEq Addr] in
theorem goto_pc_of_ne {u : Nat} (hu : u ≠ t) (pc : Pc Addr) : (s.goto t pc).pc u = s.pc u := by
  simp [State.goto, Function.update_of_ne hu]

/-- A step of `t` moves no other thread, and changes the counter only together with the accesses,
in `g_sim_bbcnt++`. -/
theorem step_frame (hst : step log w prog s t = .next s') :
    (∀ u, u ≠ t → s'.pc u = s.pc u) ∧
      ((s'.bbcnt = s.bbcnt ∧ s'.done = s.done) ∨
        ∃ m, s'.bbcnt = Function.update s.bbcnt t (wrap w (s.bbcnt t + 1)) ∧
          s'.done = Function.update s.done t (s.done t ++ [m])) := by
  cases hpc : s.pc t with
  | start =>
    simp only [step, hpc] at hst
    split at hst <;> split at hst <;> cases hst <;>
      exact ⟨fun u hu => goto_pc_of_ne hu _, Or.inl ⟨rfl, rfl⟩⟩
  | wait acc | check acc | after m | readEntry c =>
    simp only [step, hpc] at hst
    split at hst <;> cases hst <;> exact ⟨fun u hu => goto_pc_of_ne hu _, Or.inl ⟨rfl, rfl⟩⟩
  | access acc | advance p c | setNext p c =>
    simp only [step, hpc] at hst
    cases hst
    exact ⟨fun u hu => goto_pc_of_ne hu _, Or.inl ⟨rfl, rfl⟩⟩
  | count m =>
    simp only [step, hpc] at hst
    cases hst
    exact ⟨fun u hu => goto_pc_of_ne hu _, Or.inr ⟨m, rfl, rfl⟩⟩
  | finished =>
    simp only [step, hpc] at hst
    cases hst

theorem step_bbcnt_of_ne {u : Nat} (hst : step log w prog s t = .next s') (hu : u ≠ t) :
    s'.bbcnt u = s.bbcnt u ∧ s'.done u = s.done u := by
  obtain ⟨hcnt, hdone⟩ | ⟨m, hcnt, hdone⟩ := (step_frame hst).2
  · rw [hcnt, hdone]
    exact ⟨rfl, rfl⟩
  · rw [hcnt, hdone, Function.update_of_ne hu, Function.update_of_ne hu]
    exact ⟨rfl, rfl⟩

end Frame

end MemOrder.Commit.Replay
