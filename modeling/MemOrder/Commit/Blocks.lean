/-
# One counter at two widths

Recorder and replayer of rtmcommit both cut a thread's accesses into blocks by the remainder of
`g_sim_bbcnt`, an `int64_t` in `mem-record-rtmcommit.c` and an `int` in `mem-replay-rtmcommit.c`.  C's
remainder has the sign of the dividend.  Past `2^31` the `int` is negative, where no remainder is
`RTM_BATCH_N - 1`, and past `2^32` it is positive again but `2^32` accesses behind, which is not a
number of whole blocks.

This module says for which access counts the two sides decide alike, at all three places where they
decide: the start of a block, its end, and the end of the thread.
-/
import MemOrder.Commit.Turns

namespace MemOrder.Commit

/-! ## 1. The three tests

The tests as functions of the counter, which is wrapped to its width after each increment. -/

/-- `g_sim_bbcnt` of `w` bits after `n` accesses, each of which ends in `g_sim_bbcnt++`. -/
def simBbcnt (w : Option Nat) : Nat → Int
  | 0 => 0
  | n + 1 => Replay.wrap w (simBbcnt w n + 1)

/-- `(g_sim_bbcnt % RTM_BATCH_N) == 0`, before the access: `bb_start` in the recorder, the wait for
the turn in the replayer. -/
def startsBlock (bbcnt : Int) : Bool := bbcnt.tmod rtmBatchN == 0

/-- `g_sim_bbcnt % RTM_BATCH_N == RTM_BATCH_N - 1`, after the access: `bb_end` in the recorder, the
next turn in the replayer. -/
def endsBlock (bbcnt : Int) : Bool := bbcnt.tmod rtmBatchN == rtmBatchN - 1

/-- `g_sim_bbcnt % RTM_BATCH_N != 0` in `mem_finish_thr`, of both. -/
def finishClosesBlock (bbcnt : Int) : Bool := bbcnt.tmod rtmBatchN != 0

/-- The replayer, with an `int`, and the recorder, with an `int64_t`, decide alike at the access
with `n` accesses before it, and at the end of a thread of `n` accesses. -/
def CutsAlike (n : Nat) : Prop :=
  startsBlock (simBbcnt (some 32) n) = startsBlock (simBbcnt (some 64) n) ∧
    endsBlock (simBbcnt (some 32) n) = endsBlock (simBbcnt (some 64) n) ∧
    finishClosesBlock (simBbcnt (some 32) n) = finishClosesBlock (simBbcnt (some 64) n)

/-- Wrapping after each increment is wrapping once. -/
theorem simBbcnt_eq (w : Option Nat) (n : Nat) : simBbcnt w n = Replay.wrap w n := by
  induction n with
  | zero =>
    cases w with
    | none => rfl
    | some b => simp [simBbcnt, Replay.wrap]
  | succ n ih => rw [simBbcnt, ih, Replay.wrap_succ]

/-! ## 2. The two counters

What the counters hold after `n` accesses, and their remainders. -/

/-- The recorder's counter does not overflow. -/
theorem simBbcnt_int64 {n : Nat} (hn : n < 2 ^ 63) : simBbcnt (some 64) n = n := by
  rw [simBbcnt_eq]
  exact Replay.wrap_of_lt ⟨hn, by decide⟩

/-- The recorder's remainder is that of the number of accesses. -/
theorem tmod_int64 {n : Nat} (hn : n < 2 ^ 63) :
    (simBbcnt (some 64) n).tmod rtmBatchN = (n % rtmBatchN : Nat) := by
  rw [simBbcnt_int64 hn, Int.tmod_eq_emod_of_nonneg (by omega)]
  rfl

/-- The replayer's counter, by the low 32 bits of the number of accesses. -/
theorem simBbcnt_int32 (n : Nat) :
    simBbcnt (some 32) n =
      if n % 2 ^ 32 < 2 ^ 31 then ((n % 2 ^ 32 : Nat) : Int)
      else -((2 ^ 32 - n % 2 ^ 32 : Nat) : Int) := by
  rw [simBbcnt_eq, Replay.wrap, Int.bmod_def]
  have hmod : (n : Int) % ((2 ^ 32 : Nat) : Int) = ((n % 2 ^ 32 : Nat) : Int) := rfl
  have hlt : n % 2 ^ 32 < 2 ^ 32 := Nat.mod_lt _ (by decide)
  rw [hmod]
  split <;> split <;> omega

/-- The replayer's remainder while its counter is not negative. -/
theorem tmod_int32_low {n : Nat} (h : n % 2 ^ 32 < 2 ^ 31) :
    (simBbcnt (some 32) n).tmod rtmBatchN = ((n % 2 ^ 32) % rtmBatchN : Nat) := by
  rw [simBbcnt_int32, if_pos h, Int.tmod_eq_emod_of_nonneg (by omega)]
  rfl

/-- And once it is. -/
theorem tmod_int32_high {n : Nat} (h : ¬ n % 2 ^ 32 < 2 ^ 31) :
    (simBbcnt (some 32) n).tmod rtmBatchN = -((2 ^ 32 - n % 2 ^ 32) % rtmBatchN : Nat) := by
  rw [simBbcnt_int32, if_neg h, Int.neg_tmod, Int.tmod_eq_emod_of_nonneg (by omega)]
  rfl

/-! ## 3. Where they decide alike

Both sides are compared with 0 and with `RTM_BATCH_N - 1` only, so they can decide alike with
different remainders. -/

/-- The counts at which the two sides decide alike, in terms of the number's upper part `q` and its
low 32 bits `r`.  `2^32` leaves 4 modulo `RTM_BATCH_N`, so the remainders agree only where `q`, or
`q + 1` once the `int` is negative, is a multiple of it; elsewhere they must both be away from the
two values that are tested. -/
def AlikeAt (n : Nat) : Prop :=
  let q := n / 2 ^ 32
  let r := n % 2 ^ 32
  if r < 2 ^ 31 then
    rtmBatchN ∣ q ∨
      (0 < n % rtmBatchN ∧ n % rtmBatchN < rtmBatchN - 1 ∧
        0 < r % rtmBatchN ∧ r % rtmBatchN < rtmBatchN - 1)
  else
    n % rtmBatchN ≠ rtmBatchN - 1 ∧
      (rtmBatchN ∣ q + 1 ∨ (0 < n % rtmBatchN ∧ 0 < (2 ^ 32 - r) % rtmBatchN))

instance (n : Nat) : Decidable (AlikeAt n) := by
  unfold AlikeAt
  infer_instance

/-- The three tests are two comparisons: the third is the negation of the first. -/
theorem cutsAlike_iff_tmod {n : Nat} :
    CutsAlike n ↔
      ((simBbcnt (some 32) n).tmod rtmBatchN = 0 ↔ (simBbcnt (some 64) n).tmod rtmBatchN = 0) ∧
        ((simBbcnt (some 32) n).tmod rtmBatchN = rtmBatchN - 1 ↔
          (simBbcnt (some 64) n).tmod rtmBatchN = rtmBatchN - 1) := by
  unfold CutsAlike startsBlock endsBlock finishClosesBlock
  generalize (simBbcnt (some 32) n).tmod rtmBatchN = c
  generalize (simBbcnt (some 64) n).tmod rtmBatchN = d
  have hbeq : ∀ x : Int, ((c == x) = (d == x)) ↔ (c = x ↔ d = x) := by
    intro x
    rw [Bool.eq_iff_iff, beq_iff_eq, beq_iff_eq]
  have hbne : ((c != 0) = (d != 0)) ↔ (c = 0 ↔ d = 0) := by
    rw [Bool.eq_iff_iff, bne_iff_ne, bne_iff_ne, not_iff_not]
  rw [hbeq, hbeq, hbne]
  tauto

/-- `2^32` is no multiple of the block size: while the `int` is not negative it has the number's
remainder only if the upper part is one. -/
theorem dvd_high_iff (n : Nat) :
    rtmBatchN ∣ n / 2 ^ 32 ↔ n % rtmBatchN = n % 2 ^ 32 % rtmBatchN := by
  have hsplit : 4294967296 * (n / 2 ^ 32) + n % 2 ^ 32 = n := Nat.div_add_mod n (2 ^ 32)
  generalize n / 2 ^ 32 = q at *
  generalize n % 2 ^ 32 = r at *
  subst hsplit
  have hmod : (4294967296 * q + r) % 7 = (4 * (q % 7) + r % 7) % 7 := by omega
  simp only [rtmBatchN]
  rw [hmod]
  omega

/-- The same once it is negative. -/
theorem dvd_high_succ_iff (n : Nat) :
    rtmBatchN ∣ n / 2 ^ 32 + 1 ↔
      (n + (2 ^ 32 - n % 2 ^ 32)) % rtmBatchN = 0 := by
  have hsplit : 4294967296 * (n / 2 ^ 32) + n % 2 ^ 32 = n := Nat.div_add_mod n (2 ^ 32)
  have hr : n % 2 ^ 32 < 4294967296 := Nat.mod_lt _ (by decide)
  have hsum : n + (2 ^ 32 - n % 2 ^ 32) = 4294967296 * (n / 2 ^ 32 + 1) := by omega
  have hmod : ∀ q, 4294967296 * q % 7 = 4 * (q % 7) % 7 := by omega
  simp only [rtmBatchN]
  rw [hsum, hmod]
  omega

/-- **Where the two sides decide alike.** -/
theorem cutsAlike_iff {n : Nat} (hn : n < 2 ^ 63) : CutsAlike n ↔ AlikeAt n := by
  rw [cutsAlike_iff_tmod, tmod_int64 hn]
  unfold AlikeAt
  by_cases hlow : n % 2 ^ 32 < 2 ^ 31
  · rw [tmod_int32_low hlow]
    simp only [if_pos hlow]
    rw [dvd_high_iff]
    have h1 : n % rtmBatchN < 7 := Nat.mod_lt _ (by decide)
    have h2 : n % 2 ^ 32 % rtmBatchN < 7 := Nat.mod_lt _ (by decide)
    generalize n % rtmBatchN = x at *
    generalize n % 2 ^ 32 % rtmBatchN = y at *
    simp only [rtmBatchN]
    omega
  · rw [tmod_int32_high hlow]
    simp only [if_neg hlow]
    rw [dvd_high_succ_iff, Nat.add_mod]
    have h1 : n % rtmBatchN < 7 := Nat.mod_lt _ (by decide)
    have h2 : (2 ^ 32 - n % 2 ^ 32) % rtmBatchN < 7 := Nat.mod_lt _ (by decide)
    generalize n % rtmBatchN = x at *
    generalize (2 ^ 32 - n % 2 ^ 32) % rtmBatchN = y at *
    simp only [rtmBatchN]
    omega

/-- Up to `2^31 + 1` the negative remainders stay away from both tested values. -/
theorem alikeAt_of_le {n : Nat} (h : n ≤ 2 ^ 31 + 1) : AlikeAt n := by
  unfold AlikeAt
  have hmod : n % 2 ^ 32 = n := Nat.mod_eq_of_lt (by omega)
  have hdiv : n / 2 ^ 32 = 0 := Nat.div_eq_of_lt (by omega)
  simp only [hmod, hdiv]
  split
  · exact Or.inl (Nat.dvd_zero _)
  · simp only [rtmBatchN]
    omega

/-- **Recorder and replayer cut a thread's accesses alike exactly at the counts of `AlikeAt`**; the
first count at which they do not is `2^31 + 2`, so threads of up to `2^31 + 1` accesses, and no longer
ones, are cut alike throughout. -/
theorem cutsAlike_exactly (n : Nat) (hn : n < 2 ^ 63) :
    (CutsAlike n ↔ AlikeAt n) ∧ ((∀ m ≤ n, CutsAlike m) ↔ n ≤ 2 ^ 31 + 1) := by
  refine ⟨cutsAlike_iff hn, ?_⟩
  constructor
  · intro hall
    by_contra hgt
    have hbad : AlikeAt (2 ^ 31 + 2) := (cutsAlike_iff (by decide)).mp (hall _ (by omega))
    exact absurd hbad (by decide)
  · intro hle m hm
    exact (cutsAlike_iff (by omega)).mpr (alikeAt_of_le (by omega))

/-- The last count of the first stretch. -/
theorem cutsAlike_exactly_limit :
    CutsAlike (2 ^ 31 + 1) ∧ ∀ m ≤ 2 ^ 31 + 1, CutsAlike m := by
  obtain ⟨hiff, hall⟩ := cutsAlike_exactly (2 ^ 31 + 1) (by decide)
  exact ⟨hiff.mpr (by decide), hall.mpr (Nat.le_refl _)⟩

/-- **Two accesses past `2^31` the replayer waits for a turn inside a block**: its counter is
`-2147483646`, a multiple of 7, where the recorder's is not. -/
theorem not_cutsAlike :
    ¬ ∀ n : Nat, n < 2 ^ 63 → CutsAlike n := by
  intro hall
  have hbad := hall (2 ^ 31 + 2) (by decide)
  rw [CutsAlike, simBbcnt_eq, simBbcnt_eq] at hbad
  exact absurd hbad.1 (by decide)

/-! ## 4. The tests in the two models

The tests of this module are those by which the models of the recorder and the replayer go on. -/

section Models

variable {Addr : Type} [DecidableEq Addr] {prog : Nat → Prog Addr} {m₀ : Addr → Val} {t : Nat}

/-- The tests of the recorder are those on the number of accesses, by which its model decides. -/
theorem recorder_tests {n : Nat} (hn : n < 2 ^ 63) :
    (startsBlock (simBbcnt (some 64) n) = true ↔ n % rtmBatchN = 0) ∧
      (endsBlock (simBbcnt (some 64) n) = true ↔ n % rtmBatchN = rtmBatchN - 1) ∧
      (finishClosesBlock (simBbcnt (some 64) n) = true ↔ n % rtmBatchN ≠ 0) := by
  rw [startsBlock, endsBlock, finishClosesBlock, tmod_int64 hn, beq_iff_eq, beq_iff_eq, bne_iff_ne]
  simp only [rtmBatchN]
  omega

/-- In the replayer's model the counter of a thread is that of the accesses it has counted. -/
theorem reach_simBbcnt {nthr : Nat} {log : List Int} {w : Option Nat} {s : Replay.State Addr}
    (h : (Replay.sys nthr log w prog m₀).Reach s) (t : Nat) :
    s.bbcnt t = simBbcnt w (s.done t).length := by
  induction h with
  | init hs =>
    cases log with
    | nil => cases hs
    | cons tid tids =>
      obtain rfl := Option.some.inj hs
      rfl
  | step _ hst ih =>
    obtain ⟨u, -, hst⟩ := hst
    by_cases htu : t = u
    · subst htu
      obtain ⟨hcnt, hdone⟩ | ⟨m, hcnt, hdone⟩ := (Replay.step_frame hst).2
      · rw [hcnt, hdone, ih]
      · rw [hcnt, hdone, Function.update_self, Function.update_self, List.length_append,
          List.length_singleton, simBbcnt, ih]
    · obtain ⟨hcnt, hdone⟩ := Replay.step_bbcnt_of_ne hst htu
      rw [hcnt, hdone, ih]

/-- The replayer's model makes the three tests on that counter. -/
theorem replayer_tests {nthr : Nat} {log : List Int} {w : Option Nat} {s : Replay.State Addr}
    (h : (Replay.sys nthr log w prog m₀).Reach s) :
    (s.pc t = .start → ∀ acc, prog t ((s.done t).map Made.res) = some acc →
      Replay.step log w prog s t = .next (s.goto t
        (if startsBlock (simBbcnt w (s.done t).length) then .wait acc else .check acc))) ∧
    (∀ m, s.pc t = .after m → Replay.step log w prog s t = .next (s.goto t
      (if endsBlock (simBbcnt w (s.done t).length) then .readEntry (some m) else .count m))) ∧
    (s.pc t = .start → prog t ((s.done t).map Made.res) = none →
      Replay.step log w prog s t = .next (s.goto t
        (if finishClosesBlock (simBbcnt w (s.done t).length) then .readEntry none else .finished))) := by
  rw [← reach_simBbcnt h t, startsBlock, endsBlock, finishClosesBlock]
  refine ⟨?_, ?_, ?_⟩
  · intro hpc acc hacc
    by_cases hz : (s.bbcnt t).tmod rtmBatchN = 0 <;> simp [Replay.step, hpc, hacc, hz]
  · intro m hpc
    by_cases hz : (s.bbcnt t).tmod rtmBatchN = rtmBatchN - 1 <;> simp [Replay.step, hpc, hz]
  · intro hpc hend
    by_cases hz : (s.bbcnt t).tmod rtmBatchN = 0 <;> simp [Replay.step, hpc, hend, hz]

end Models

end MemOrder.Commit
