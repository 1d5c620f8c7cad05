/-
# Record, merge, replay

The three programs together: the stamps of a complete recorded run are merged into a log, and the
replay of that log makes the recorded accesses with the recorded results and ends in the recorded
memory.  The recorder's run is `serial order` (`complete_run`), the merged log is `order`
(`main_stamps`), and the replayer walks through `serial order` (`reach_invAt`).

The three are proved apart, and what they have in common is the order of blocks alone.  The recorder
does not know how it will be replayed, and the replayer relies on nothing but that each block of the
order has an access to make (`Replay.Good`).

The replayer counts its accesses in an `int`.  With at most `2^31` accesses a thread every test on
the counter is the recorder's, which counts in 64 bits; the first block after that is not handed
over, and §3 has the run in which a thread then reads memory too early.
-/
import MemOrder.Commit.Turns

namespace MemOrder.Commit

open KMerge
open scoped List

variable {Addr : Type} [DecidableEq Addr]

/-! ## 1. What it means to reproduce a run

Both the values and the absence of a deadlock are stated over every reachable state of the replay,
not only over its end: a replay that goes wrong does so at some state, and one that hangs has no
end. -/

/-- The replay of `log` ends as the recorded `c` did, along every interleaving. -/
structure Replays (nthr : Nat) (log : List Int) (w : Option Nat) (prog : Nat → Prog Addr)
    (m₀ : Addr → Val) (c : Config Addr) : Prop where
  /-- `mem_init` finds a log. -/
  starts : 0 < nthr → ∃ s, Replay.memInit m₀ log = some s
  /-- `assert(g_next_thr == g_tid)` does not fail. -/
  asserts : ∀ s, (Replay.sys nthr log w prog m₀).Reach s →
    ∀ t < nthr, Replay.step log w prog s t ≠ .fail
  /-- The accesses and what they return are the recorded ones. -/
  values : ∀ s, (Replay.sys nthr log w prog m₀).Reach s → ∀ t, s.done t <+: c.done t
  /-- The replay does not get stuck. -/
  progress : ∀ s, (Replay.sys nthr log w prog m₀).Reach s →
    ∀ t < nthr, s.pc t ≠ .finished → ∃ u < nthr, ∃ s', Replay.step log w prog s u = .next s'
  /-- Once all threads have finished, everything recorded is replayed. -/
  final : ∀ s, (Replay.sys nthr log w prog m₀).Reach s →
    (∀ t < nthr, s.pc t = .finished) → s.mem = c.mem ∧ ∀ t < nthr, s.done t = c.done t

/-- The merged log of the recorded run `r` names at position `k` the thread with stamp `k`, and is
replayed as `r` was recorded. -/
def Reproduces (P : PQueue Merge.QEnt Merge.QEnt.gt) (nthr : Nat) (w : Option Nat)
    (prog : Nat → Prog Addr) (m₀ : Addr → Val) (r : Record.State Addr) : Prop :=
  ∃ log, Merge.main P nthr (fun t => some (r.log t)) = .ok log ∧
    (∀ t < nthr, ∀ k, k ∈ r.log t ↔ log[k]? = some (t : Int)) ∧
    Replays nthr log w prog m₀ r.cfg

/-! ## 2. Every run with counters that do not overflow

`w` is the width of the replayer's counters, `none` for unbounded ones.  The width of the source
comes in at the end only. -/

section Reproduce

variable {nthr : Nat} {prog : Nat → Prog Addr} {m₀ : Addr → Val} {w : Option Nat}

/-- The replay of any good order of blocks, from the invariant of the replayer: in each reachable
state the threads have made the accesses of some blocks of the order and a part of the next one. -/
theorem replays_serial {order : List Nat} (hn : nthr ≤ 127) (hg : Replay.Good nthr order w prog m₀)
    (hne : 0 < nthr → order ≠ []) :
    Replays nthr (order.map (fun t : Nat => (t : Int))) w prog m₀ (serial prog m₀ order) where
  starts hpos := by
    cases order with
    | nil => exact absurd rfl (hne hpos)
    | cons t ts => exact ⟨_, rfl⟩
  asserts s hs t ht := by
    obtain ⟨k, j, hinv⟩ := Replay.reach_invAt hg hn hs
    exact hinv.not_fail (by omega)
  values s hs t := by
    obtain ⟨k, j, hinv⟩ := Replay.reach_invAt hg hn hs
    exact (List.prefix_append _ _).trans (hinv.prefix_serial t)
  progress s hs t ht hf := by
    obtain ⟨k, j, hinv⟩ := Replay.reach_invAt hg hn hs
    exact hinv.progress hg hn ht hf
  final s hs hf := by
    obtain ⟨k, j, hinv⟩ := Replay.reach_invAt hg hn hs
    have hcfg := hinv.complete hg hf
    refine ⟨by rw [← hcfg]; rfl, ?_⟩
    intro t ht
    rw [← hcfg, Replay.config_done, hf t ht]
    exact (List.append_nil _).symm

/-- A thread that makes an access has a block. -/
theorem stamps_ne_nil {order : List Nat} {t : Nat} (ho : Opens prog m₀ order)
    (hend : (serial prog m₀ order).next prog t = none) (hp : prog t [] ≠ none) :
    Record.stamps order t ≠ [] := by
  intro hnil
  have hcount : order.count t = 0 := by rw [← Record.stamps_length, hnil]; rfl
  have hdone : (serial prog m₀ order).done t = [] := by
    have := (ho.count t).2
    rw [hcount] at this
    refine List.length_eq_zero_iff.mp ?_
    simp only [rtmBatchN] at this
    omega
  rw [Config.next, hdone] at hend
  exact hp hend

/-- **Record, merge and replay reproduce the run**, at any width of the replayer's counters in
which they do not overflow. -/
theorem reproduces (P : PQueue Merge.QEnt Merge.QEnt.gt) (hn : nthr ≤ 127) {r : Record.State Addr}
    (hr : (Record.sys nthr prog m₀).Reach r) (hf : ∀ t < nthr, Record.Finished prog r t)
    (hp : ∀ t < nthr, prog t [] ≠ none) (hw : ∀ t < nthr, Replay.Fits w (r.cfg.done t).length) :
    Reproduces P nthr w prog m₀ r := by
  obtain ⟨hcfg, hlog, hlt, ho⟩ := Record.complete_run hr hf
  have hend : ∀ t < nthr, (serial prog m₀ r.order).next prog t = none := by
    intro t ht
    rw [← hcfg]
    exact (hf t ht).2
  have hne : ∀ t < nthr, Record.stamps r.order t ≠ [] := fun t ht =>
    stamps_ne_nil ho (hend t ht) (hp t ht)
  have hgood : Replay.Good nthr r.order w prog m₀ :=
    ⟨hlt, ho, hend, fun t ht => by rw [← hcfg]; exact hw t ht⟩
  refine ⟨r.order.map (fun t : Nat => (t : Int)), ?_, ?_, ?_⟩
  · rw [show r.log = Record.stamps r.order from funext hlog]
    exact Merge.main_stamps P hlt hn hne
  · intro t _ k
    rw [hlog, Record.mem_stamps, List.getElem?_map]
    cases r.order[k]? with
    | none => simp
    | some u => simp
  · rw [hcfg]
    refine replays_serial hn hgood (fun hpos hnil => hne 0 hpos ?_)
    rw [hnil]
    rfl

/-- The stamps of a complete run: each number below `g_time` once, and for each thread one for every
started block of its accesses. -/
theorem stamps_of_run {r : Record.State Addr} (hr : (Record.sys nthr prog m₀).Reach r)
    (hf : ∀ t < nthr, Record.Finished prog r t) :
    ((List.range nthr).flatMap r.log).Perm (List.range r.time) ∧
      ∀ t, (r.log t).length = ((r.cfg.done t).length + (rtmBatchN - 1)) / rtmBatchN := by
  obtain ⟨hcfg, hlog, hlt, ho⟩ := Record.complete_run hr hf
  rw [show r.log = Record.stamps r.order from funext hlog, (Record.reach_inv hr).time]
  refine ⟨Merge.stamps_perm_range r.order nthr hlt, ?_⟩
  intro t
  rw [Record.stamps_length, hcfg, (ho.count t).2]

/-- **The rtmcommit pipeline reproduces every recorded run in which no thread makes more than
`2^31` accesses**: the blocks have the stamps `0, 1, 2, ...`, and the merged log, replayed with
32-bit counters, gives the run again. -/
theorem rtmcommit_reproduces (P : PQueue Merge.QEnt Merge.QEnt.gt) (hn : nthr ≤ 127)
    {r : Record.State Addr} (hr : (Record.sys nthr prog m₀).Reach r)
    (hf : ∀ t < nthr, Record.Finished prog r t) (hp : ∀ t < nthr, prog t [] ≠ none)
    (hw : ∀ t < nthr, (r.cfg.done t).length ≤ 2 ^ 31) :
    ((List.range nthr).flatMap r.log).Perm (List.range r.time) ∧
      (∀ t < nthr, (r.log t).length = ((r.cfg.done t).length + (rtmBatchN - 1)) / rtmBatchN) ∧
      Reproduces P nthr (some 32) prog m₀ r := by
  obtain ⟨hperm, hblocks⟩ := stamps_of_run hr hf
  exact ⟨hperm, fun t _ => hblocks t, reproduces P hn hr hf hp (fun t ht => ⟨hw t ht, by decide⟩)⟩

end Reproduce

/-- Thread 0 reads one word `n` times, thread 1 writes it once. -/
def readsAndWrite (n : Nat) : Nat → Prog Unit
  | 0, rs => if n ≤ rs.length then none else some (.read ())
  | 1, rs => if 1 ≤ rs.length then none else some (.write () 1)
  | _, _ => none

/-- How many accesses they make. -/
def readsAndWriteLen (n : Nat) : Nat → Nat
  | 0 => n
  | 1 => 1
  | _ => 0

/-- The programs make so many accesses, whatever these return. -/
theorem counted_readsAndWrite (n : Nat) : Counted (readsAndWrite n) (readsAndWriteLen n) := by
  intro t rs
  match t with
  | 0 => simp [readsAndWrite, readsAndWriteLen]
  | 1 => simp [readsAndWrite, readsAndWriteLen, Nat.one_le_iff_ne_zero]
  | t + 2 => simp [readsAndWrite, readsAndWriteLen]

/-- A run in which the write comes between the first `7 * b` reads and the last one.  Blocks may
commit in any order, so there is one. -/
theorem exists_readsAndWrite (b : Nat) : ∃ r : Record.State Unit,
    (Record.sys 2 (readsAndWrite (b * rtmBatchN + 1)) (fun _ => 0)).Reach r ∧
      (∀ t < 2, Record.Finished (readsAndWrite (b * rtmBatchN + 1)) r t) ∧
      r.order = List.replicate b 0 ++ [1, 0] := by
  have hc := counted_readsAndWrite (b * rtmBatchN + 1)
  have hcount : ∀ t < 2, (List.replicate b 0 ++ [1, 0]).count t = if t = 0 then b + 1 else 1 := by
    intro t ht
    match t, ht with
    | 0, _ => simp
    | 1, _ => simp [List.count_replicate]
  have hlt : ∀ t ∈ List.replicate b 0 ++ [1, 0], t < 2 := by
    intro t ht
    simp only [List.mem_append, List.mem_replicate, List.mem_cons, List.not_mem_nil, or_false] at ht
    omega
  have hopens : Opens (readsAndWrite (b * rtmBatchN + 1)) (fun _ => 0)
      (List.replicate b 0 ++ [1, 0]) := by
    refine hc.opens ?_
    intro t ht
    rw [hcount t (hlt t ht)]
    match t, hlt t ht with
    | 0, _ => simp [readsAndWriteLen]
    | 1, _ => simp [readsAndWriteLen]
  obtain ⟨r, hr, hord, hcfg, -, hidle⟩ := Record.exists_run hlt hopens
  refine ⟨r, hr, fun t ht => ⟨hidle t, ?_⟩, hord⟩
  rw [hc.next_eq_none, hcfg, hc.length_serial, hcount t ht]
  match t, ht with
  | 0, _ =>
    simp only [readsAndWriteLen, if_true, rtmBatchN]
    omega
  | 1, _ => simp [readsAndWriteLen, rtmBatchN]

/-- Eight reads and a write. -/
theorem rtmcommit_reproduces_eight : ∃ r : Record.State Unit,
    (Record.sys 2 (readsAndWrite 8) (fun _ => 0)).Reach r ∧ r.order = [0, 1, 0] ∧
      Reproduces (listQueue _ Merge.qent_comparison) 2 (some 32) (readsAndWrite 8) (fun _ => 0) r := by
  obtain ⟨r, hr, hf, hord⟩ := exists_readsAndWrite 1
  have hcfg := (Record.complete_run hr hf).1
  refine ⟨r, hr, hord, (rtmcommit_reproduces _ (by decide) hr hf (by decide) ?_).2.2⟩
  intro t ht
  rw [hcfg, (counted_readsAndWrite _).length_serial]
  match t, ht with
  | 0, _ => exact Nat.le_trans (Nat.min_le_left _ _) (by decide)
  | 1, _ => exact Nat.le_trans (Nat.min_le_left _ _) (by decide)

/-! ## 3. Beyond `2^31` accesses

Access number `2^31 + 4` ends a block, but the counter is `-2^31 + 4` there, and its remainder is
not `RTM_BATCH_N - 1`.  The thread keeps the turn and makes the first access of its next block,
whoever was to come first. -/

namespace Replay

section Turn

variable {nthr t : Nat} {log : List Int} {w : Option Nat} {prog : Nat → Prog Addr}
  {m₀ : Addr → Val} {s : State Addr} {acc : Acc Addr}

/-- The state after a whole access that does not hand over the turn. -/
def State.accessed (s : State Addr) (w : Option Nat) (t : Nat) (acc : Acc Addr) : State Addr :=
  { s with
    mem := (doAcc s.mem acc).1
    bbcnt := Function.update s.bbcnt t (wrap w (s.bbcnt t + 1))
    done := Function.update s.done t (s.done t ++ [⟨acc, (doAcc s.mem acc).2⟩]) }

omit [DecidableEq Addr] in
/-- Of two moves the last one counts. -/
theorem goto_goto (s : State Addr) (t : Nat) (a b : Pc Addr) :
    (s.goto t a).goto t b = s.goto t b := by
  simp [State.goto]

omit [DecidableEq Addr] in
/-- Moving to where the thread is. -/
theorem goto_self (h : s.pc t = .start) : s.goto t .start = s := by
  rw [State.goto, ← h, Function.update_eq_self]

/-- A thread with the turn comes to the end of its next access. -/
theorem reach_after (hs : (sys nthr log w prog m₀).Reach s) (ht : t < nthr)
    (hpc : s.pc t = .start) (hturn : s.nextThr = tidT t)
    (hacc : prog t ((s.done t).map Made.res) = some acc) :
    (sys nthr log w prog m₀).Reach
      ({ s with mem := (doAcc s.mem acc).1 }.goto t (.after ⟨acc, (doAcc s.mem acc).2⟩)) := by
  have hcheck : (sys nthr log w prog m₀).Reach (s.goto t (.check acc)) := by
    by_cases hz : (s.bbcnt t).tmod rtmBatchN = 0
    · have hwait : (sys nthr log w prog m₀).Reach (s.goto t (.wait acc)) :=
        hs.step (l := none) ⟨t, ht, by simp [step, hpc, hacc, hz]⟩
      refine hwait.step (l := none) ⟨t, ht, ?_⟩
      rw [← goto_goto s t (.wait acc)]
      simp [step, State.goto, hturn]
    · exact hs.step (l := none) ⟨t, ht, by simp [step, hpc, hacc, hz]⟩
  have haccess : (sys nthr log w prog m₀).Reach (s.goto t (.access acc)) := by
    refine hcheck.step (l := none) ⟨t, ht, ?_⟩
    rw [← goto_goto s t (.check acc)]
    simp [step, State.goto, hturn]
  refine haccess.step (l := none) ⟨t, ht, ?_⟩
  simp [step, State.goto]

/-- An access inside a block. -/
theorem reach_accessed (hs : (sys nthr log w prog m₀).Reach s) (ht : t < nthr)
    (hpc : s.pc t = .start) (hturn : s.nextThr = tidT t)
    (hacc : prog t ((s.done t).map Made.res) = some acc)
    (hlast : (s.bbcnt t).tmod rtmBatchN ≠ rtmBatchN - 1) :
    (sys nthr log w prog m₀).Reach (s.accessed w t acc) := by
  have hafter := reach_after hs ht hpc hturn hacc
  have hcount : (sys nthr log w prog m₀).Reach
      ({ s with mem := (doAcc s.mem acc).1 }.goto t (.count ⟨acc, (doAcc s.mem acc).2⟩)) := by
    refine hafter.step (l := none) ⟨t, ht, ?_⟩
    simp [step, State.goto, hlast]
  refine hcount.step (l := none) ⟨t, ht, ?_⟩
  rw [← goto_self (s := s.accessed w t acc) hpc]
  simp [step, State.goto, State.accessed]

/-- An access that ends a block. -/
theorem reach_handed (hs : (sys nthr log w prog m₀).Reach s) (ht : t < nthr)
    (hpc : s.pc t = .start) (hturn : s.nextThr = tidT t)
    (hacc : prog t ((s.done t).map Made.res) = some acc)
    (hlast : (s.bbcnt t).tmod rtmBatchN = rtmBatchN - 1) (hbuf : s.buf + 1 ≤ log.length) :
    (sys nthr log w prog m₀).Reach
      { s.accessed w t acc with buf := s.buf + 1, nextThr := log.getD s.buf 0 } := by
  have hafter := reach_after hs ht hpc hturn hacc
  have hread : (sys nthr log w prog m₀).Reach ({ s with mem := (doAcc s.mem acc).1 }.goto t
      (.readEntry (some ⟨acc, (doAcc s.mem acc).2⟩))) := by
    refine hafter.step (l := none) ⟨t, ht, ?_⟩
    simp [step, State.goto, hlast]
  have hadv : (sys nthr log w prog m₀).Reach ({ s with mem := (doAcc s.mem acc).1 }.goto t
      (.advance s.buf (some ⟨acc, (doAcc s.mem acc).2⟩))) := by
    refine hread.step (l := none) ⟨t, ht, ?_⟩
    simp [step, State.goto, Nat.not_lt.mpr hbuf]
  have hset : (sys nthr log w prog m₀).Reach
      ({ s with mem := (doAcc s.mem acc).1, buf := s.buf + 1 }.goto t
        (.setNext s.buf (some ⟨acc, (doAcc s.mem acc).2⟩))) := by
    refine hadv.step (l := none) ⟨t, ht, ?_⟩
    simp [step, State.goto]
  have hcount : (sys nthr log w prog m₀).Reach
      ({ s with mem := (doAcc s.mem acc).1, buf := s.buf + 1, nextThr := log.getD s.buf 0 }.goto t
        (.count ⟨acc, (doAcc s.mem acc).2⟩)) := by
    refine hset.step (l := none) ⟨t, ht, ?_⟩
    simp [step, State.goto, resume]
  refine hcount.step (l := none) ⟨t, ht, ?_⟩
  rw [← goto_self (s := { s.accessed w t acc with
    buf := s.buf + 1, nextThr := log.getD s.buf 0 }) hpc]
  simp [step, State.goto, State.accessed]

end Turn

/-- Past the limit the counter is negative, and no remainder is `RTM_BATCH_N - 1`: C takes the sign
of the dividend. -/
theorem tmod_of_overflow {n : Nat} (h1 : 2 ^ 31 ≤ n) (h2 : n < 2 ^ 32) :
    (wrap (some 32) n).tmod rtmBatchN ≠ rtmBatchN - 1 := by
  have hneg : wrap (some 32) n = -((2 ^ 32 - n : Nat) : Int) := by
    have hmod : (n : Int) % ((2 ^ 32 : Nat) : Int) = n := Int.emod_eq_of_lt (by omega) (by omega)
    rw [wrap, Int.bmod_def, hmod, if_neg (by omega)]
    omega
  rw [hneg, Int.neg_tmod, Int.tmod_eq_emod_of_nonneg (by omega)]
  simp only [rtmBatchN]
  omega

/-- The merged log: `b` blocks of thread 0, the write, the last read. -/
def writeLog (b : Nat) : List Int := (List.replicate b 0 ++ [1, 0]).map (fun t : Nat => (t : Int))

/-- The log has a block more than the reads fill, and the write. -/
theorem writeLog_length (b : Nat) : (writeLog b).length = b + 2 := by
  simp [writeLog]

/-- It begins with thread 0. -/
theorem writeLog_getD {b i : Nat} (h : i < b) : (writeLog b).getD i 0 = 0 := by
  rw [writeLog, List.getD_eq_getElem?_getD, List.getElem?_map,
    List.getElem?_append_left (by simpa using h), List.getElem?_replicate_of_lt h]
  rfl

/-- Thread 0 has made `n` reads and thread 1 has not moved. -/
def lone (n : Nat) : State Unit where
  mem := fun _ => 0
  buf := min n (2 ^ 31) / rtmBatchN + 1
  nextThr := 0
  pc := fun _ => .start
  bbcnt := Function.update (fun _ => 0) 0 (wrap (some 32) n)
  done := Function.update (fun _ => []) 0 (List.replicate n ⟨.read (), some 0⟩)

/-- The replay starts with nothing read. -/
theorem lone_zero {b : Nat} (h : 0 < b) : memInit (fun _ => 0) (writeLog b) = some (lone 0) := by
  obtain ⟨c, rfl⟩ : ∃ c, b = c + 1 := ⟨b - 1, by omega⟩
  have hzero : ∀ {α : Type} (x : α), Function.update (fun _ : Nat => x) 0 x = fun _ => x :=
    fun x => Function.update_eq_self 0 (fun _ => x)
  simp only [writeLog, List.replicate_succ, List.cons_append, List.map_cons, memInit, lone,
    Option.some.injEq, List.replicate_zero]
  rw [show wrap (some 32) (0 : Nat) = 0 by decide, hzero, hzero]
  rfl

/-- One more read. -/
theorem lone_accessed (n : Nat) : (lone n).accessed (some 32) 0 (.read ()) =
    { lone (n + 1) with buf := (lone n).buf } := by
  have hwrap := wrap_succ (some 32) n
  simp only [State.accessed, lone, doAcc, Function.update_self, Function.update_idem, hwrap,
    List.replicate_succ']

/-- Thread 0 keeps the turn all the way, since the block with access number `2^31` is not handed
over.  By induction on the reads: up to the limit each block that ends is followed by a block of
thread 0 again, and past it no block ends. -/
theorem reach_lone {b : Nat} (hb : b * rtmBatchN = 2 ^ 31 + 5) (n : Nat)
    (hn : n ≤ b * rtmBatchN + 1) :
    (sys 2 (writeLog b) (some 32) (readsAndWrite (b * rtmBatchN + 1)) (fun _ => 0)).Reach
      (lone n) := by
  induction n with
  | zero => exact .init (lone_zero (by simp only [rtmBatchN] at hb; omega))
  | succ n ih =>
    have hs := ih (by omega)
    have hacc : readsAndWrite (b * rtmBatchN + 1) 0 (((lone n).done 0).map Made.res) =
        some (.read ()) := by
      simp only [readsAndWrite, lone, Function.update_self, List.length_map, List.length_replicate]
      rw [if_neg (by omega)]
    have hcnt : (lone n).bbcnt 0 = wrap (some 32) n := by simp only [lone, Function.update_self]
    have hpc : (lone n).pc 0 = .start := rfl
    have hturn : (lone n).nextThr = tidT (0 : Nat) := rfl
    by_cases hlast : ((lone n).bbcnt 0).tmod rtmBatchN = rtmBatchN - 1
    · -- a block ends, before the overflow
      have hlt : n < 2 ^ 31 := by
        by_contra hge
        rw [hcnt] at hlast
        exact tmod_of_overflow (by omega) (by omega) hlast
      have hfits : Fits (some 32) (n + 1) := ⟨hlt, by decide⟩
      have hmod : n % rtmBatchN = rtmBatchN - 1 := by
        rw [hcnt, tmod_of_lt hfits] at hlast
        simp only [rtmBatchN] at hlast ⊢
        omega
      have hbuf : (lone n).buf = n / rtmBatchN + 1 := by
        rw [lone, Nat.min_eq_left (by omega)]
      -- the next entry of the log is thread 0's again
      have hnext : (lone n).buf < b := by
        rw [hbuf]
        simp only [rtmBatchN] at hb hmod ⊢
        omega
      have hreach := reach_handed hs (by decide) hpc hturn hacc hlast
        (by rw [writeLog_length]; omega)
      rw [lone_accessed, writeLog_getD hnext, hbuf] at hreach
      have hbuf' : (lone (n + 1)).buf = n / rtmBatchN + 1 + 1 := by
        rw [lone, Nat.min_eq_left (by omega)]
        simp only [rtmBatchN] at hmod ⊢
        omega
      rw [← hbuf'] at hreach
      exact hreach
    -- no block ends: inside of one, or past the overflow
    · have hreach := reach_accessed hs (by decide) hpc hturn hacc hlast
      have hbuf : (lone n).buf = (lone (n + 1)).buf := by
        rcases Nat.lt_or_ge n (2 ^ 31) with hlt | hge
        · have hfits : Fits (some 32) (n + 1) := ⟨hlt, by decide⟩
          rw [hcnt, tmod_of_lt hfits] at hlast
          simp only [lone]
          rw [Nat.min_eq_left (by omega), Nat.min_eq_left (by omega)]
          simp only [rtmBatchN] at hlast ⊢
          omega
        · simp only [lone]
          rw [Nat.min_eq_right hge, Nat.min_eq_right (by omega)]
      rw [lone_accessed, hbuf] at hreach
      exact hreach

end Replay

/-- The last read of thread 0 comes after the write, in the serial run. -/
theorem serial_readsAndWrite (b : Nat) :
    ((serial (readsAndWrite (b * rtmBatchN + 1)) (fun _ => 0)
      (List.replicate b 0 ++ [1, 0])).done 0)[b * rtmBatchN]? = some ⟨.read (), some 1⟩ := by
  have hc := counted_readsAndWrite (b * rtmBatchN + 1)
  generalize hprog : readsAndWrite (b * rtmBatchN + 1) = prog at hc
  have hsplit : List.replicate b 0 ++ [1, 0] = (List.replicate b 0 ++ [1]) ++ [0] := by simp
  have hlen : ∀ us, (us = [] ∨ us = [1]) →
      ((serial prog (fun _ => 0) (List.replicate b 0 ++ us)).done 0).length = b * rtmBatchN := by
    intro us hus
    rw [hc.length_serial]
    rcases hus with rfl | rfl
    · simp [readsAndWriteLen]
    · simp [readsAndWriteLen]
  have hone : ((serial prog (fun _ => 0) (List.replicate b 0)).done 1).length = 0 := by
    rw [hc.length_serial]
    simp [List.count_replicate]
  -- after the write memory is 1
  have hmem : (serial prog (fun _ => 0) (List.replicate b 0 ++ [1])).mem () = 1 := by
    rw [serial_snoc, runBlock, runAccesses_of_next_none (j := 1) ?_ _ (by decide)]
    · have hnext : (serial prog (fun _ => 0) (List.replicate b 0)).next prog 1 = some (.write () 1) := by
        rw [Config.next, List.length_eq_zero_iff.mp hone, ← hprog]
        rfl
      simp only [runAccesses, hnext, Config.access, doAcc, Function.update_self]
    · rw [hc.next_eq_none]
      rcases runAccesses_length prog 1 (serial prog (fun _ => 0) (List.replicate b 0)) 1 with h | h
      · rw [h]
        exact Nat.le_add_left _ _
      · exact hc.next_eq_none.mp h
  have hnext : (serial prog (fun _ => 0) (List.replicate b 0 ++ [1])).next prog 0 =
      some (.read ()) := by
    rw [Config.next, ← hprog]
    simp only [readsAndWrite, List.length_map]
    rw [hprog, hlen [1] (Or.inr rfl), if_neg (by omega)]
  have hread : (runAccesses prog 0 1 (serial prog (fun _ => 0) (List.replicate b 0 ++ [1]))).done 0 =
      (serial prog (fun _ => 0) (List.replicate b 0 ++ [1])).done 0 ++ [⟨.read (), some 1⟩] := by
    simp only [runAccesses, hnext, access_done_self, doAcc, hmem]
  rw [hsplit, serial_snoc, runBlock]
  have hpre : (runAccesses prog 0 1 (serial prog (fun _ => 0) (List.replicate b 0 ++ [1]))).done 0 <+:
      (runAccesses prog 0 rtmBatchN (serial prog (fun _ => 0) (List.replicate b 0 ++ [1]))).done 0 :=
    runAccesses_mono (by decide) 0
  obtain ⟨rest, hrest⟩ := hpre
  rw [← hrest, hread, List.append_assoc,
    List.getElem?_append_right (Nat.le_of_eq (hlen [1] (Or.inr rfl))), hlen [1] (Or.inr rfl)]
  simp

/-- **A run that is not reproduced.**  Thread 0 makes `2^31 + 6` reads, thread 1 its write before
the last of them.  The replay can make all the reads first, and the last one returns 0. -/
theorem rtmcommit_reads_early : ∃ (r : Record.State Unit) (log : List Int) (s : Replay.State Unit),
    (Record.sys 2 (readsAndWrite (2 ^ 31 + 6)) (fun _ => 0)).Reach r ∧
      (∀ t < 2, Record.Finished (readsAndWrite (2 ^ 31 + 6)) r t) ∧
      (∀ t < 2, readsAndWrite (2 ^ 31 + 6) t [] ≠ none) ∧
      Merge.main (listQueue _ Merge.qent_comparison) 2 (fun t => some (r.log t)) = .ok log ∧
      (Replay.sys 2 log (some 32) (readsAndWrite (2 ^ 31 + 6)) (fun _ => 0)).Reach s ∧
      ¬ s.done 0 <+: r.cfg.done 0 := by
  obtain ⟨b, hb⟩ : ∃ b, b * rtmBatchN = 2 ^ 31 + 5 := ⟨306783379, by decide⟩
  obtain ⟨r, hr, hf, hord⟩ := exists_readsAndWrite b
  obtain ⟨hcfg, hlog, hlt, ho⟩ := Record.complete_run hr hf
  have hp : ∀ t < 2, readsAndWrite (b * rtmBatchN + 1) t [] ≠ none := by
    intro t ht
    match t, ht with
    | 0, _ => simp [readsAndWrite]
    | 1, _ => simp [readsAndWrite]
  have hmain : Merge.main (listQueue _ Merge.qent_comparison) 2 (fun t => some (r.log t)) =
      .ok (Replay.writeLog b) := by
    rw [show r.log = Record.stamps r.order from funext hlog, Merge.main_stamps _ hlt (by decide)
      (fun t ht => stamps_ne_nil ho (by rw [← hcfg]; exact (hf t ht).2) (hp t ht)), hord]
    rfl
  have hlone := Replay.reach_lone hb (b * rtmBatchN + 1) (Nat.le_refl _)
  have hlast := serial_readsAndWrite b
  rw [← hord, ← hcfg] at hlast
  have hearly : ¬ (Replay.lone (b * rtmBatchN + 1)).done 0 <+: r.cfg.done 0 := by
    intro hpre
    have hget := hpre.getElem (i := b * rtmBatchN) (by simp [Replay.lone])
    obtain ⟨hlen, hone⟩ := List.getElem?_eq_some_iff.mp hlast
    rw [hone] at hget
    simp [Replay.lone] at hget
  rw [hb] at hr hf hp hlone hearly
  exact ⟨r, Replay.writeLog b, _, hr, hf, hp, hmain, hlone, hearly⟩

end MemOrder.Commit
