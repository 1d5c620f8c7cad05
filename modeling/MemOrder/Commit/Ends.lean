/-
# The replay of a commit log on TSO

What holds of every run of `mem-replay-rtmcommit.c` with store buffers, on the log of any good order
of blocks: the assertion never fails, each thread's accesses are a prefix of the serial run's, a run
has at most as many steps as the accesses of the serial run allow, and when it cannot go on it has
made all of them.

The potential of a thread counts the accesses it has still to make, and its place in the code.
Nothing in this replayer goes back but the wait loop, so every step lowers it.  On TSO a step is two
units, itself and the drain of its store.

That it has made all of them when it cannot go on is a statement about the END of a run, and on TSO
an end is a state with empty buffers.  There memory is what every thread sees, and the state is one
of the sequentially consistent replayer, whose progress theorem applies.
-/
import MemOrder.Commit.Tso

namespace MemOrder.Commit

open KMerge

variable {Addr : Type} [DecidableEq Addr]

/-! ## 1. The potential of a replay

For the sequentially consistent replayer, with the places of the code numbered from behind. -/

namespace Replay

section Potential

variable {nthr k j t u : Nat} {order : List Nat} {w : Option Nat} {prog : Nat → Prog Addr}
  {m₀ : Addr → Val} {s s' : State Addr} {log : List Int}

def Pc.potential : Pc Addr → Nat
  | .start => 9
  | .wait _ => 8
  | .check _ => 7
  | .access _ => 6
  | .after _ => 5
  | .readEntry _ => 4
  | .advance _ _ => 3
  | .setNext _ _ => 2
  | .count _ => 1
  | .finished => 0

/-- The potential of thread `t`, which makes `n` accesses in all. -/
def State.potential (s : State Addr) (n t : Nat) : Nat :=
  10 * (n - (s.done t).length) + (s.pc t).potential

/-- The potential of the threads, in a replay of `order`. -/
def potential (nthr : Nat) (prog : Nat → Prog Addr) (m₀ : Addr → Val) (order : List Nat)
    (s : State Addr) : Nat :=
  ∑ t ∈ Finset.range nthr, s.potential ((serial prog m₀ order).done t).length t

/-- What it is at the start. -/
def bound (nthr : Nat) (prog : Nat → Prog Addr) (m₀ : Addr → Val) (order : List Nat) : Nat :=
  ∑ t ∈ Finset.range nthr, (10 * ((serial prog m₀ order).done t).length + 9)

omit [DecidableEq Addr] in
/-- What follows a closed block is nearly the end of the access. -/
theorem resume_potential (c : Option (Made Addr)) : (resume c).potential ≤ 1 := by
  cases c <;> simp [resume, Pc.potential]

/-- A step lowers the potential of its thread.  The one case with an argument is `count`: the access
that is over has to be one that the thread had still to make, and this is the invariant's. -/
theorem InvAt.thr_potential_lt (h : InvAt order w prog m₀ k j s)
    (hst : step log w prog s t = .next s') :
    s'.potential ((serial prog m₀ order).done t).length t
      < s.potential ((serial prog m₀ order).done t).length t := by
  unfold State.potential
  cases hpc : s.pc t with
  | start =>
    simp only [step, hpc] at hst
    split at hst <;> split at hst <;> cases hst <;> simp [State.goto, Pc.potential]
  | wait acc | check acc | after m =>
    simp only [step, hpc] at hst
    split at hst <;> cases hst <;> simp [State.goto, Pc.potential]
  | access acc | advance p c =>
    simp only [step, hpc] at hst
    cases hst
    simp [State.goto, Pc.potential]
  | readEntry c =>
    have hr := resume_potential c
    simp only [step, hpc] at hst
    split at hst <;> cases hst
    · simp only [State.goto, Function.update_self]
      exact Nat.add_lt_add_left (Nat.lt_of_le_of_lt hr (by decide : 1 < 4)) _
    · simp [State.goto, Pc.potential]
  | setNext p c =>
    have hr := resume_potential c
    simp only [step, hpc] at hst
    cases hst
    simp only [State.goto, Function.update_self]
    exact Nat.add_lt_add_left (Nat.lt_of_le_of_lt hr (by decide : 1 < 2)) _
  | count m =>
    -- the access that is counted is one of the serial run
    have hle := (h.prefix_serial t).length_le
    rw [config_done, hpc] at hle
    simp only [Pc.pending, List.length_append, List.length_singleton] at hle
    simp only [step, hpc] at hst
    cases hst
    simp only [State.goto, Function.update_self, Pc.potential, List.length_append,
      List.length_singleton]
    omega
  | finished =>
    simp only [step, hpc] at hst
    cases hst

/-- **Every step lowers the potential.** -/
theorem InvAt.potential_lt (h : InvAt order w prog m₀ k j s) (ht : t < nthr)
    (hst : step log w prog s t = .next s') :
    potential nthr prog m₀ order s' < potential nthr prog m₀ order s := by
  obtain ⟨r, hs', hs⟩ := Trans.sum_except
    (f := fun u => s'.potential ((serial prog m₀ order).done u).length u)
    (g := fun u => s.potential ((serial prog m₀ order).done u).length u) ht (by
      intro u hu
      rw [State.potential, State.potential, (step_frame hst).1 u hu, (step_bbcnt_of_ne hst hu).2])
  have hlt := h.thr_potential_lt hst
  unfold potential
  rw [hs', hs]
  omega

/-- At the start no access is made. -/
theorem potential_memInit (hs : memInit m₀ log = some s) :
    potential nthr prog m₀ order s = bound nthr prog m₀ order := by
  cases log with
  | nil => cases hs
  | cons tid log =>
    cases hs
    rfl

end Potential

end Replay

/-! ## 2. Runs with store buffers

A run is followed by one of the other replayer (`Stands`), and what holds there holds here, of the
state that the holder sees. -/

namespace ReplayTso

open Replay (Good InvAt)

variable {nthr k j t u : Nat} {order : List Nat} {w : Option Nat} {prog : Nat → Prog Addr}
  {m₀ : Addr → Val} {s s' : State Addr} {log : List Int}

/-- The log of an order of blocks. -/
def logOf (order : List Nat) : List Int := order.map (fun t : Nat => (t : Int))

/-- **Every run with store buffers stands for one without**, and is no longer than twice the potential
it starts with. -/
theorem exec_stands (hg : Good nthr order w prog m₀) (hn : nthr ≤ 127) {ls : List Nat}
    (hx : (sys nthr (logOf order) w prog m₀).Exec ls s) :
    ∃ c, (Replay.sys nthr (logOf order) w prog m₀).Reach c ∧ Stands nthr s c ∧
      ls.length ≤ 2 * Replay.bound nthr prog m₀ order := by
  have h0 : ∀ s, (sys nthr (logOf order) w prog m₀).init s →
      ∃ c, (Replay.sys nthr (logOf order) w prog m₀).init c ∧ Stands nthr s c ∧
        2 * Replay.potential nthr prog m₀ order c + s.buffered nthr
          ≤ 2 * Replay.bound nthr prog m₀ order := by
    intro s hs
    obtain ⟨c, hc, rfl, hb⟩ := stands_init hs
    refine ⟨_, hc, ⟨0, ⟨fun u _ => hb u, fun hne => absurd (hb 0) hne, ?_,
      fun hne => absurd (hb 0) hne⟩, ?_⟩, ?_⟩
    · intro b tid b' heq
      rw [hb] at heq
      simp at heq
    · rw [State.view, hb]
      rfl
    · simp [Replay.potential_memInit hc, State.buffered, hb]
  obtain ⟨c, hc, hstands, hle⟩ := Trans.Sys.exec_length_le h0 (by
    rintro s l s' c - hc ⟨h, hh, rfl⟩ hst
    obtain ⟨k, j, hinv⟩ := Replay.reach_invAt hg hn hc
    obtain ⟨h', hh', ⟨hat, hlt⟩ | ⟨hle, t, ht, hstep⟩⟩ := hh.step hn hg hinv hst
    · refine ⟨_, Or.inl rfl, ⟨h', hh', hat.symm⟩, ?_⟩
      omega
    · refine ⟨_, Or.inr ⟨none, t, ht, hstep⟩, ⟨h', hh', rfl⟩, ?_⟩
      have := hinv.potential_lt ht hstep
      omega) hx
  exact ⟨c, hc, hstands, by omega⟩

/-- The assertion does not fail.  The thread that executes it is inside a block; so it is the
holder, and sees what the other replayer's thread sees, or the buffers are empty. -/
theorem Stands.not_fail {c : Replay.State Addr} (h : Stands nthr s c)
    (hinv : InvAt order w prog m₀ k j c) (hn : nthr ≤ 127) (ht : t < nthr) :
    s.instr log w prog t ≠ .fail := by
  obtain ⟨h, hh, rfl⟩ := h
  intro hfail
  have hview := step_view log w prog s t
  rw [hfail] at hview
  by_cases hself : t = h ∨ s.sbuf h = []
  · have heq : s.view h = s.view t := by
      rcases hself with rfl | hb
      · rfl
      · exact hh.view_eq hb t
    rw [heq] at hinv
    exact hinv.not_fail (by omega) hview
  · -- another thread than the holder is not at the assertion
    rw [not_or] at hself
    have hout := hh.out hself.2 t ht hself.1
    obtain ⟨acc, hpc, -⟩ := Replay.step_fail hview
    have hpc' : s.pc t = .check acc := hpc
    simp [Replay.State.inBlock, State.at, hpc'] at hout

/-- The accesses are the same in both. -/
theorem Stands.done_eq {c : Replay.State Addr} (h : Stands nthr s c) (t : Nat) :
    c.done t = s.done t := by
  obtain ⟨h, -, rfl⟩ := h
  rfl

/-- Threads that do not exist store nothing. -/
theorem reach_buf_none (hs : (sys nthr log w prog m₀).Reach s) (ht : nthr ≤ t) : s.sbuf t = [] := by
  refine Trans.Sys.reach_of_inductive (I := fun s => s.sbuf t = []) ?_ ?_ hs
  · intro s h0
    obtain ⟨-, -, -, hb⟩ := stands_init h0
    exact hb t
  · rintro s l s' - ih ⟨u, hu, -, hst | hst⟩
    · exact ((instr_frame hst).1 t (by omega)).1.trans ih
    · unfold State.drain at hst
      split at hst
      · cases hst
      · cases hst
        exact (Function.update_of_ne (by omega) _ _).trans ih

/-- **A replay that cannot go on has finished.**  No store is left, or it could drain; and a step of
the other replayer would be one here. -/
theorem Stands.finished {c : Replay.State Addr} (h : Stands nthr s c)
    (hinv : InvAt order w prog m₀ k j c) (hg : Good nthr order w prog m₀) (hn : nthr ≤ 127)
    (hs : (sys nthr log w prog m₀).Reach s) (hstuck : ∀ l s', ¬ (sys nthr log w prog m₀).step s l s')
    (hlog : log = logOf order) :
    (∀ t, s.sbuf t = []) ∧ (∀ t < nthr, s.pc t = .finished) ∧ c = s.at s.mem := by
  have hempty : ∀ t, s.sbuf t = [] := by
    intro t
    rcases Nat.lt_or_ge t nthr with ht | ht
    · cases hb : s.sbuf t with
      | nil => rfl
      | cons st b => exact absurd ⟨t, ht, rfl, Or.inr (by rw [State.drain, hb])⟩ (hstuck (some t) _)
    · exact reach_buf_none hs ht
  obtain ⟨h, hh, rfl⟩ := h
  have hview : ∀ t, s.view t = s.mem := fun t => by rw [State.view, hempty t]; rfl
  refine ⟨hempty, ?_, by rw [hview]⟩
  intro t ht
  by_contra hpc
  rw [hview] at hinv
  subst hlog
  obtain ⟨u, hu, c', hstep⟩ := hinv.progress hg hn ht hpc
  have hthr := step_view (logOf order) w prog s u
  rw [hview, logOf, hstep] at hthr
  cases hst : s.instr (logOf order) w prog u with
  | next s' => exact hstuck (some u) s' ⟨u, hu, rfl, Or.inl hst⟩
  | spin | fail | finished => rw [logOf] at hst; rw [hst] at hthr; cases hthr

end ReplayTso

/-! ## 3. Record, merge, replay on TSO

The counterpart of `Reproduces` with store buffers, with a bound on the length of a run in place of
progress. -/

/-- The replay of `log` with store buffers, along every interleaving of instructions and drains:
what it has done is recorded in `c`, and it comes to the end of `c`. -/
structure ReplaysTso (nthr : Nat) (log : List Int) (w : Option Nat) (prog : Nat → Prog Addr)
    (m₀ : Addr → Val) (c : Config Addr) : Prop where
  /-- `mem_init` finds a log. -/
  starts : 0 < nthr → ∃ s, ReplayTso.memInit m₀ log = some s
  /-- `assert(g_next_thr == g_tid)` does not fail. -/
  asserts : ∀ s, (ReplayTso.sys nthr log w prog m₀).Reach s →
    ∀ t < nthr, s.instr log w prog t ≠ .fail
  /-- The accesses and what they return are the recorded ones. -/
  values : ∀ s, (ReplayTso.sys nthr log w prog m₀).Reach s → ∀ t, s.done t <+: c.done t
  /-- No run goes on for ever, turns of the wait loop apart. -/
  bounded : ∀ ls s, (ReplayTso.sys nthr log w prog m₀).Exec ls s →
    ls.length ≤ 2 * ∑ t ∈ Finset.range nthr, (10 * (c.done t).length + 9)
  /-- When no thread can go on and no store is left to drain, everything recorded is replayed. -/
  final : ∀ s, (ReplayTso.sys nthr log w prog m₀).Reach s →
    (∀ l s', ¬ (ReplayTso.sys nthr log w prog m₀).step s l s') →
      s.mem.val = c.mem ∧ ∀ t < nthr, s.pc t = .finished ∧ s.done t = c.done t

section ReplaysTso

variable {nthr : Nat} {prog : Nat → Prog Addr} {m₀ : Addr → Val} {w : Option Nat}

/-- The replay of any good order of blocks. -/
theorem replaysTso_serial {order : List Nat} (hn : nthr ≤ 127)
    (hg : Replay.Good nthr order w prog m₀) (hne : 0 < nthr → order ≠ []) :
    ReplaysTso nthr (ReplayTso.logOf order) w prog m₀ (serial prog m₀ order) where
  starts hpos := by
    cases order with
    | nil => exact absurd rfl (hne hpos)
    | cons t ts => exact ⟨_, rfl⟩
  asserts s hs t ht := by
    obtain ⟨ls, hx⟩ := hs.exec
    obtain ⟨c, hc, hstands, -⟩ := ReplayTso.exec_stands hg hn hx
    obtain ⟨k, j, hinv⟩ := Replay.reach_invAt hg hn hc
    exact hstands.not_fail hinv hn ht
  values s hs t := by
    obtain ⟨ls, hx⟩ := hs.exec
    obtain ⟨c, hc, hstands, -⟩ := ReplayTso.exec_stands hg hn hx
    obtain ⟨k, j, hinv⟩ := Replay.reach_invAt hg hn hc
    rw [← hstands.done_eq]
    exact (List.prefix_append _ _).trans (hinv.prefix_serial t)
  bounded ls s hx := by
    obtain ⟨-, -, -, hle⟩ := ReplayTso.exec_stands hg hn hx
    exact hle
  final s hs hstuck := by
    obtain ⟨ls, hx⟩ := hs.exec
    obtain ⟨c, hc, hstands, -⟩ := ReplayTso.exec_stands hg hn hx
    obtain ⟨k, j, hinv⟩ := Replay.reach_invAt hg hn hc
    obtain ⟨-, hf, rfl⟩ := hstands.finished hinv hg hn hs hstuck rfl
    have hcfg := hinv.complete hg hf
    refine ⟨by rw [← hcfg]; rfl, fun t ht => ⟨hf t ht, ?_⟩⟩
    rw [← hcfg, Replay.config_done, show (s.at s.mem).pc t = .finished from hf t ht]
    exact (List.append_nil _).symm

/-- The stamps of a complete run merge into a log, and its replay is the run. -/
theorem replaysTso_of_run (P : PQueue Merge.QEnt Merge.QEnt.gt) (hn : nthr ≤ 127)
    {r : Record.State Addr} (hr : (Record.sys nthr prog m₀).Reach r)
    (hf : ∀ t < nthr, Record.Finished prog r t) (hp : ∀ t < nthr, prog t [] ≠ none)
    (hw : ∀ t < nthr, Replay.Fits w (r.cfg.done t).length) :
    ∃ log, Merge.main P nthr (fun t => some (r.log t)) = .ok log ∧
      ReplaysTso nthr log w prog m₀ r.cfg := by
  obtain ⟨hcfg, hlog, hlt, ho⟩ := Record.complete_run hr hf
  have hend : ∀ t < nthr, (serial prog m₀ r.order).next prog t = none := by
    intro t ht
    rw [← hcfg]
    exact (hf t ht).2
  have hne : ∀ t < nthr, Record.stamps r.order t ≠ [] := fun t ht =>
    stamps_ne_nil ho (hend t ht) (hp t ht)
  have hgood : Replay.Good nthr r.order w prog m₀ :=
    ⟨hlt, ho, hend, fun t ht => by rw [← hcfg]; exact hw t ht⟩
  refine ⟨ReplayTso.logOf r.order, ?_, ?_⟩
  · rw [show r.log = Record.stamps r.order from funext hlog]
    exact Merge.main_stamps P hlt hn hne
  · rw [hcfg]
    refine replaysTso_serial hn hgood (fun hpos hnil => hne 0 hpos ?_)
    rw [hnil]
    rfl

/-- **A recorded run is reproduced on TSO**: the stamps of a complete run in which no thread makes
more than `2^31` accesses merge into a log, and every replay of that log with store buffers keeps to
the recorded run, passes its assertion, and ends with all of the run made. -/
theorem commit_replay_tso (P : PQueue Merge.QEnt Merge.QEnt.gt) (hn : nthr ≤ 127)
    {r : Record.State Addr} (hr : (Record.sys nthr prog m₀).Reach r)
    (hf : ∀ t < nthr, Record.Finished prog r t) (hp : ∀ t < nthr, prog t [] ≠ none)
    (hw : ∀ t < nthr, (r.cfg.done t).length ≤ 2 ^ 31) :
    ∃ log, Merge.main P nthr (fun t => some (r.log t)) = .ok log ∧
      ReplaysTso nthr log (some 32) prog m₀ r.cfg :=
  replaysTso_of_run P hn hr hf hp (fun t ht => ⟨hw t ht, by decide⟩)

end ReplaysTso

/-- Eight reads and a write. -/
theorem commit_replay_tso_eight : ∃ (r : Record.State Unit) (log : List Int),
    (Record.sys 2 (readsAndWrite 8) (fun _ => 0)).Reach r ∧ r.order = [0, 1, 0] ∧
      Merge.main (listQueue _ Merge.qent_comparison) 2 (fun t => some (r.log t)) = .ok log ∧
      ReplaysTso 2 log (some 32) (readsAndWrite 8) (fun _ => 0) r.cfg := by
  obtain ⟨r, hr, hf, hord⟩ := exists_readsAndWrite 1
  have hcfg := (Record.complete_run hr hf).1
  obtain ⟨log, hlog, hreplays⟩ := commit_replay_tso (listQueue _ Merge.qent_comparison) (by decide)
    hr hf (by decide) (by
      intro t ht
      rw [hcfg, (counted_readsAndWrite _).length_serial]
      match t, ht with
      | 0, _ => exact Nat.le_trans (Nat.min_le_left _ _) (by decide)
      | 1, _ => exact Nat.le_trans (Nat.min_le_left _ _) (by decide))
  exact ⟨r, log, hr, hord, hlog, hreplays⟩

end MemOrder.Commit
