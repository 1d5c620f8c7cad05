/-
# The replay on TSO ends

A replaying thread waits in loops, and its stores drain whenever they like; nothing in the code says
that a replay comes to an end.  It does: apart from the turns of the wait loops, a run has at most a
number of steps that the recorded run and its logs determine.

Every place of the code has a potential, and the potential of a thread counts its recorded accesses
that are not over.  The one way back in the code is from the wait for a reader to the mutex, and
that one has been paid for by the cursor, which only ever moves forward over a log of known length.
On TSO a step of the replayer is three units: the load before it, the step, and the drain of its
store.

A run that cannot go on has finished: with all buffers empty the two replayers are in the same
state, and there the thread of the FIRST recorded access that is not over can step.
-/
import MemOrder.ReplayTso.Faithful

namespace MemOrder.Replay

open Trace Finset

variable {Addr : Type} [DecidableEq Addr] {L : Layout Addr} {nthr : Nat} {prog : Nat → Prog Addr}
  {m₀ : Addr → Val} {R : Run L nthr prog m₀} {logs : Nat → List ReplayWaitMemop}
  {s s' : State Addr} {t : Nat}

/-! ## 1. The potential of a replay

For the sequentially consistent replayer.  The places of the code are numbered from behind.
Inside of an access only `WPc.advance` goes to a place with a higher number, and it moves a cursor. -/

/-- How many steps a writer has before it at most, up to the next move of a cursor. -/
def WPc.potential : WPc → Nat
  | .unlock (some _) => 8
  | .waitMemop _ => 7
  | .trylock => 6
  | .checkSize => 5
  | .search => 4
  | .advance _ => 3
  | .unlock none => 3
  | .store => 2
  | .incVersion => 1

def Pc.potential : Pc Addr → Nat
  | .start => 9
  | .waitVersion _ => 8
  | .checkVersion _ => 7
  | .load _ => 1
  | .write _ _ w => w.potential
  | .incMemop => 0

/-- The potential of a thread with `len` recorded accesses. -/
def Thr.potential (th : Thr Addr) (len : Nat) : Nat := 10 * (len - th.memop) + th.pc.potential

/-- The potential of the threads, and of the reader logs that are not used up. -/
def potential (R : Run L nthr prog m₀) (logs : Nat → List ReplayWaitMemop) (s : State Addr) : Nat :=
  ∑ t ∈ range nthr, (s.thr t).potential (thread t R.trace).length +
    6 * ∑ o ∈ range L.nobj, ((logs o).length - (s.readerLog o).n)

omit [DecidableEq Addr] in
/-- What follows `wait_object_version` is nearer to the end. -/
theorem potential_afterWait (acc : Acc Addr) : (afterWait acc).potential ≤ 6 := by
  cases acc <;> simp [afterWait, Pc.potential, WPc.potential]

omit [DecidableEq Addr] in
/-- A move inside of an access goes on. -/
theorem Move.potential_lt {p q : Pc Addr} (h : Move L prog s t p q) : q.potential < p.potential := by
  cases h with
  | @fetch acc _ _ =>
    exact Nat.lt_of_le_of_lt (potential_afterWait acc) (by simp [Pc.potential])
  | _ => simp [Pc.potential, WPc.potential]

/-- A step that leaves the cursors alone lowers the potential of its thread. -/
theorem Step.thr_potential_lt (hst : Step L prog s t s') (h : Inv R logs s)
    (hadv : ∀ a v ent, (s.thr t).pc ≠ .write a v (.advance ent)) :
    (s'.thr t).potential (thread t R.trace).length < (s.thr t).potential (thread t R.trace).length := by
  unfold Thr.potential
  cases hst with
  | move hm => simpa using hm.potential_lt
  | @checked acc th hpc hth =>
    simp only [setThr_self, (nextWaitVersionLog_same hth).1, hpc]
    exact Nat.add_lt_add_left (Nat.lt_of_le_of_lt (potential_afterWait acc) (by simp [Pc.potential])) _
  | incMemop hpc =>
    -- the access that is over was one of the recorded ones
    have hle := (h.thr t).made_le
    simp only [Thr.made, hpc] at hle
    simp only [setThr_self, hpc, Pc.potential]
    omega
  | advance hpc => exact absurd hpc (hadv _ _ _)
  | load hpc => simp [hpc, Pc.potential]
  | lock hpc => simp [hpc, Pc.potential, WPc.potential]
  | unlockNone hpc => simp [hpc, Pc.potential, WPc.potential]
  | unlockSome hpc => simp [hpc, Pc.potential, WPc.potential]
  | store hpc => simp [hpc, Pc.potential, WPc.potential]
  | incVersion hpc => simp [hpc, Pc.potential, WPc.potential]

/-- **Every step lowers the potential.**  Six units pay for the way from the move of a cursor back
to the mutex. -/
theorem Inv.potential_lt (h : Inv R logs s) (ht : t < nthr) (hstep : step L prog s t = .next s') :
    potential R logs s' < potential R logs s := by
  have hst := step_cases hstep
  obtain ⟨r, hs', hs⟩ := Trans.sum_except (f := fun u => (s'.thr u).potential (thread u R.trace).length)
    (g := fun u => (s.thr u).potential (thread u R.trace).length) ht
    (fun u hu => by rw [step_thr_ne hst hu])
  unfold potential
  rw [hs', hs]
  by_cases hadv : ∃ a v ent, (s.thr t).pc = .write a v (.advance ent)
  · -- the cursor of the object moves, and there is an entry it moves over
    obtain ⟨a, v, ent, hpc⟩ := hadv
    obtain ⟨e, -, -, ha, -, -, hw⟩ := h.writer hpc
    simp only [WInv, Layout.obj, ha, h.cursor.log_eq] at hw
    have hlt := (List.getElem?_eq_some_iff.mp hw.1).1
    simp only [step, hpc, stepWrite, Outcome.next.injEq] at hstep
    obtain ⟨q, hn', hn⟩ := Trans.sum_except (f := fun o => (logs o).length - (s'.readerLog o).n)
      (g := fun o => (logs o).length - (s.readerLog o).n) (L.calcObjid_lt a)
      (fun o ho => by rw [← hstep, setPc_readerLog, setLog_ne _ _ ho])
    rw [hn', hn]
    have hn1 : (s'.readerLog (L.calcObjid a)).n = (s.readerLog (L.calcObjid a)).n + 1 := by
      simp [← hstep]
    have hthr : (s'.thr t).potential (thread t R.trace).length
        = (s.thr t).potential (thread t R.trace).length + 5 := by
      simp [← hstep, Thr.potential, hpc, Pc.potential, WPc.potential]
    rw [hn1, hthr]
    omega
  · have hn : ∀ o, (s'.readerLog o).n = (s.readerLog o).n := by
      intro o
      rcases (step_readerLog hst o).2.2 with hn | ⟨a, v, ent, hpc, -⟩
      · exact hn
      · exact absurd ⟨a, v, ent, hpc⟩ hadv
    have hlt := hst.thr_potential_lt h (fun a v ent hpc => hadv ⟨a, v, ent, hpc⟩)
    simp only [hn]
    omega

/-- What the potential is at the start. -/
def bound (R : Run L nthr prog m₀) (logs : Nat → List ReplayWaitMemop) : Nat :=
  ∑ t ∈ range nthr, (10 * (thread t R.trace).length + 9) + 6 * ∑ o ∈ range L.nobj, (logs o).length

/-- The potential at the start is the bound. -/
theorem Initial.potential_eq (h : Initial L m₀ R.trace logs s) :
    potential R logs s = bound R logs := by
  obtain ⟨-, -, hlog, hthr⟩ := h
  have hstart : ∀ t, (s.thr t).memop = 0 ∧ (s.thr t).pc = .start := fun t =>
    ⟨(nextWaitVersionLog_same (hthr t)).1, (nextWaitVersionLog_same (hthr t)).2.2⟩
  unfold potential bound
  congr 1
  · exact sum_congr rfl (fun t _ => by simp [Thr.potential, hstart t, Pc.potential])
  · simp [hlog, ReaderLog.loaded]

/-- The thread of the first access that is not over can step. -/
theorem Inv.exists_step (h : Inv R logs s) (hM : Merged L nthr R.trace logs)
    (hun : ∃ t < nthr, ¬ Finished prog s t) : ∃ t < nthr, ∃ s', step L prog s t = .next s' := by
  obtain ⟨t, ht, hf⟩ := hun
  obtain ⟨pre, e, post, heq, he, hpre⟩ := exists_first (h.exists_uncompleted ht hf)
  have hmem : e ∈ R.trace := by simp [heq]
  have hover : ∀ x, Before R.trace x e → x.memop < (s.thr x.tid).memop :=
    fun x hx => Nat.lt_of_not_le (hpre x (hx.mem_of_split R.legal.nodup heq))
  exact ⟨e.tid, R.tid_lt e hmem, h.first_steps hM hmem he hover⟩

end MemOrder.Replay

namespace MemOrder.ReplayTso

open Finset
open Commit (Made)

variable {Addr : Type} [DecidableEq Addr] {L : Layout Addr} {nthr : Nat} {prog : Nat → Prog Addr}
  {m₀ : Addr → Val} {R : Run L nthr prog m₀} {logs : Nat → List ReplayWaitMemop}
  {s s' : State Addr} {c c' : Replay.State Addr} {t u : Nat}

/-! ## 2. The potential on TSO

An instruction is a step of the other replayer or the load before one, and a store waits to drain.
Both are counted beside three times the potential of the state that is stood for. -/

/-- The loads to come that are no step of the other replayer, and the stores to drain. -/
def State.extra (s : State Addr) (t : Nat) : Nat := (s.thr t).pc.fetches + (s.buf t).length

/-- The potential of a state that stands for `c`. -/
def potential (R : Run L nthr prog m₀) (logs : Nat → List ReplayWaitMemop) (s : State Addr)
    (c : Replay.State Addr) : Nat :=
  3 * Replay.potential R logs c + ∑ t ∈ range nthr, s.extra t

omit [DecidableEq Addr] in
/-- At most one load comes before a step. -/
theorem fetches_le (p : Pc Addr) : p.fetches ≤ 1 := by
  unfold Pc.fetches
  split <;> decide

/-- An instruction moves its own thread and adds at most one store. -/
theorem instr_frame (h : s.instr L prog logs t = .next s') :
    (∀ u, u ≠ t → s'.thr u = s.thr u ∧ s'.buf u = s.buf u) ∧
      (s'.buf t).length ≤ (s.buf t).length + 1 := by
  simp only [State.instr] at h
  split at h
  · cases h
  · split at h
    · cases h
    · rename_i i _ _ m b th htso
      cases h
      refine ⟨fun u hu => ⟨Function.update_of_ne hu _ _, Function.update_of_ne hu _ _⟩, ?_⟩
      simp only [Function.update_self]
      rcases Tso.Instr.tso_cases htso with ⟨k, -, -, rfl, -⟩ | ⟨st, -, -, rfl⟩ |
        ⟨st, k, -, -, -, rfl, -⟩ | ⟨-, -, -, rfl⟩ <;> simp
    · cases h
    · cases h

/-- **An instruction lowers the potential.** -/
theorem Rel.instr_potential (h : Rel R s c) (hinv : Replay.Inv R logs c) (ht : t < nthr)
    (hst : s.instr L prog logs t = .next s') :
    ∃ c', (c' = c ∨ Replay.step L prog c t = .next c') ∧ Rel R s' c' ∧
      potential R logs s' c' < potential R logs s c := by
  have hans := h.answers hinv ht
  rw [hst] at hans
  obtain ⟨c', hc', hrel⟩ := hans
  obtain ⟨hframe, hbuf⟩ := instr_frame hst
  obtain ⟨r, hs', hs⟩ := Trans.sum_except (f := s'.extra) (g := s.extra) ht
    (fun u hu => by rw [State.extra, State.extra, (hframe u hu).1, (hframe u hu).2])
  unfold potential
  rcases hc' with ⟨rfl, hfetch, hsame⟩ | hstep
  · refine ⟨c', Or.inl rfl, hrel, ?_⟩
    rw [hs', hs, State.extra, State.extra, hsame]
    omega
  · refine ⟨c', Or.inr hstep, hrel, ?_⟩
    have hlt := hinv.potential_lt ht hstep
    have h1 := fetches_le (s'.thr t).pc
    rw [hs', hs, State.extra, State.extra]
    omega

/-- A drain lowers it. -/
theorem drain_potential {st : Store Addr} {b : List (Store Addr)} (ht : t < nthr)
    (hb : s.buf t = st :: b) :
    potential R logs (s.drained t st b) c < potential R logs s c := by
  obtain ⟨r, hs', hs⟩ := Trans.sum_except (f := (s.drained t st b).extra) (g := s.extra) ht (by
    intro u hu
    simp [State.extra, State.drained, Function.update_of_ne hu])
  unfold potential
  rw [hs', hs]
  simp only [State.extra, State.drained, Function.update_self, hb, List.length_cons]
  omega

/-- At the start nothing is loaded and nothing waits to drain. -/
theorem Rel.potential_initial (h : Rel R s c) (hs : Initial m₀ (versionLogs L R.trace) s)
    (hc : Replay.Initial L m₀ R.trace logs c) :
    potential R logs s c = 3 * Replay.bound R logs := by
  have hextra : ∀ t, s.extra t = 0 := by
    intro t
    have hpc := (h.thr t).thr.start_of (Replay.nextWaitVersionLog_same (hc.2.2.2 t)).2.2
    simp [State.extra, hpc, Pc.fetches, hs.2.1]
  unfold potential
  simp [hextra, hc.potential_eq]

/-! ## 3. A run that cannot go on

If a store waits it can drain; so a stuck state has empty buffers, and then it is the other
replayer's. -/

/-- A store can always drain. -/
theorem exists_drain (h : s.buf t ≠ []) : ∃ s', s.drain t = some s' := by
  obtain ⟨st, b, hb⟩ := List.exists_cons_of_ne_nil h
  exact ⟨_, by simp only [State.drain, hb]; rfl⟩

/-- With nothing to drain, the thread that could step in `c` has an instruction. -/
theorem Rel.exists_instr (h : Rel R s c) (hinv : Replay.Inv R logs c)
    (hM : Replay.Merged L nthr R.trace logs) (hempty : ∀ u, s.buf u = [])
    (hun : ∃ t < nthr, ¬ Finished prog s t) :
    ∃ t < nthr, ∃ s', s.instr L prog logs t = .next s' := by
  have hun' : ∃ t < nthr, ¬ Replay.Finished prog c t := by
    obtain ⟨t, ht, hf⟩ := hun
    refine ⟨t, ht, fun hfin => hf ⟨(h.thr t).thr.start_of hfin.1, ?_⟩⟩
    rw [results_eq (h.thr t).thr]
    exact hfin.2
  obtain ⟨t, ht, c', hc'⟩ := hinv.exists_step hM hun'
  refine ⟨t, ht, ?_⟩
  have hans := h.answers hinv ht
  cases hi : s.instr L prog logs t with
  | next s' => exact ⟨s', rfl⟩
  | spin =>
    rw [hi] at hans
    rw [hans hempty] at hc'
    cases hc'
  | undrained =>
    rw [hi] at hans
    exact absurd (hempty t) hans
  | finished =>
    rw [hi] at hans
    have hfin := h.finished hans
    simp [Replay.step, hfin.1, hfin.2] at hc'
  | fail f =>
    rw [hi] at hans
    exact absurd hans (hinv.step_ne_fail t f)

/-- The length of a run: each step lowers the potential, along with the run of the other replayer
that it stands for. -/
theorem exec_length_le (hM : Replay.Merged L nthr R.trace logs) {ls : List Nat}
    (hx : (sys L nthr prog m₀ (versionLogs L R.trace) logs).Exec ls s) :
    ls.length ≤ 3 * Replay.bound R logs := by
  have h0 : ∀ s, (sys L nthr prog m₀ (versionLogs L R.trace) logs).init s →
      ∃ c, (Replay.sys L nthr prog m₀ R.trace logs).init c ∧ Rel R s c ∧
        potential R logs s c ≤ 3 * Replay.bound R logs := by
    intro s hs
    obtain ⟨c, hc, hrel⟩ := Initial.rel R hs
    exact ⟨c, hc, hrel, Nat.le_of_eq (hrel.potential_initial hs hc)⟩
  obtain ⟨c, -, -, hle⟩ := Trans.Sys.exec_length_le h0 (by
    rintro s l s' c - hc hrel ⟨t, ht, -, hst | hst⟩
    · obtain ⟨c', hc', hrel', hlt⟩ := hrel.instr_potential (Replay.reach_inv hM hc) ht hst
      exact ⟨c', hc'.imp_right (fun hstep => ⟨some t, t, ht, rfl, hstep⟩), hrel', hlt⟩
    · obtain ⟨st, b, hb, rfl⟩ := drain_cases hst
      exact ⟨c, Or.inl rfl, hrel.drain hb, drain_potential ht hb⟩) hx
  omega

/-- The end of a run. -/
theorem finished_of_stuck (hM : Replay.Merged L nthr R.trace logs)
    (hr : (sys L nthr prog m₀ (versionLogs L R.trace) logs).Reach s)
    (hstuck : ∀ l s', ¬ (sys L nthr prog m₀ (versionLogs L R.trace) logs).step s l s') :
    ∀ t < nthr, Finished prog s t ∧ s.buf t = [] := by
  have hbuf : ∀ t < nthr, s.buf t = [] := by
    intro t ht
    by_contra hne
    obtain ⟨s', hs'⟩ := exists_drain hne
    exact hstuck _ s' ⟨t, ht, rfl, Or.inr hs'⟩
  have hempty : ∀ u, s.buf u = [] := by
    intro u
    by_cases hu : u < nthr
    · exact hbuf u hu
    · exact buf_eq_nil_of_le hr (by omega)
  intro t ht
  refine ⟨?_, hbuf t ht⟩
  by_contra hf
  obtain ⟨c, hc, hrel⟩ := reach_rel hM hr
  obtain ⟨u, hu, s', hs'⟩ := hrel.exists_instr (Replay.reach_inv hM hc) hM hempty ⟨t, ht, hf⟩
  exact hstuck _ s' ⟨u, hu, rfl, Or.inl hs'⟩

/-- **The replay on TSO ends, and ends finished.**  A run of the replayer with store buffers has at
most as many steps -- instructions other than turns of a wait loop, and drains -- as the recorded run
and its logs allow; and a run that cannot go on is one in which every thread has finished its program
and every store has drained. -/
theorem tso_replay_total (R : Run L nthr prog m₀) (hM : Replay.Merged L nthr R.trace logs)
    {ls : List Nat} (hx : (sys L nthr prog m₀ (versionLogs L R.trace) logs).Exec ls s) :
    ls.length ≤ 3 * Replay.bound R logs ∧
      ((∀ l s', ¬ (sys L nthr prog m₀ (versionLogs L R.trace) logs).step s l s') →
        ∀ t < nthr, Finished prog s t ∧ s.buf t = []) :=
  ⟨exec_length_le hM hx, finished_of_stuck hM hx.reach⟩

/-- At the end of the example no thread has a step. -/
theorem demo_stuck (l : Option Nat) (s' : State Nat) : ¬ (sys Replay.demoLayout 2 Replay.demoProg
    (fun _ => 0) (versionLogs Replay.demoLayout Replay.demoTrace) Replay.demoLogs).step demoEnd l s' := by
  rintro ⟨t, ht, -, hst | hst⟩
  · match t, ht with
    | 0, _ => cases hst
    | 1, _ => cases hst
  · match t, ht with
    | 0, _ => cases hst
    | 1, _ => cases hst

/-- The example, which meets the bound and is finished. -/
theorem tso_replay_total_demo :
    demoSched.length ≤ 3 * Replay.bound Replay.demoRun Replay.demoLogs ∧
      ∀ t < 2, Finished Replay.demoProg demoEnd t ∧ demoEnd.buf t = [] :=
  have h := tso_replay_total Replay.demoRun Replay.demo_merged demo_exec
  ⟨by simpa using h.1, h.2 demo_stuck⟩

end MemOrder.ReplayTso
