/-
# The replay is the recorded run

The three results about `mem-replay.c`, each over every interleaving of the replaying threads on
the logs of any recorded run:

* `replay_faithful`: the accesses made so far are a prefix of the recorded ones, thread by
  thread -- same object, same version, same value -- and at the end memory is the recorded one;
* `replay_deadlock_free`: while a thread has work left, some thread has a step that is not one
  more turn of a wait loop.  The argument is the recorded order: the FIRST recorded access that
  is not over belongs to a thread whose waits are all satisfied;
* `replay_checks`: the run-time checks cannot fire, and the cursor of a reader log is where the
  object's version says.
-/
import MemOrder.Replay.Preserve

namespace MemOrder.Replay

open Trace

variable {Addr : Type} [DecidableEq Addr] {L : Layout Addr} {nthr : Nat}
  {prog : Nat → Prog Addr} {m₀ : Addr → Val} {R : Run L nthr prog m₀}
  {logs : Nat → List ReplayWaitMemop} {s s' : State Addr} {t u : Nat}

/-! ## 1. No check fails

Each check is made at one place of the code, and there the invariant says what makes it pass. -/

/-- At its check a thread has the entry for its current access buffered, and one after it. -/
theorem Inv.nextWaitVersionLog_ne_none (h : Inv R logs s) {acc : Acc Addr}
    (hpc : (s.thr t).pc = .checkVersion acc) : (s.thr t).nextWaitVersionLog ≠ none := by
  have hp := (h.thr t).pc
  simp only [PcInv, hpc] at hp
  obtain ⟨e, hc, -, hwv, -⟩ := hp
  have hbuf := (h.thr t).buffered
  simp only [Thr.consumed, hpc] at hbuf
  obtain ⟨-, hlog⟩ := (buffered_cur hbuf hc).1 (by rw [hwv])
  have hlt := (List.getElem?_eq_some_iff.mp hc).1
  obtain ⟨th, hth, -⟩ := nextWaitVersionLog_buffered hlog (fun w hw => by
    have := memop_le_of_mem_needed (by omega) hw
    omega)
  rw [hth]
  exact Option.some_ne_none th

/-- **No run-time check fails in a state with the invariant.**  The mutex is free, since a holder
would be a second thread with a write at the object's version; the cursor is inside the log, and the
entry there is not behind the version; and the version of the object is the one the thread has
waited for, since nobody raises it before this access is over. -/
theorem Inv.step_ne_fail (h : Inv R logs s) (t : Nat) (f : Failure) :
    step L prog s t ≠ .fail f := by
  intro hf
  cases step_fails hf with
  | locked hpc hm =>
    -- the holder of the mutex would be a second writer of the version
    obtain ⟨u, b, v', w', hu, hob, hl⟩ := h.mutex _ hm
    obtain rfl := h.writer_unique hu hpc hob
    rw [hpc] at hu
    cases hu
    exact hl
  | @noEntry a v hpc hnone =>
    obtain ⟨e, -, -, ha, -, -, hw⟩ := h.writer hpc
    have ho : L.obj e = L.calcObjid a := by rw [Layout.obj, ha]
    simp only [WInv, ho] at hw
    rw [List.getElem?_eq_getElem hw] at hnone
    cases hnone
  | passedBy hpc hent hgt =>
    refine hgt (h.cursor.above _ _ _ ?_ (Nat.le_refl _))
    rw [← h.cursor.log_eq]
    exact hent
  | otherVersion hpc hne =>
    have hp := (h.thr t).pc
    simp only [PcInv, hpc] at hp
    obtain ⟨e, -, rfl, hwv, hver⟩ := hp
    refine hne ?_
    rw [calcObjid_acc, hver, hwv]
  | noVersion hpc hnone => exact h.nextWaitVersionLog_ne_none hpc hnone

/-! ## 2. Finished threads

A finished thread has come to the end of its recorded accesses: its program makes no more calls, and
it made the recorded ones. -/

/-- A finished thread has made all its recorded accesses. -/
theorem Inv.memop_of_finished (h : Inv R logs s) (hf : Finished prog s t) :
    (s.thr t).memop = (thread t R.trace).length := by
  have hm : (s.thr t).made = (s.thr t).memop := by simp [Thr.made, hf.1]
  have hle := (h.thr t).made_le
  have hd := (h.thr t).done_eq
  rw [hm] at hle hd
  rcases Nat.eq_or_lt_of_le hle with heq | hlt
  · exact heq
  · have := R.next_acc (List.getElem?_eq_getElem hlt)
    rw [← hd, hf.2] at this
    cases this

/-- What it has done is what was recorded. -/
theorem Inv.done_of_finished (h : Inv R logs s) (hf : Finished prog s t) :
    (s.thr t).done = thread t R.trace := by
  have hm : (s.thr t).made = (s.thr t).memop := by simp [Thr.made, hf.1]
  rw [(h.thr t).done_eq, hm, h.memop_of_finished hf, List.take_length]

/-- A thread with a recorded access left has not finished. -/
theorem Inv.exists_uncompleted (h : Inv R logs s) (ht : t < nthr) (hf : ¬ Finished prog s t) :
    ∃ e ∈ R.trace, (s.thr e.tid).memop ≤ e.memop := by
  have hle := (h.thr t).made_le
  have hmem : (s.thr t).memop < (thread t R.trace).length := by
    by_contra hge
    have hm : (s.thr t).made = (s.thr t).memop := by
      have := Thr.memop_le_made (s.thr t)
      omega
    have hpc : (s.thr t).pc = .start := by
      have hp := (h.thr t).pc
      unfold PcInv at hp
      unfold Thr.made at hm
      split at hp
      · assumption
      all_goals first
        | (obtain ⟨e, hc, -⟩ := hp; exact absurd (List.getElem?_eq_some_iff.mp hc).1 hge)
        | (rename_i hi; rw [hi] at hm; simp at hm)
    refine hf ⟨hpc, ?_⟩
    rw [(h.thr t).done_eq, hm, List.take_of_length_le (by omega)]
    exact R.complete t ht
  obtain ⟨he, htid, hm⟩ := R.legal.memop_of_getElem? (List.getElem?_eq_getElem hmem)
  exact ⟨_, he, Nat.le_of_eq (by rw [htid, hm])⟩

/-- Once every recorded access is over the objects are at their recorded final versions. -/
theorem Inv.objVersion_final (h : Inv R logs s)
    (hall : ∀ e ∈ R.trace, e.memop < (s.thr e.tid).passed) (o : Nat) :
    (Shared.after L m₀ R.trace).ver o ≤ s.objVersion o := by
  by_contra hlt
  obtain ⟨w, hw, hW, ho, hv⟩ := R.legal.exists_write_of_lt_after (o := o) (h.ver.nonneg o)
    (h.ver.even o) (by omega)
  have := h.ver.reached w hw (hall w hw)
  rw [if_pos hW, ho, hv] at this
  omega

/-! ## 3. Interleavings, executed

A run of two threads in which both wait loops are met. -/

/-- The state `mem_init` and `mem_init_thr` leave. -/
def initState (L : Layout Addr) (m₀ : Addr → Val) (tr : List (Event Addr))
    (logs : Nat → List ReplayWaitMemop) : State Addr where
  mem := m₀
  objVersion _ := 0
  readerLog o := ReaderLog.loaded (logs o)
  thr t := ((memInitThr (recordThr L (thread t tr)).waitVersion).getD ⟨.start, 0, ⟨0, 0⟩, [], []⟩)

omit [DecidableEq Addr] in
/-- A finished thread's version log has its end marker, so `mem_init_thr` finds an entry. -/
theorem initial_initState (L : Layout Addr) (m₀ : Addr → Val) (tr : List (Event Addr))
    (logs : Nat → List ReplayWaitMemop) : Initial L m₀ tr logs (initState L m₀ tr logs) := by
  refine ⟨rfl, rfl, rfl, ?_⟩
  intro t
  have hne : (recordThr L (thread t tr)).waitVersion ≠ [] := by
    rw [recordThr_waitVersion]
    simp
  have hsome : ∀ log : List WaitVersion, log ≠ [] →
      (memInitThr log : Option (Thr Addr)).isSome := by
    intro log hlog
    cases log with
    | nil => exact absurd rfl hlog
    | cons w ws =>
      simp only [memInitThr, Thr.nextWaitVersionLog, Replay.nextWaitVersionLog]
      split <;> rfl
  obtain ⟨th, hth⟩ := Option.isSome_iff_exists.mp (hsome _ hne)
  simp [initState, hth]

/-- A step of thread `t`, with its label. -/
def act (L : Layout Addr) (prog : Nat → Prog Addr) (s : State Addr) (t : Nat) :
    Option (Option Nat × State Addr) :=
  match step L prog s t with
  | .next s' => some (some t, s')
  | _ => none

/-- What is executed is a step. -/
theorem step_act {tr : List (Event Addr)} {l : Option Nat} (hlt : t < nthr)
    (h : act L prog s t = some (l, s')) : (sys L nthr prog m₀ tr logs).step s l s' := by
  unfold act at h
  split at h
  · rename_i s₁ hst
    cases h
    exact ⟨t, hlt, rfl, hst⟩
  · cases h

/-- Two objects, the even and the odd addresses. -/
def demoLayout : Layout Nat := ⟨2, fun a => a % 2, fun _ => Nat.mod_lt _ (by decide)⟩

/-- Thread 0 writes address 0 once; thread 1 reads it twice. -/
def demoProg : Nat → Prog Nat
  | 0 => fun rs => if rs.length = 0 then some (.write 0 5) else none
  | 1 => fun rs => if rs.length < 2 then some (.read 0) else none
  | _ => fun _ => none

/-- The recorded order: a read at version 0, the write, a read at version 2. -/
def demoTrace : List (Event Nat) :=
  [⟨1, 0, .R, 0, 0, 0⟩, ⟨0, 0, .W, 0, 0, 5⟩, ⟨1, 1, .R, 0, 2, 5⟩]

theorem demo_legal : Legal demoLayout (fun _ => 0) demoTrace :=
  .snoc (.snoc (.snoc .nil ⟨rfl, rfl, fun _ => rfl⟩) ⟨rfl, rfl, fun h => by cases h⟩)
    ⟨rfl, rfl, fun _ => rfl⟩

def demoRun : Run demoLayout 2 demoProg (fun _ => 0) where
  trace := demoTrace
  legal := demo_legal
  tid_lt := by decide
  follows pre e post h := by
    match pre with
    | [] => cases h; rfl
    | [_] => cases h; rfl
    | [_, _] => cases h; rfl
    | _ :: _ :: _ :: pre => simp [demoTrace] at h
  complete := by decide

/-- The merged logs: one entry for each of thread 1's reads, in version order. -/
def demoLogs (o : Nat) : List ReplayWaitMemop := if o = 0 then [⟨0, 0, 1⟩, ⟨2, 1, 1⟩] else []

theorem demo_merged : Merged demoLayout 2 demoTrace demoLogs where
  perm o := by
    by_cases ho : o = 0
    · subst ho; decide
    · have hne : ¬ ((0 : Int) = (o : Int)) := by omega
      have hne' : ¬ ((-1 : Int) = (o : Int)) := by omega
      have hempty : objEntries demoLayout 2 demoTrace o = [] := by
        simp only [objEntries, List.flatMap_eq_nil_iff, List.map_eq_nil_iff,
          List.filter_eq_nil_iff]
        intro t ht w hw
        have hall : ∀ t < 2, ∀ w ∈ (recordThr demoLayout (thread t demoTrace)).waitMemop,
            w.objid = 0 ∨ w.objid = -1 := by decide
        rcases hall t (List.mem_range.mp ht) w hw with h | h <;> simp [h, hne, hne']
      simp [demoLogs, ho, hempty]
  sorted o := by
    by_cases ho : o = 0
    · subst ho; decide
    · simp [demoLogs, ho]

/-- The writer goes first and is held back in `wait_reader` until the reader is through its first
access; the reader then waits for version 2. -/
def demoSched : List Nat :=
  [0, 0, 0, 0, 0, 0, 1, 1, 1, 0, 0, 0, 0, 0, 0, 0, 0, 1, 1, 1, 1, 1]

def demoInit : State Nat := initState demoLayout (fun _ => 0) demoTrace demoLogs

/-- The state after the first `n` steps. -/
def demoAfter (n : Nat) : State Nat :=
  ((Trans.runSched (act demoLayout demoProg) (demoSched.take n) demoInit).map Prod.snd).getD demoInit

/-- The state that interleaving ends in. -/
def demoEnd : State Nat := demoAfter demoSched.length

theorem demo_reach_after (n : Nat)
    (hsome : (Trans.runSched (act demoLayout demoProg) (demoSched.take n) demoInit).isSome = true) :
    (sys demoLayout 2 demoProg (fun _ => 0) demoRun.trace demoLogs).Reach (demoAfter n) := by
  have hlt : ∀ t ∈ demoSched, t < 2 := by decide
  exact Trans.Sys.reach_end (fun t ht _ _ _ h => step_act (hlt t (List.mem_of_mem_take ht)) h)
    (initial_initState ..) hsome

theorem demo_reach :
    (sys demoLayout 2 demoProg (fun _ => 0) demoRun.trace demoLogs).Reach demoEnd :=
  demo_reach_after _ (by decide)

/-- Both threads are at their end there. -/
theorem demo_finished : ∀ t < 2, Finished demoProg demoEnd t := by
  intro t ht
  match t, ht with
  | 0, _ => exact ⟨rfl, rfl⟩
  | 1, _ => exact ⟨rfl, rfl⟩

/-! ## 4. Fidelity

Thread by thread this is the invariant.  At the end all recorded accesses are over, so the versions
are the final ones, and memory at these is the final memory. -/

/-- **Replay fidelity.**  In every state of every interleaving of the replaying threads, the
accesses a thread has made are a prefix of its recorded accesses (number, object, version,
value); when all threads have finished they are all of them, and memory is the recorded final
memory. -/
theorem replay_faithful (R : Run L nthr prog m₀) (hM : Merged L nthr R.trace logs)
    (hr : (sys L nthr prog m₀ R.trace logs).Reach s) :
    (∀ t < nthr, (s.thr t).done <+: thread t R.trace) ∧
      ((∀ t < nthr, Finished prog s t) →
        (∀ t < nthr, (s.thr t).done = thread t R.trace) ∧ s.mem = R.finalMem) := by
  have h := reach_inv hM hr
  refine ⟨?_, fun hf => ⟨fun t ht => h.done_of_finished (hf t ht), ?_⟩⟩
  · intro t _
    rw [(h.thr t).done_eq]
    exact List.take_prefix _ _
  · have hall : ∀ e ∈ R.trace, e.memop < (s.thr e.tid).passed := by
      intro e he
      have hlt : e.memop < (thread e.tid R.trace).length :=
        (List.getElem?_eq_some_iff.mp (R.legal.thread_getElem? he)).1
      rw [← h.memop_of_finished (hf e.tid (R.tid_lt e he))] at hlt
      exact Nat.lt_of_lt_of_le hlt (Thr.memop_le_passed _)
    funext a
    rw [Run.finalMem, ← R.legal.valAt_after a (h.objVersion_final hall _)]
    refine h.mem.current a ?_
    intro t v hpc
    obtain ⟨e, hc, -⟩ := h.writer hpc
    have := hf t (by rw [← hc.mem.2.1]; exact R.tid_lt e hc.mem.1)
    have hstart := this.1
    rw [hpc] at hstart
    cases hstart

/-- Fidelity at the end of that interleaving. -/
theorem replay_faithful_demo :
    (∀ t < 2, (demoEnd.thr t).done = thread t demoTrace) ∧ demoEnd.mem = demoRun.finalMem :=
  (replay_faithful demoRun demo_merged demo_reach).2 demo_finished

/-! ## 5. Progress

All waiting is for accesses that are EARLIER in the recorded order: for the version of an access the
writes before it, for a reader an access at a version that the waiting write is about to end.  So
the first access that is not over waits for nothing. -/

/-- The thread of the first recorded access that is not over can step: the writers of the
versions it waits for, and the readers it waits for, come before it in the recorded order. -/
theorem Inv.first_steps (h : Inv R logs s) (hM : Merged L nthr R.trace logs) {e : Event Addr}
    (hmem : e ∈ R.trace) (he : (s.thr e.tid).memop ≤ e.memop)
    (hpre : ∀ x, Before R.trace x e → x.memop < (s.thr x.tid).memop) :
    ∃ s', step L prog s e.tid = .next s' := by
  -- `e` is the access its thread is at
  have hm : (s.thr e.tid).memop = e.memop := by
    by_contra hne
    have hlt : (s.thr e.tid).memop < (thread e.tid R.trace).length := by
      have := (List.getElem?_eq_some_iff.mp (R.legal.thread_getElem? hmem)).1
      omega
    obtain ⟨hx, htid, hxm⟩ := R.legal.memop_of_getElem? (List.getElem?_eq_getElem hlt)
    have := hpre _ (R.legal.before_of_memop_lt hx hmem htid (by omega))
    rw [htid] at this
    omega
  have hc : Cur R s e.tid e := by
    rw [Cur, hm]
    exact R.legal.thread_getElem? hmem
  cases hst : step L prog s e.tid with
  | next s' => exact ⟨s', rfl⟩
  | fail f => exact absurd hst (h.step_ne_fail _ _)
  | finished =>
    have hlt := (List.getElem?_eq_some_iff.mp (R.legal.thread_getElem? hmem)).1
    have := h.memop_of_finished (step_finished hst)
    omega
  | spin =>
    exfalso
    rcases step_spin hst with ⟨acc, hpc, hlt⟩ | ⟨a, v, ent, hpc, hle⟩
    · -- a version below `e`'s has a writer before `e`, and that writer is over
      have hp := (h.thr e.tid).pc
      simp only [PcInv, hpc] at hp
      obtain ⟨e', hc', rfl, hwv⟩ := hp
      obtain rfl := hc.unique hc'
      rw [calcObjid_acc, hwv] at hlt
      obtain ⟨pre, post, heq⟩ := List.append_of_mem hmem
      obtain ⟨w, hw, hW, ho, hv⟩ := R.legal.exists_write_of_lt heq (h.ver.nonneg (L.obj e))
        (h.ver.even _) hlt
      have hb : Before R.trace w e := ⟨pre, post, heq, hw⟩
      have := h.ver.reached w hb.mem_left
        (Nat.lt_of_lt_of_le (hpre w hb) (Thr.memop_le_passed _))
      rw [if_pos hW, ho, hv] at this
      omega
    · -- the entry names a read at `e`'s version, which comes before `e`
      obtain ⟨e', hc', hW, ha, hv, hver, hw⟩ := h.writer hpc
      obtain rfl := hc.unique hc'
      obtain ⟨-, hent, hvent⟩ := hw
      rw [h.cursor.log_eq] at hent
      obtain ⟨r, hr, hop, hro, hrv, hrm, hrt⟩ := hM.sound R.legal (List.mem_of_getElem? hent)
      have := hpre r (R.legal.read_before_write hr hmem hro hop hW (by rw [hrv, hvent]))
      rw [hrt] at this
      omega

/-- **The replay never deadlocks.**  While some thread has not finished its program, some thread
has a step that is not one more turn of a wait loop. -/
theorem replay_deadlock_free (R : Run L nthr prog m₀) (hM : Merged L nthr R.trace logs)
    (hr : (sys L nthr prog m₀ R.trace logs).Reach s)
    (hun : ∃ t < nthr, ¬ Finished prog s t) :
    ∃ t < nthr, ¬ Blocked L s t ∧ ∃ s', step L prog s t = .next s' := by
  have h := reach_inv hM hr
  obtain ⟨t, ht, hf⟩ := hun
  obtain ⟨pre, e, post, heq, he, hpre⟩ := exists_first (h.exists_uncompleted ht hf)
  have hmem : e ∈ R.trace := by rw [heq]; simp
  obtain ⟨s', hs'⟩ := h.first_steps hM hmem he (fun x hx => by
    have := hpre x (hx.mem_of_split R.legal.nodup heq)
    omega)
  refine ⟨e.tid, R.tid_lt e hmem, ?_, s', hs'⟩
  rintro (⟨acc, hpc, hlt⟩ | ⟨a, v, ent, hpc, hle⟩)
  · simp [step, hpc, hlt] at hs'
  · simp [step, stepWrite, hpc, hle] at hs'

/-- After six steps of the example the writer waits for the reader, and the reader can step. -/
theorem replay_deadlock_free_demo :
    ((demoAfter 6).thr 0).pc = .write 0 5 (.waitMemop ⟨0, 0, 1⟩) ∧
      Blocked demoLayout (demoAfter 6) 0 ∧
      ∃ t < 2, ¬ Blocked demoLayout (demoAfter 6) t ∧
        ∃ s', step demoLayout demoProg (demoAfter 6) t = .next s' :=
  ⟨rfl, Or.inr ⟨0, 5, ⟨0, 0, 1⟩, rfl, by decide⟩,
    replay_deadlock_free demoRun demo_merged (demo_reach_after 6 (by decide))
      ⟨0, by decide, fun h => absurd h.1 (by decide)⟩⟩

/-! ## 6. The checks and the cursors

What the other sections do not say about the reader logs. -/

/-- **The run-time checks are unreachable, and each reader log is consumed exactly.**  In every
state of every interleaving: one thread at most per object between entering `wait_reader` and
raising the version; no check fails; the cursor has passed every entry below the object's version
and none above.  An entry is taken by the recorded writer of its own version, the cursor moving
past it for good, and it is that writer that waits for it. -/
theorem replay_checks (R : Run L nthr prog m₀) (hM : Merged L nthr R.trace logs)
    (hr : (sys L nthr prog m₀ R.trace logs).Reach s) :
    (∀ t u a b v v' w w', (s.thr t).pc = .write a v w → (s.thr u).pc = .write b v' w' →
      L.calcObjid a = L.calcObjid b → t = u) ∧
    (∀ t f, step L prog s t ≠ .fail f) ∧
    (∀ o, (s.readerLog o).n ≤ (logs o).length ∧ ∀ i ent, (logs o)[i]? = some ent →
      (ent.version < s.objVersion o → i < (s.readerLog o).n) ∧
      (s.objVersion o < ent.version → (s.readerLog o).n ≤ i)) ∧
    (∀ t s', step L prog s t = .next s' → ∀ o, (s'.readerLog o).n ≠ (s.readerLog o).n →
      (s'.readerLog o).n = (s.readerLog o).n + 1 ∧
      ∃ ent e, (logs o)[(s.readerLog o).n]? = some ent ∧ Cur R s t e ∧ e.op = .W ∧
        L.obj e = o ∧ e.version = ent.version) ∧
    (∀ t a v ent, (s.thr t).pc = .write a v (.waitMemop ent) →
      ∃ e, Cur R s t e ∧ e.op = .W ∧ L.obj e = L.calcObjid a ∧ e.version = ent.version ∧
        0 < (s.readerLog (L.calcObjid a)).n ∧
        (logs (L.calcObjid a))[(s.readerLog (L.calcObjid a)).n - 1]? = some ent) := by
  have h := reach_inv hM hr
  refine ⟨fun t u a b v v' w w' h1 h2 h3 => h.writer_unique h1 h2 h3, h.step_ne_fail,
    fun o => ⟨h.cursor.n_le o, fun i ent hi => ⟨?_, ?_⟩⟩,
    ?_, ?_⟩
  · intro hlt
    by_contra hge
    have := h.cursor.above o i ent hi (by omega)
    omega
  · intro hlt
    by_contra hge
    have := h.cursor.below o i ent hi (by omega)
    omega
  -- a cursor moves only in `advance`, by the writer of the entry's version
  · intro t s' hst o hne
    rcases (step_readerLog (step_cases hst) o).2.2 with hn | ⟨a, v, ent, hpc, rfl, -, hn⟩
    · exact absurd hn hne
    · obtain ⟨e, hc, hW, ha, -, -, hw⟩ := h.writer hpc
      have ho : L.obj e = L.calcObjid a := by rw [Layout.obj, ha]
      simp only [WInv, ho, h.cursor.log_eq] at hw
      exact ⟨hn, ent, e, hw.1, hc, hW, ho, hw.2.symm⟩
  · intro t a v ent hpc
    obtain ⟨e, hc, hW, ha, -, -, hw⟩ := h.writer hpc
    have ho : L.obj e = L.calcObjid a := by rw [Layout.obj, ha]
    simp only [WInv, Taken, ho, h.cursor.log_eq] at hw
    exact ⟨e, hc, hW, ho, hw.2.2.symm, hw.1, hw.2.1⟩

/-- At the end of the example the entry for the read at version 0 has been passed, and the one for
the read at version 2 has not: nobody writes at that version. -/
theorem replay_checks_demo :
    demoEnd.objVersion 0 = 2 ∧ (demoEnd.readerLog 0).n = 1 ∧
      (∀ i ent, (demoLogs 0)[i]? = some ent → ent.version < demoEnd.objVersion 0 →
        i < (demoEnd.readerLog 0).n) ∧
      ∀ f, step demoLayout demoProg demoEnd 0 ≠ .fail f :=
  have h := replay_checks demoRun demo_merged demo_reach
  ⟨rfl, rfl, fun i ent hi => ((h.2.2.1 0).2 i ent hi).1, h.2.1 0⟩

end MemOrder.Replay
