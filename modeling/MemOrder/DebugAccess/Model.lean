/-
# The `DEBUG_ACCESS` build

With `DEBUG_ACCESS` the recorders that keep versions write one more log per thread, an entry for each
access, and the replayer compares each access with its entry (`check_access`) -- a read after it has
the value, a write before it stores it -- and exits on a difference.  The version in the comparison
is one more load of `obj_version`, of what the thread sees then.

The build is the replayer on TSO with a call of `check_access` put in at two places (`callAt`).  A
state is a state of the replayer, the call each thread is in, and the rest of its debug log; a step
is a step of the replayer, or a check, or a drain.

The places of the calls matter for what can be proved.  A read is checked when its value is in its
hands and its `memop` not yet incremented, so its writer is still waiting for it; a write is checked
when it is out of `wait_reader`, with an empty buffer, and before its store.  Section 5 counts the
calls: each access is checked once, in program order, so the entry a check takes is that of its own
access (`CallInv`).
-/
import MemOrder.ReplayTso.Total

namespace MemOrder.DebugAccess

open Commit (Made)
open ReplayTso (Mem Store Thr)

variable {Addr : Type} [DecidableEq Addr]

/-! ## 1. The log -/

/-- `struct mem_acc`.  Its field `memop` is neither set nor read: the entry of an access is found by
its place. -/
structure MemAcc where
  acc : Op
  objid : Nat
  val : Val
  version : Int
deriving DecidableEq, Repr

/-- `log_access`, called for each access by `mem_read` and `mem_write` of the recorders. -/
def logAccess (L : Layout Addr) (e : Event Addr) : MemAcc := ⟨e.op, L.obj e, e.val, e.version⟩

/-- The debug log a thread of a recorded run leaves. -/
def debugAccessLog (L : Layout Addr) (tr : List (Event Addr)) (t : Nat) : List MemAcc :=
  (thread t tr).map (logAccess L)

/-- A difference, with the recorded and the replayed value where they are printed. -/
inductive AccErr
  | type
  | objid (recorded replay : Nat)
  | val (recorded replay : Val)
  | version (recorded replay : Int)
deriving DecidableEq, Repr

/-- `check_access` on the entry `ent`: all differences, in the order they are printed. -/
def checkAccess (ent : MemAcc) (acc : Op) (objid : Nat) (ver : Int) (val : Val) : List AccErr :=
  (if ent.acc ≠ acc then [.type] else []) ++
    (if ent.objid ≠ objid then [.objid ent.objid objid] else []) ++
    (if ent.val ≠ val then [.val ent.val val] else []) ++
    (if ent.version ≠ ver then [.version ent.version ver] else [])

theorem checkAccess_eq_nil {ent : MemAcc} {acc : Op} {objid : Nat} {ver : Int} {val : Val} :
    checkAccess ent acc objid ver val = [] ↔ ent = ⟨acc, objid, val, ver⟩ := by
  obtain ⟨acc', objid', val', ver'⟩ := ent
  simp only [checkAccess, List.append_eq_nil_iff, ite_eq_right_iff, List.cons_ne_nil, imp_false,
    not_not, MemAcc.mk.injEq]
  tauto

/-! ## 2. The calls -/

/-- The arguments of a call of `check_access`, but for the version, which the call loads. -/
structure Call where
  acc : Op
  objid : Nat
  val : Val
deriving DecidableEq, Repr

/-- The call a thread makes when it comes to a place: after `val = *addr` in `mem_read`, and after
`wait_reader` in `mem_write`.  Both functions end in `memop++`; it is the access just made that tells
the two apart. -/
def callAt (L : Layout Addr) (th : Thr Addr) : Option Call :=
  match th.pc with
  | .incMemopLoad =>
    match th.done.getLast? with
    | some ⟨.read a, some v⟩ => some ⟨.R, L.calcObjid a, v⟩
    | _ => none
  | .write a x .store => some ⟨.W, L.calcObjid a, x⟩
  | _ => none

inductive Failure
  /-- A check of the replayer itself. -/
  | replay (f : Replay.Failure)
  /-- No entry of the thread is left.  `mem_finish_thr` does not truncate the debug log, so there are
  zeros where the next entry would be, which are no access, or else `read_log_entry` returns `NULL`. -/
  | noEntry
  | access (errs : List AccErr)

/-! ## 3. The system -/

structure State (Addr : Type) where
  base : ReplayTso.State Addr
  call : Nat → Option Call
  /-- The entries that are left of `debug_access_log`. -/
  log : Nat → List MemAcc

inductive Outcome (Addr : Type)
  | next (s : State Addr)
  | spin
  | undrained
  | finished
  | fail (f : Failure)

namespace State

variable (L : Layout Addr) (prog : Nat → Prog Addr) (logs : Nat → List ReplayWaitMemop)
  (s : State Addr) (t : Nat)

/-- Thread `t` checks its access. -/
def check (k : Call) : Outcome Addr :=
  match s.log t with
  | [] => .fail .noEntry
  | ent :: rest =>
    match checkAccess ent k.acc k.objid ((s.base.view t).objVersion k.objid) k.val with
    | [] => .next { s with
        call := Function.update s.call t none
        log := Function.update s.log t rest }
    | errs => .fail (.access errs)

/-- Thread `t` executes the check it is at, or the instruction. -/
def instr : Outcome Addr :=
  match s.call t with
  | some k => s.check t k
  | none =>
    match s.base.instr L prog logs t with
    | .next b => .next { s with
        base := b
        call := Function.update s.call t (callAt L (b.thr t)) }
    | .spin => .spin
    | .undrained => .undrained
    | .finished => .finished
    | .fail f => .fail (.replay f)

/-- The oldest store of thread `t` reaches memory. -/
def drain : Option (State Addr) := (s.base.drain t).map fun b => { s with base := b }

end State

/-- After `mem_init` and every thread's `mem_init_thr`, which opens the debug log. -/
def Initial (m₀ : Addr → Val) (versions : Nat → List WaitVersion) (debug : Nat → List MemAcc)
    (s : State Addr) : Prop :=
  ReplayTso.Initial m₀ versions s.base ∧ s.call = (fun _ => none) ∧ s.log = debug

/-- The `DEBUG_ACCESS` replayer on version logs, reader logs and debug logs. -/
def sys (L : Layout Addr) (nthr : Nat) (prog : Nat → Prog Addr) (m₀ : Addr → Val)
    (versions : Nat → List WaitVersion) (logs : Nat → List ReplayWaitMemop)
    (debug : Nat → List MemAcc) : Trans.Sys (State Addr) Nat where
  init := Initial m₀ versions debug
  step s l s' := ∃ t < nthr, l = some t ∧
    (s.instr L prog logs t = .next s' ∨ s.drain t = some s')

/-- Thread `t` has finished its program, the check of its last access included. -/
def Finished (prog : Nat → Prog Addr) (s : State Addr) (t : Nat) : Prop :=
  s.call t = none ∧ ReplayTso.Finished prog s.base t

/-! ## 4. What a step can do -/

section Step

variable {L : Layout Addr} {nthr : Nat} {prog : Nat → Prog Addr} {m₀ : Addr → Val}
  {versions : Nat → List WaitVersion} {logs : Nat → List ReplayWaitMemop}
  {debug : Nat → List MemAcc} {s s' : State Addr} {t : Nat}

/-- A check that passes has found its own values in the entry, and takes the entry. -/
theorem check_cases {k : Call} (h : s.check t k = .next s') :
    ∃ rest, s.log t = ⟨k.acc, k.objid, k.val, (s.base.view t).objVersion k.objid⟩ :: rest ∧
      s' = { s with
        call := Function.update s.call t none
        log := Function.update s.log t rest } := by
  unfold State.check at h
  split at h
  · cases h
  · rename_i ent rest hlog
    split at h
    · rename_i hnil
      cases h
      rw [checkAccess_eq_nil.mp hnil] at hlog
      exact ⟨rest, hlog, rfl⟩
    · cases h

/-- **A step** is a check, an instruction of the replayer, or a drain. -/
theorem step_cases {l : Option Nat} (h : (sys L nthr prog m₀ versions logs debug).step s l s') :
    ∃ t < nthr,
      (∃ k rest, s.call t = some k ∧
        s.log t = ⟨k.acc, k.objid, k.val, (s.base.view t).objVersion k.objid⟩ :: rest ∧
        s' = { s with
          call := Function.update s.call t none
          log := Function.update s.log t rest }) ∨
      (∃ b, s.call t = none ∧ s.base.instr L prog logs t = .next b ∧
        s' = { s with base := b, call := Function.update s.call t (callAt L (b.thr t)) }) ∨
      (∃ b, s.base.drain t = some b ∧ s' = { s with base := b }) := by
  obtain ⟨t, ht, -, hst | hst⟩ := h
  · refine ⟨t, ht, ?_⟩
    unfold State.instr at hst
    cases hk : s.call t with
    | some k =>
      rw [hk] at hst
      obtain ⟨rest, hlog, hs'⟩ := check_cases hst
      exact Or.inl ⟨k, rest, rfl, hlog, hs'⟩
    | none =>
      rw [hk] at hst
      simp only at hst
      split at hst <;> cases hst
      rename_i b hb
      exact Or.inr (Or.inl ⟨b, rfl, hb, rfl⟩)
  · obtain ⟨b, hb, hs'⟩ := Option.map_eq_some_iff.mp hst
    exact ⟨t, ht, Or.inr (Or.inr ⟨b, hb, hs'.symm⟩)⟩

/-- **Without its checks the build is the replayer.** -/
theorem reach_base (hr : (sys L nthr prog m₀ versions logs debug).Reach s) :
    (ReplayTso.sys L nthr prog m₀ versions logs).Reach s.base := by
  induction hr with
  | init hs => exact .init hs.1
  | step _ hst ih =>
    obtain ⟨t, ht, ⟨k, rest, -, -, rfl⟩ | ⟨b, -, hb, rfl⟩ | ⟨b, hb, rfl⟩⟩ := step_cases hst
    · exact ih
    · exact ih.step (l := some t) ⟨t, ht, rfl, Or.inl hb⟩
    · exact ih.step (l := some t) ⟨t, ht, rfl, Or.inr hb⟩

end Step

/-! ## 5. One check for each access

An access is checked at one place, a read after it is made and a write before.  `ahead` is the write
that has been checked and not been made, and `Counts` says of one instruction that it leads to a
call just when it makes the number of accesses to be checked one more. -/

/-- The access of a writer at its store has been checked or is in its check, and is not made yet. -/
def ahead (th : Thr Addr) : Nat :=
  match th.pc with
  | .write _ _ .store => 1
  | _ => 0

/-- A writer past its store has made its access. -/
def AtWrite (th : Thr Addr) : Prop :=
  match th.pc with
  | .write a x .incLoad => ∃ d, th.done = d ++ [⟨.write a x, none⟩]
  | .write a x (.incStore _) => ∃ d, th.done = d ++ [⟨.write a x, none⟩]
  | _ => True

/-- How many accesses a thread has checked, or is to check next. -/
def State.checks (s : State Addr) (t : Nat) : Nat :=
  (s.base.thr t).done.length + ahead (s.base.thr t)

section Count

variable {L : Layout Addr} {nthr : Nat} {prog : Nat → Prog Addr} {m₀ : Addr → Val}
  {versions : Nat → List WaitVersion} {logs : Nat → List ReplayWaitMemop}
  {debug : Nat → List MemAcc} {s s' : State Addr} {b b' : ReplayTso.State Addr}
  {th th' : Thr Addr} {t u : Nat}

/-- An instruction that makes the number of checks one more is followed by one. -/
def Counts (L : Layout Addr) (th th' : Thr Addr) : Prop :=
  AtWrite th → AtWrite th' ∧
    th'.done.length + ahead th' = th.done.length + ahead th + (callAt L th').toList.length

omit [DecidableEq Addr] in
/-- The next entry of the version log is no access. -/
theorem nextWaitVersionLog_done (h : th.nextWaitVersionLog = some th') : th'.done = th.done := by
  obtain ⟨r, -, rfl⟩ := Option.map_eq_some_iff.mp h
  rfl

omit [DecidableEq Addr] in
/-- Past the wait there is no check yet. -/
theorem counts_afterWait {acc : Acc Addr} (hpc : ahead th = 0) (hd : th'.done = th.done) :
    Counts L th { th' with pc := ReplayTso.afterWait acc } := by
  intro _
  cases acc <;> simp [ReplayTso.afterWait, AtWrite, callAt, ahead, hd] at hpc ⊢ <;> omega

omit [DecidableEq Addr] in
/-- A place without a check, with the access not made yet. -/
theorem counts_goto {p : ReplayTso.Pc Addr} (hpc : ahead th = 0)
    (hp : ∀ d, AtWrite ⟨p, th.waitVersion, th.waitVersionLog, d⟩ ∧
      ahead ⟨p, th.waitVersion, th.waitVersionLog, d⟩ = 0 ∧
      callAt L ⟨p, th.waitVersion, th.waitVersionLog, d⟩ = none) :
    Counts L th { th with pc := p } := by
  intro _
  obtain ⟨h1, h2, h3⟩ := hp th.done
  exact ⟨h1, by simp [h2, h3, hpc]⟩

omit [DecidableEq Addr] in
/-- **`mem_write`**: its check comes when it is out of `wait_reader`. -/
theorem writeCode_counts {a : Addr} {x : Val} {w : ReplayTso.WPc} (hpc : th.pc = .write a x w) :
    (ReplayTso.writeCode L logs th a x w).All (fun r => ∀ th', r = .goto th' → Counts L th th') := by
  cases w with
  | trylock =>
    intro m th' hth
    simp only at hth
    split at hth <;> cases hth
    exact counts_goto (by simp [ahead, hpc]) (fun d => ⟨trivial, rfl, rfl⟩)
  | checkSize =>
    intro m th' hth
    simp only at hth
    split at hth <;> cases hth <;>
      exact counts_goto (by simp [ahead, hpc]) (fun d => ⟨trivial, rfl, rfl⟩)
  | loadVersion =>
    intro m th' hth
    cases hth
    exact counts_goto (by simp [ahead, hpc]) (fun d => ⟨trivial, rfl, rfl⟩)
  | loadN version =>
    intro m th' hth
    simp only at hth
    split at hth
    · cases hth
    · split at hth
      · cases hth
      · split at hth <;> cases hth <;>
          exact counts_goto (by simp [ahead, hpc]) (fun d => ⟨trivial, rfl, rfl⟩)
  | advanceLoad ent =>
    intro m th' hth
    cases hth
    exact counts_goto (by simp [ahead, hpc]) (fun d => ⟨trivial, rfl, rfl⟩)
  | advanceStore ent n =>
    intro th' hth
    cases hth
    exact counts_goto (by simp [ahead, hpc]) (fun d => ⟨trivial, rfl, rfl⟩)
  | unlock ret =>
    intro m th' hth
    cases ret with
    | none =>
      -- the check of the write
      cases hth
      intro _
      exact ⟨trivial, by simp [ahead, hpc, callAt]⟩
    | some ent =>
      cases hth
      exact counts_goto (by simp [ahead, hpc]) (fun d => ⟨trivial, rfl, rfl⟩)
  | waitMemop ent =>
    intro m th' hth
    simp only at hth
    split at hth <;> cases hth
    exact counts_goto (by simp [ahead, hpc]) (fun d => ⟨trivial, rfl, rfl⟩)
  -- the write is made, and is no longer ahead
  | store =>
    intro th' hth
    cases hth
    intro _
    exact ⟨⟨th.done, rfl⟩, by simp [ahead, hpc, callAt]⟩
  | incLoad =>
    intro m th' hth
    cases hth
    intro hat
    simp only [AtWrite, hpc] at hat
    exact ⟨hat, by simp [ahead, hpc, callAt]⟩
  -- the access is over, and its last one is the write
  | incStore v =>
    intro th' hth
    cases hth
    intro hat
    simp only [AtWrite, hpc] at hat
    obtain ⟨d, hd⟩ := hat
    exact ⟨trivial, by simp [ahead, hpc, callAt, hd]⟩

omit [DecidableEq Addr] in
/-- **All of the code**: the other check comes at the value load. -/
theorem code_counts {i : Tso.Instr (Mem Addr) (Store Addr) (ReplayTso.Next Addr)}
    (h : ReplayTso.code L prog logs t th = some i) :
    i.All (fun r => ∀ th', r = .goto th' → Counts L th th') := by
  cases hpc : th.pc with
  | start =>
    simp only [ReplayTso.code, hpc] at h
    obtain ⟨acc, -, rfl⟩ := Option.map_eq_some_iff.mp h
    intro m th' hth
    simp only at hth
    split at hth <;> cases hth
    · exact counts_goto (by simp [ahead, hpc]) (fun d => ⟨trivial, rfl, rfl⟩)
    · exact counts_afterWait (by simp [ahead, hpc]) rfl
  | waitVersion acc =>
    simp only [ReplayTso.code, hpc, Option.some.injEq] at h
    subst h
    intro m th' hth
    simp only at hth
    split at hth <;> cases hth
    exact counts_goto (by simp [ahead, hpc]) (fun d => ⟨trivial, rfl, rfl⟩)
  | checkVersion acc =>
    simp only [ReplayTso.code, hpc, Option.some.injEq] at h
    subst h
    intro m th' hth
    simp only at hth
    split at hth
    · cases hth
    · split at hth <;> cases hth
      rename_i th₁ hnext
      exact counts_afterWait (by simp [ahead, hpc]) (nextWaitVersionLog_done hnext)
  | load a =>
    -- the check of the read
    simp only [ReplayTso.code, hpc, Option.some.injEq] at h
    subst h
    intro m th' hth
    cases hth
    intro _
    exact ⟨trivial, by simp [ahead, hpc, callAt]⟩
  | write a x w =>
    simp only [ReplayTso.code, hpc, Option.some.injEq] at h
    subst h
    exact writeCode_counts hpc
  | incMemopLoad =>
    simp only [ReplayTso.code, hpc, Option.some.injEq] at h
    subst h
    intro m th' hth
    cases hth
    exact counts_goto (by simp [ahead, hpc]) (fun d => ⟨trivial, rfl, rfl⟩)
  | incMemopStore k =>
    simp only [ReplayTso.code, hpc, Option.some.injEq] at h
    subst h
    intro th' hth
    cases hth
    exact counts_goto (by simp [ahead, hpc]) (fun d => ⟨trivial, rfl, rfl⟩)

/-- An instruction counts for its own thread and leaves the others alone. -/
theorem instr_counts (h : b.instr L prog logs t = .next b') :
    Counts L (b.thr t) (b'.thr t) ∧ ∀ u, u ≠ t → b'.thr u = b.thr u := by
  refine ⟨?_, fun u hu => ((ReplayTso.instr_frame h).1 u hu).1⟩
  unfold ReplayTso.State.instr at h
  split at h
  · cases h
  · rename_i i hi
    split at h
    · cases h
    · rename_i m buf th htso
      cases h
      simpa using (code_counts hi).tso htso th rfl
    · cases h
    · cases h

/-- A drain is no step of a thread. -/
theorem drain_thr (h : b.drain t = some b') : b'.thr = b.thr := by
  obtain ⟨st, rest, -, rfl⟩ := ReplayTso.drain_cases h
  rfl

/-- What a thread has read of its debug log are the entries of the accesses it has checked. -/
structure CallInv (L : Layout Addr) (debug : Nat → List MemAcc) (s : State Addr) (t : Nat) :
    Prop where
  atWrite : AtWrite (s.base.thr t)
  call : s.call t = none ∨ s.call t = callAt L (s.base.thr t)
  log : ∃ n, n + (s.call t).toList.length = s.checks t ∧ s.log t = (debug t).drop n

omit [DecidableEq Addr] in
/-- `mem_init_thr` leaves the thread before its first access. -/
theorem memInitThr_start {log : List WaitVersion} (h : ReplayTso.memInitThr log = some th) :
    th.pc = .start ∧ th.done = [] := by
  obtain ⟨r, -, rfl⟩ := Option.map_eq_some_iff.mp h
  exact ⟨rfl, rfl⟩

omit [DecidableEq Addr] in
/-- Another thread's step. -/
theorem CallInv.congr (h : CallInv L debug s t) (hthr : s'.base.thr t = s.base.thr t)
    (hcall : s'.call t = s.call t) (hlog : s'.log t = s.log t) : CallInv L debug s' t := by
  refine ⟨by rw [hthr]; exact h.atWrite, by rw [hthr, hcall]; exact h.call, ?_⟩
  rw [State.checks, hthr, hcall, hlog]
  exact h.log

/-- **In every reachable state** a thread has taken one entry for each check it has made. -/
theorem reach_callInv (hr : (sys L nthr prog m₀ versions logs debug).Reach s) (u : Nat) :
    CallInv L debug s u := by
  refine Trans.Sys.reach_of_inductive (I := fun s => CallInv L debug s u) ?_ ?_ hr
  · rintro s ⟨⟨-, -, hthr⟩, hcall, hlog⟩
    obtain ⟨hpc, hdone⟩ := memInitThr_start (hthr u)
    refine ⟨by simp [AtWrite, hpc], Or.inl (by rw [hcall]), 0, ?_, by rw [hlog]; rfl⟩
    simp [hcall, State.checks, hdone, ahead, hpc]
  · intro s l s' _ h hst
    obtain ⟨t, ht, ⟨k, rest, hk, hlog, rfl⟩ | ⟨b, hk, hb, rfl⟩ | ⟨b, hb, rfl⟩⟩ := step_cases hst
    · rcases eq_or_ne u t with rfl | hu
      · -- the entry that has been compared is the first one left
        obtain ⟨n, hn, hd⟩ := h.log
        refine ⟨h.atWrite, Or.inl (by simp), n + 1, ?_, ?_⟩
        · simp only [hk, Option.toList_some, List.length_singleton] at hn
          simpa [State.checks] using hn
        · rw [hd] at hlog
          simp [← List.tail_drop, hlog]
      · exact h.congr rfl (by simp [hu]) (by simp [hu])
    · obtain ⟨hcounts, hframe⟩ := instr_counts hb
      rcases eq_or_ne u t with rfl | hu
      · obtain ⟨hat, hlen⟩ := hcounts h.atWrite
        obtain ⟨n, hn, hd⟩ := h.log
        refine ⟨hat, Or.inr (by simp), n, ?_, hd⟩
        simp only [hk, State.checks, Option.toList_none, List.length_nil] at hn
        simp only [State.checks, Function.update_self]
        omega
      · exact h.congr (hframe u hu) (by simp [hu]) rfl
    · exact h.congr (congrFun (drain_thr hb) u) rfl rfl

end Count

/-! ## 6. Runs, executed -/

/-- One step of a schedule. -/
def act (L : Layout Addr) (prog : Nat → Prog Addr) (logs : Nat → List ReplayWaitMemop)
    (s : State Addr) : ReplayTso.Act → Option (Option Nat × State Addr)
  | .instr t =>
    match s.instr L prog logs t with
    | .next s' => some (some t, s')
    | _ => none
  | .drain t => (s.drain t).map fun s' => (some t, s')

/-- A step of a schedule is a step of the system. -/
theorem step_act {L : Layout Addr} {nthr : Nat} {prog : Nat → Prog Addr} {m₀ : Addr → Val}
    {versions : Nat → List WaitVersion} {logs : Nat → List ReplayWaitMemop}
    {debug : Nat → List MemAcc} {s s' : State Addr} {a : ReplayTso.Act} {l : Option Nat}
    (hlt : a.tid < nthr) (h : act L prog logs s a = some (l, s')) :
    (sys L nthr prog m₀ versions logs debug).step s l s' := by
  cases a with
  | instr t =>
    simp only [act] at h
    split at h
    · rename_i s₁ hst
      cases h
      exact ⟨t, hlt, rfl, Or.inl hst⟩
    · cases h
  | drain t =>
    obtain ⟨s₁, hst, heq⟩ := Option.map_eq_some_iff.mp h
    cases heq
    exact ⟨t, hlt, rfl, Or.inr hst⟩

/-- The state `mem_init` and `mem_init_thr` leave. -/
def initState (m₀ : Addr → Val) (versions : Nat → List WaitVersion) (debug : Nat → List MemAcc) :
    State Addr :=
  ⟨ReplayTso.initState m₀ versions, fun _ => none, debug⟩

omit [DecidableEq Addr] in
/-- It is an initial state: every version log has its end marker. -/
theorem initial_initState (m₀ : Addr → Val) {versions : Nat → List WaitVersion}
    (hne : ∀ t, versions t ≠ []) (debug : Nat → List MemAcc) :
    Initial m₀ versions debug (initState m₀ versions debug) :=
  ⟨ReplayTso.initial_initState m₀ hne, rfl, rfl⟩

end MemOrder.DebugAccess
