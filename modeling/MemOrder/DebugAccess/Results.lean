/-
# Results that pass their checks

Nothing is assumed of the version logs and the reader logs here; only the debug logs are those of a
recorded run.  A program that has seen what it saw when it was recorded makes the call it made then,
so the accesses of a thread are the recorded ones up to the result of the read it is checking
(`ThrSound`).

The induction is along the thread.  As long as the results it has checked are the recorded ones, its
next call is the recorded call (`recorded_acc`).  If that is a read, its result is what memory
happens to have; it is compared with the recorded value before the thread does anything else, and
the entry it is compared with is that of the same access, since a thread makes one check for each
access and takes one entry for each check (`entry_recorded`).  If it is a write it has no result, so
it is as recorded as soon as it is made.

What an instruction does to the thread and to memory is said once for all logs (`Does`): most move
the thread only, and those of `mem_write` from the check on are told apart.
-/
import MemOrder.DebugAccess.Model

namespace MemOrder.DebugAccess

open Commit (Made)
open ReplayTso (Mem Store Thr)

variable {Addr : Type} [DecidableEq Addr] {L : Layout Addr} {nthr : Nat} {prog : Nat → Prog Addr}
  {m₀ : Addr → Val} {R : Run L nthr prog m₀} {versions : Nat → List WaitVersion}
  {logs : Nat → List ReplayWaitMemop} {b b' : ReplayTso.State Addr} {s s' : State Addr}
  {th th' : Thr Addr} {e : Event Addr} {t u : Nat}

/-! ## 1. What an instruction can do

An inversion of `instr` that forgets the logs.  The places and guards that depend on them are all
`Quiet` here: the thread is in the call it was in, or begins the one its program makes next. -/

/-- The call a thread is in, its access not made yet. -/
def current : ReplayTso.Pc Addr → Option (Acc Addr)
  | .waitVersion acc => some acc
  | .checkVersion acc => some acc
  | .load a => some (.read a)
  | .write _ _ .incLoad => none
  | .write _ _ (.incStore _) => none
  | .write a x _ => some (.write a x)
  | _ => none

/-- Not between the check of a write and its version store.  Only there does a step of the thread
concern a recorded write. -/
def Plain : ReplayTso.Pc Addr → Prop
  | .write _ _ .store => False
  | .write _ _ .incLoad => False
  | .write _ _ (.incStore _) => False
  | _ => True

/-- From one such place to another, with no access made. -/
structure Quiet (prog : Nat → Prog Addr) (t : Nat) (th th' : Thr Addr) : Prop where
  old : Plain th.pc
  new : Plain th'.pc
  silent : th'.pc ≠ .incMemopLoad
  done : th'.done = th.done
  current : ∀ acc, current th'.pc = some acc →
    current th.pc = some acc ∨ prog t (th.done.map Made.res) = some acc

/-- Stores that are neither of a value nor of a version. -/
def Other : Store Addr → Prop
  | .val _ _ => False
  | .objVersion _ _ => False
  | _ => True

/-- What an instruction can do, whatever the logs are. -/
inductive Does (L : Layout Addr) (prog : Nat → Prog Addr) (b : ReplayTso.State Addr) (t : Nat) :
    ReplayTso.State Addr → Prop
  | move {th' : Thr Addr} : Quiet prog t (b.thr t) th' → Does L prog b t (b.moved t th')
  | push {st : Store Addr} {th' : Thr Addr} : Other st → Quiet prog t (b.thr t) th' →
      Does L prog b t (b.pushed t st th')
  | exchange {st : Store Addr} {th' : Thr Addr} : Other st → b.buf t = [] →
      Quiet prog t (b.thr t) th' → Does L prog b t (b.exchanged t st th')
  | read {a : Addr} : (b.thr t).pc = .load a →
      Does L prog b t (b.moved t { b.thr t with
        pc := .incMemopLoad
        done := (b.thr t).done ++ [⟨.read a, some ((b.view t).val a)⟩] })
  /-- Out of `wait_reader`. -/
  | ready {st : Store Addr} {a : Addr} {x : Val} : Other st → b.buf t = [] →
      (b.thr t).pc = .write a x (.unlock none) →
      Does L prog b t (b.exchanged t st { b.thr t with pc := .write a x .store })
  | store {a : Addr} {x : Val} : (b.thr t).pc = .write a x .store →
      Does L prog b t (b.pushed t (.val a x) { b.thr t with
        pc := .write a x .incLoad
        done := (b.thr t).done ++ [⟨.write a x, none⟩] })
  | incLoad {a : Addr} {x : Val} : (b.thr t).pc = .write a x .incLoad →
      Does L prog b t (b.moved t { b.thr t with
        pc := .write a x (.incStore ((b.view t).objVersion (L.calcObjid a))) })
  | incStore {a : Addr} {x : Val} {v : Int} : (b.thr t).pc = .write a x (.incStore v) →
      Does L prog b t (b.pushed t (.objVersion (L.calcObjid a) (v + 2)) { b.thr t with
        pc := .incMemopLoad })

omit [DecidableEq Addr] in
/-- A thread that goes on in the call it is in, or to the call its program makes. -/
theorem quiet_goto {p q : ReplayTso.Pc Addr} (hpc : th.pc = p) (hp : Plain p) (hq : Plain q)
    (hs : q ≠ .incMemopLoad) (hc : ∀ acc, current q = some acc →
      current p = some acc ∨ prog t (th.done.map Made.res) = some acc) :
    Quiet prog t th { th with pc := q } := by
  subst hpc
  exact ⟨hp, hq, hs, rfl, hc⟩

/-- **The instructions of `mem_write`.** -/
theorem writeCode_does {a : Addr} {x : Val} {w : ReplayTso.WPc}
    (hpc : (b.thr t).pc = .write a x w) (h : b.instr L prog logs t = .next b') :
    Does L prog b t b' := by
  have hcode : ReplayTso.code L prog logs t (b.thr t) =
      some (ReplayTso.writeCode L logs (b.thr t) a x w) := by simp only [ReplayTso.code, hpc]
  have hquiet : ∀ w', Plain (.write a x w : ReplayTso.Pc Addr) →
      Plain (.write a x w' : ReplayTso.Pc Addr) →
      current (.write a x w') = current (.write a x w) →
      Quiet prog t (b.thr t) { b.thr t with pc := .write a x w' } := by
    intro w' hw hw' hc
    exact quiet_goto hpc hw hw' (by simp) (fun acc hacc => Or.inl (hc ▸ hacc))
  -- the places in the order of the source; a failed check of the replayer ends the run and is no
  -- step
  cases w with
  | trylock =>
    by_cases hb : b.buf t = []
    · rw [ReplayTso.instr_of_xchg hcode hb] at h
      split at h
      · cases h
      · cases h
        exact .exchange trivial hb (hquiet _ trivial trivial rfl)
    · rw [ReplayTso.instr_of_undrained hcode hb] at h
      cases h
  | checkSize =>
    rw [ReplayTso.instr_of_load hcode] at h
    split at h <;> cases h <;> exact .move (hquiet _ trivial trivial rfl)
  | loadVersion =>
    rw [ReplayTso.instr_of_load hcode] at h
    cases h
    exact .move (hquiet _ trivial trivial rfl)
  | loadN version =>
    rw [ReplayTso.instr_of_load hcode] at h
    split at h
    · cases h
    · split at h
      · cases h
      · split at h <;> cases h <;> exact .move (hquiet _ trivial trivial rfl)
  | advanceLoad ent =>
    rw [ReplayTso.instr_of_load hcode] at h
    cases h
    exact .move (hquiet _ trivial trivial rfl)
  | advanceStore ent n =>
    rw [ReplayTso.instr_of_store hcode] at h
    cases h
    exact .push trivial (hquiet _ trivial trivial rfl)
  | unlock ret =>
    by_cases hb : b.buf t = []
    · rw [ReplayTso.instr_of_xchg hcode hb] at h
      cases ret with
      | none =>
        cases h
        exact .ready trivial hb hpc
      | some ent =>
        cases h
        exact .exchange trivial hb (hquiet _ trivial trivial rfl)
    · rw [ReplayTso.instr_of_undrained hcode hb] at h
      cases h
  | waitMemop ent =>
    rw [ReplayTso.instr_of_load hcode] at h
    split at h <;> cases h
    exact .move (hquiet _ trivial trivial rfl)
  | store =>
    rw [ReplayTso.instr_of_store hcode] at h
    cases h
    exact .store hpc
  | incLoad =>
    rw [ReplayTso.instr_of_load hcode] at h
    cases h
    exact .incLoad hpc
  | incStore v =>
    rw [ReplayTso.instr_of_store hcode] at h
    cases h
    exact .incStore hpc

/-- **Every instruction is one of these.** -/
theorem instr_does (h : b.instr L prog logs t = .next b') : Does L prog b t b' := by
  -- past `wait_object_version` a thread is at the same access
  have hafter : ∀ {p : ReplayTso.Pc Addr} {th' : Thr Addr} {acc : Acc Addr}, (b.thr t).pc = p →
      Plain p → th'.done = (b.thr t).done →
      (current p = some acc ∨ prog t ((b.thr t).done.map Made.res) = some acc) →
      Quiet prog t (b.thr t) { th' with pc := ReplayTso.afterWait acc } := by
    intro p th' acc hpc hp hd hc
    subst hpc
    refine ⟨hp, by cases acc <;> trivial, by cases acc <;> simp [ReplayTso.afterWait], hd, ?_⟩
    intro acc' hacc'
    cases acc <;> cases hacc' <;> exact hc
  cases hpc : (b.thr t).pc with
  | start =>
    cases hacc : prog t ((b.thr t).done.map Made.res) with
    | none =>
      rw [ReplayTso.instr_of_none (by simp [ReplayTso.code, hpc, hacc])] at h
      cases h
    | some acc =>
      rw [ReplayTso.instr_of_load (by simp only [ReplayTso.code, hpc, hacc]; rfl)] at h
      split at h <;> cases h
      · refine .move (quiet_goto hpc trivial trivial (by simp) ?_)
        rintro acc' hacc'
        cases hacc'
        exact Or.inr hacc
      · exact .move (hafter hpc trivial rfl (Or.inr hacc))
  | waitVersion acc =>
    rw [ReplayTso.instr_of_load (by simp only [ReplayTso.code, hpc]; rfl)] at h
    split at h <;> cases h
    exact .move (quiet_goto hpc trivial trivial (by simp) (fun acc' hacc' => Or.inl hacc'))
  | checkVersion acc =>
    rw [ReplayTso.instr_of_load (by simp only [ReplayTso.code, hpc]; rfl)] at h
    split at h
    · cases h
    · split at h <;> cases h
      rename_i th₁ hnext
      exact .move (hafter hpc trivial (nextWaitVersionLog_done hnext) (Or.inl rfl))
  | load a =>
    rw [ReplayTso.instr_of_load (by simp only [ReplayTso.code, hpc]; rfl)] at h
    cases h
    exact .read hpc
  | write a x w => exact writeCode_does hpc h
  | incMemopLoad =>
    rw [ReplayTso.instr_of_load (by simp only [ReplayTso.code, hpc]; rfl)] at h
    cases h
    refine .move (quiet_goto hpc trivial trivial (by simp) ?_)
    rintro acc hacc
    cases hacc
  | incMemopStore k =>
    rw [ReplayTso.instr_of_store (by simp only [ReplayTso.code, hpc]; rfl)] at h
    cases h
    refine .push trivial (quiet_goto hpc trivial trivial (by simp) ?_)
    rintro acc hacc
    cases hacc

/-! ## 2. Results

The debug log of a thread is walked by one entry for each check, so what a check compares is the
access with the same number (`entry_recorded`).  The result of a read counts as settled when its
check has returned. -/

/-- The accesses made of which the check is over.  A read is checked after its load, a write before
its store, so only a read in its call is taken off. -/
def State.settled (s : State Addr) (t : Nat) : List (Made Addr) :=
  match s.call t with
  | some ⟨.R, _, _⟩ => (s.base.thr t).done.dropLast
  | _ => (s.base.thr t).done

/-- A thread against its recorded accesses: the program makes its calls, and what has been checked is
recorded. -/
structure ThrSound (R : Run L nthr prog m₀) (s : State Addr) (t : Nat) : Prop where
  follows : ∀ d m, (s.base.thr t).done = d ++ [m] → prog t (d.map Made.res) = some m.acc
  current : ∀ acc, current (s.base.thr t).pc = some acc →
    prog t ((s.base.thr t).done.map Made.res) = some acc
  settled : s.settled t <+: (thread t R.trace).map Event.made
  out : nthr ≤ t → (s.base.thr t).pc = .start

/-- Another thread's step. -/
theorem ThrSound.congr (h : ThrSound R s t) (hthr : s'.base.thr t = s.base.thr t)
    (hcall : s'.call t = s.call t) : ThrSound R s' t := by
  refine ⟨by rw [hthr]; exact h.follows, by rw [hthr]; exact h.current, ?_,
    by rw [hthr]; exact h.out⟩
  rw [State.settled, hcall, hthr]
  exact h.settled

/-- **The call a program makes after recorded results is the recorded call**: its calls depend on
the results it has seen, and on nothing else. -/
theorem recorded_acc {d : List (Made Addr)} (hd : d <+: (thread t R.trace).map Event.made)
    (ht : t < nthr) {acc : Acc Addr} (hp : prog t (d.map Made.res) = some acc) :
    ∃ e, (thread t R.trace)[d.length]? = some e ∧ e.acc = acc := by
  refine R.getElem?_of_prog ht ?_
  obtain ⟨d', hd'⟩ := hd
  have htake : d = ((thread t R.trace).take d.length).map Event.made := by
    rw [List.map_take, ← hd', List.take_left]
  have hres : results ((thread t R.trace).take d.length) = d.map Made.res := by
    conv_rhs => rw [htake]
    rw [List.map_map]
    rfl
  rw [hres, hp]

omit [DecidableEq Addr] in
/-- One more recorded access makes a longer prefix. -/
theorem prefix_snoc {d : List (Made Addr)} {es : List (Event Addr)} {m : Made Addr}
    (hd : d <+: es.map Event.made) (he : es[d.length]? = some e) (hm : e.made = m) :
    d ++ [m] <+: es.map Event.made := by
  obtain ⟨d', hd'⟩ := hd
  have hget : (es.map Event.made)[d.length]? = some m := by rw [List.getElem?_map, he, ← hm]; rfl
  cases d' with
  | nil =>
    rw [List.append_nil] at hd'
    rw [← hd'] at hget
    simp at hget
  | cons x d' =>
    rw [← hd'] at hget
    simp only [Nat.le_refl, List.getElem?_append_right, Nat.sub_self,
      List.getElem?_cons_zero, Option.some.injEq] at hget
    exact ⟨d', by rw [← hd', hget]; simp⟩

omit [DecidableEq Addr] in
/-- What a program sees of a recorded read. -/
theorem made_of_read {a : Addr} {v : Val} (hacc : e.acc = .read a) (hval : e.val = v) :
    e.made = ⟨.read a, some v⟩ := by
  rw [Event.made, hacc, Event.result, (Replay.acc_eq_read hacc).1, hval]

omit [DecidableEq Addr] in
/-- What a program sees of a recorded write. -/
theorem made_of_write {a : Addr} {x : Val} (hacc : e.acc = .write a x) :
    e.made = ⟨.write a x, none⟩ := by
  rw [Event.made, hacc, Event.result, (Replay.acc_eq_write hacc).1]

omit [DecidableEq Addr] in
/-- The calls of `check_access`: after the load of a read, with the value it has loaded, and before
the store of a write. -/
theorem callAt_cases {k : Call} (h : callAt L th = some k) :
    (∃ d a v, th.done = d ++ [⟨.read a, some v⟩] ∧ th.pc = .incMemopLoad ∧
      k = ⟨.R, L.calcObjid a, v⟩) ∨
      ∃ a x, th.pc = .write a x .store ∧ k = ⟨.W, L.calcObjid a, x⟩ := by
  unfold callAt at h
  split at h
  · rename_i hpc
    split at h
    · rename_i a v hlast
      cases h
      obtain ⟨d, hd⟩ := List.getLast?_eq_some_iff.mp hlast
      exact Or.inl ⟨d, a, v, hd, hpc, rfl⟩
    · cases h
  · rename_i a x hpc
    cases h
    exact Or.inr ⟨a, x, hpc, rfl⟩
  · cases h

/-- **The entry a thread compares its access with** is that of its access with this number.
`CallInv` says how many entries have been taken. -/
theorem entry_recorded (hinv : CallInv L (debugAccessLog L R.trace) s t) {k : Call}
    (hk : s.call t = some k) {ent : MemAcc} {rest : List MemAcc} (hlog : s.log t = ent :: rest) :
    ∃ e, (thread t R.trace)[s.checks t - 1]? = some e ∧ logAccess L e = ent := by
  obtain ⟨n, hn, hd⟩ := hinv.log
  rw [hk, Option.toList_some, List.length_singleton] at hn
  have hget : (debugAccessLog L R.trace t)[n]? = some ent := by
    rw [← List.head?_drop, ← hd, hlog]
    rfl
  rw [debugAccessLog, List.getElem?_map, Option.map_eq_some_iff] at hget
  obtain ⟨e, he, hent⟩ := hget
  exact ⟨e, by rw [← hn, Nat.add_sub_cancel]; exact he, hent⟩

section ThrSound

variable (h : ThrSound R s t)

include h

/-- **An access that is checked has the recorded result.**  The prefix of settled accesses is longer
by the read, whose value is that of its entry; a write was settled already. -/
theorem ThrSound.check (ht : t < nthr) (hinv : CallInv L (debugAccessLog L R.trace) s t) {k : Call}
    {rest : List MemAcc} (hk : s.call t = some k)
    (hlog : s.log t = ⟨k.acc, k.objid, k.val, (s.base.view t).objVersion k.objid⟩ :: rest)
    (hs' : s' = { s with
      call := Function.update s.call t none
      log := Function.update s.log t rest }) : ThrSound R s' t := by
  subst hs'
  refine ⟨h.follows, h.current, ?_, h.out⟩
  simp only [State.settled, Function.update_self]
  have hsettled := h.settled
  have hcall : callAt L (s.base.thr t) = some k := by
    rcases hinv.call with hc | hc
    · rw [hk] at hc
      cases hc
    · rw [← hc, hk]
  rcases callAt_cases hcall with ⟨d, a, v, hd, hpc, rfl⟩ | ⟨a, x, hpc, rfl⟩
  · rw [State.settled, hk, hd] at hsettled
    simp only [List.dropLast_concat] at hsettled
    obtain ⟨e, he, hacc⟩ := recorded_acc hsettled ht (h.follows d _ hd)
    obtain ⟨e', he', hent⟩ := entry_recorded hinv hk hlog
    have hidx : s.checks t - 1 = d.length := by simp [State.checks, hd, ahead, hpc]
    rw [hidx, he, Option.some.injEq] at he'
    subst he'
    rw [hd]
    exact prefix_snoc hsettled he (made_of_read hacc (congrArg MemAcc.val hent))
  · rw [State.settled, hk] at hsettled
    exact hsettled

/-- **An instruction makes the access the program calls for.**  A read is not settled yet and a
write is; the other instructions make nothing. -/
theorem ThrSound.instr (ht : t < nthr) (hk : s.call t = none) (hdo : Does L prog s.base t b)
    (hat : AtWrite (s.base.thr t)) :
    ThrSound R { s with base := b, call := Function.update s.call t (callAt L (b.thr t)) } t := by
  have hsettled : (s.base.thr t).done <+: (thread t R.trace).map Event.made := by
    have := h.settled
    rwa [State.settled, hk] at this
  -- in the new state, from the thread and its call
  have hnext : ∀ th', b.thr t = th' →
      (∀ d m, th'.done = d ++ [m] → prog t (d.map Made.res) = some m.acc) →
      (∀ acc, DebugAccess.current th'.pc = some acc →
        prog t (th'.done.map Made.res) = some acc) →
      (match callAt L th' with
        | some ⟨.R, _, _⟩ => th'.done.dropLast
        | _ => th'.done) <+: (thread t R.trace).map Event.made →
      ThrSound R { s with
        base := b, call := Function.update s.call t (callAt L (b.thr t)) } t := by
    rintro th' rfl h1 h2 h3
    refine ⟨h1, h2, ?_, fun hle => absurd ht (by omega)⟩
    simp only [State.settled, Function.update_self]
    exact h3
  -- a step that makes no access and comes to no call
  have hquiet : ∀ th', Quiet prog t (s.base.thr t) th' → b.thr t = th' →
      ThrSound R { s with
        base := b, call := Function.update s.call t (callAt L (b.thr t)) } t := by
    intro th' hq hthr
    refine hnext th' hthr (by rw [hq.done]; exact h.follows) ?_ ?_
    · intro acc hacc
      rw [hq.done]
      exact (hq.current acc hacc).elim (h.current acc) id
    · have hnone : callAt L th' = none := by
        have h1 := hq.new
        have h2 := hq.silent
        unfold callAt
        split
        · contradiction
        · rename_i hpc
          rw [hpc] at h1
          exact h1.elim
        · rfl
      rw [hnone, hq.done]
      exact hsettled
  cases hdo with
  | move hq => exact hquiet _ hq (Function.update_self ..)
  | push _ hq => exact hquiet _ hq (Function.update_self ..)
  | exchange _ _ hq => exact hquiet _ hq (Function.update_self ..)
  -- the read is made, and its check is to come; until then it does not count as settled
  | @read a hpc =>
    refine hnext _ (Function.update_self ..) ?_ (fun acc hacc => by cases hacc) ?_
    · intro d m hd
      obtain ⟨rfl, rfl⟩ : (s.base.thr t).done = d ∧ _ = m := by simpa using hd
      exact h.current _ (by rw [hpc]; rfl)
    · simp [callAt, hsettled]
  | @ready st a x _ _ hpc =>
    refine hnext _ (Function.update_self ..) h.follows ?_ ?_
    · intro acc hacc
      cases hacc
      exact h.current _ (by rw [hpc]; rfl)
    · simp [callAt, hsettled]
  | @store a x hpc =>
    have hprog := h.current (.write a x) (by rw [hpc]; rfl)
    refine hnext _ (Function.update_self ..) ?_ (fun acc hacc => by cases hacc) ?_
    · intro d m hd
      obtain ⟨rfl, rfl⟩ : (s.base.thr t).done = d ∧ _ = m := by simpa using hd
      exact hprog
    -- a write is settled when it is made: its check has been before
    · obtain ⟨e, he, hacc⟩ := recorded_acc hsettled ht hprog
      exact prefix_snoc hsettled he (made_of_write hacc)
  | incLoad hpc =>
    refine hnext _ (Function.update_self ..) h.follows (fun acc hacc => by cases hacc) ?_
    simp [callAt, hsettled]
  | @incStore a x v hpc =>
    refine hnext _ (Function.update_self ..) h.follows (fun acc hacc => by cases hacc) ?_
    -- what it has made last is a write
    simp only [AtWrite, hpc] at hat
    obtain ⟨d, hd⟩ := hat
    rw [hd] at hsettled
    simp [callAt, hd, hsettled]

end ThrSound

/-- **What has been checked is recorded**, in every reachable state. -/
theorem reach_thrSound
    (hr : (sys L nthr prog m₀ versions logs (debugAccessLog L R.trace)).Reach s) (u : Nat) :
    ThrSound R s u := by
  refine Trans.Sys.reach_of_inductive (I := fun s => ThrSound R s u) ?_ ?_ hr
  · rintro s ⟨⟨-, -, hthr⟩, hcall, -⟩
    obtain ⟨hpc, hdone⟩ := memInitThr_start (hthr u)
    refine ⟨?_, ?_, ?_, fun _ => hpc⟩
    · intro d m hd
      rw [hdone] at hd
      simp at hd
    · intro acc hacc
      rw [hpc] at hacc
      cases hacc
    · rw [State.settled, hcall, hdone]
      exact List.nil_prefix
  · intro s l s' hs h hst
    obtain ⟨t, ht, ⟨k, rest, hk, hlog, hs'⟩ | ⟨b, hk, hb, rfl⟩ | ⟨b, hb, rfl⟩⟩ := step_cases hst
    · rcases eq_or_ne u t with rfl | hu
      · exact h.check ht (reach_callInv hs u) hk hlog hs'
      · subst hs'
        exact h.congr rfl (by simp [hu])
    · rcases eq_or_ne u t with rfl | hu
      · exact h.instr ht hk (instr_does hb) (reach_callInv hs u).atWrite
      · exact h.congr ((instr_counts hb).2 u hu) (by simp [hu])
    · exact h.congr (congrFun (drain_thr hb) u) rfl

end MemOrder.DebugAccess
