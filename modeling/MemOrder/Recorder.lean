/-
# The recorders, driven by programs

`mem-record-seqlock.c`, `-seqbatch.c`, `-rtmseq.c` and `-rtmcluster.c` differ in how an access is
made atomic with its version and in when the order logs are taken.  The models of the first kind let
a thread make any accesses.  Here the threads run programs, on x86-TSO, and what comes out of a
complete run is what the replayer needs: one legal order of the accesses of all threads
(`exists_run`), and log files of each thread that depend on that thread's accesses only
(`files_eq`).

A transaction takes effect as one step.  Its commit has the ordering of a locked instruction, so it
needs an empty store buffer, and a fallback access beside it is the seqlock code with its stores
buffered.  Both keep the invariant of the seqlock run.

So the four need one argument.  Where a transaction may begin and end is a matter of the recorder
(`xend`) and of no importance here: whatever a transaction holds, its accesses enter the order one
after the other with nothing between them.
-/
import MemOrder.Seqlock.Total
import MemOrder.Rtm.Seq
import MemOrder.Rtm.Cluster
import MemOrder.Record.Batch

namespace MemOrder

open Tso Seqlock Rtm

variable {Addr : Type} [DecidableEq Addr]

/-- The recorders of object versions. -/
inductive Recorder
  | seqlock
  | seqbatch
  | rtmseq
  | rtmcluster
deriving DecidableEq, Repr

namespace Recorder

/-! ## 1. What they differ in

The transactions of a recorder and the logs it writes, as functions of which one it is. -/

/-- An access inside a transaction: the memory it leaves, the version and the value; none without
transactions, or when it aborts. -/
def tx (k : Recorder) (L : Layout Addr) (m : Mem Addr) (acc : Acc Addr) :
    Option (Mem Addr × Int × Val) :=
  match k with
  | .seqlock => none
  | .seqbatch => none
  | .rtmseq => Rtm.Seq.tx L m acc
  | .rtmcluster => Rtm.Cluster.tx L m acc

/-- How a transaction of `n` accesses comes to its `_xend` in a thread that has made `i` accesses
before it (`Rtm.Cluster.xend`); `some true` where the thread has to end with it.  `g_sim_bbcnt` of
`mem-record-rtmcluster.c` is then `i` as an `int`. -/
def xend (k : Recorder) (i n : Nat) : Option Bool :=
  match k with
  | .seqlock => none
  | .seqbatch => none
  | .rtmseq => if n = 1 then some false else none
  | .rtmcluster =>
    if (int32 i).tmod rtmBatchN = 0 ∧ n ≠ 0 then Rtm.Cluster.xend n (int32 i) else none

/-- The logs of a thread after `mem_finish_thr`, from the accesses it has made.  `inRtm` says which
accesses of an `rtmcluster` thread were in a transaction. -/
def files (k : Recorder) (L : Layout Addr) (inRtm : Nat → Bool) (es : List (Event Addr)) :
    Option RecThr :=
  match k with
  | .seqlock => some (recordThr L es)
  | .rtmseq => some (recordThr L es)
  | .seqbatch => (batRun L batchLogSize (seqbatchCalls es)).bind fun d => d.memFinishThr L.nobj
  | .rtmcluster =>
    (batRun L rtmBatchN (rtmclusterCalls inRtm es)).bind fun d => d.memFinishThr L.nobj

/-! ## 2. The run of a program

A thread's next access is what its program says after the values it has read. -/

section Sys

variable (k : Recorder) (L : Layout Addr) (prog : Nat → Prog Addr) (t : Nat)

/-- The next `n` accesses of thread `t`'s program in one transaction; an abort of one aborts all. -/
def runTx : Nat → Seqlock.State Addr → Option (Seqlock.State Addr)
  | 0, s => some s
  | n + 1, s =>
    (prog t (results (s.done t))).bind fun acc =>
      (k.tx L s.mem acc).bind fun r => runTx n (committed s t acc r.1 r.2.1 r.2.2)

/-- A transaction of `n` accesses commits.  It begins where a block begins, and where it is not over
with the block the thread's program is. -/
def commit (n : Nat) (s : Seqlock.State Addr) : Option (Seqlock.State Addr) :=
  if s.pc t = .idle ∧ s.buf t = [] then
    (k.xend (s.done t).length n).bind fun last =>
      (runTx k L prog t n s).bind fun c =>
        if last ∧ (prog t (results (c.done t))).isSome then none else some c
  else none

/-- Thread `t` makes its next access without a transaction. -/
def call (s : Seqlock.State Addr) : Option (Seqlock.State Addr) :=
  (prog t (results (s.done t))).bind fun acc => s.call t acc

end Sys

/-- The recording process: any interleaving of commits, instructions and drains. -/
def sys (k : Recorder) (L : Layout Addr) (nthr : Nat) (prog : Nat → Prog Addr) (m₀ : Addr → Val) :
    Trans.Sys (Seqlock.State Addr) Unit where
  init s := s = .initial m₀
  step s _ s' := ∃ t < nthr, (∃ n, commit k L prog t n s = some s') ∨ call prog t s = some s' ∨
    s.instr L t = some s' ∨ s.drain t = some s'

/-- Thread `t` has finished its program. -/
def Finished (prog : Nat → Prog Addr) (s : Seqlock.State Addr) (t : Nat) : Prop :=
  s.pc t = .idle ∧ prog t (results (s.done t)) = none

/-! ## 3. The order of a run

Every step keeps the invariant of the seqlock on TSO: a call, an instruction and a drain by the
theorems of `MemOrder.Seqlock.Preserve`, a transaction access by access. -/

section Order

variable {k : Recorder} {L : Layout Addr} {nthr : Nat} {prog : Nat → Prog Addr} {m₀ : Addr → Val}
  {s s' c : Seqlock.State Addr} {tr : List (Event Addr)} {t u n : Nat}

/-- An access inside a transaction is an atomic access. -/
theorem inv_tx (h : Inv L m₀ s tr) (hpc : s.pc t = .idle) (hbuf : s.buf t = []) {acc : Acc Addr}
    {r : Mem Addr × Int × Val} (htx : k.tx L s.mem acc = some r) :
    Inv L m₀ (committed s t acc r.1 r.2.1 r.2.2)
      (tr ++ [s.event t acc.op acc.addr r.2.1 r.2.2]) := by
  cases k with
  | seqlock => cases htx
  | seqbatch => cases htx
  | rtmseq => exact Rtm.Seq.inv_tx h hpc hbuf htx
  | rtmcluster => exact Rtm.Cluster.inv_tx h hpc hbuf htx

/-- A transaction, access by access. -/
theorem inv_runTx (h : Inv L m₀ s tr) (hpc : s.pc t = .idle) (hbuf : s.buf t = [])
    (hrun : runTx k L prog t n s = some c) : ∃ tr', Inv L m₀ c tr' := by
  induction n generalizing s tr with
  | zero =>
    cases hrun
    exact ⟨tr, h⟩
  | succ n ih =>
    simp only [runTx, Option.bind_eq_some_iff] at hrun
    obtain ⟨acc, -, r, htx, hrun⟩ := hrun
    exact ih (inv_tx h hpc hbuf htx) hpc hbuf hrun

/-- A commit, whatever decides where it ends. -/
theorem commit_cases (h : commit k L prog t n s = some c) :
    s.pc t = .idle ∧ s.buf t = [] ∧ runTx k L prog t n s = some c := by
  unfold commit at h
  split at h
  · rename_i hc
    obtain ⟨last, -, h⟩ := Option.bind_eq_some_iff.mp h
    obtain ⟨c', hrun, hc'⟩ := Option.bind_eq_some_iff.mp h
    split at hc'
    · cases hc'
    · cases hc'
      exact ⟨hc.1, hc.2, hrun⟩
  · cases h

/-- Every reachable state has its order. -/
theorem reach_inv (h : (sys k L nthr prog m₀).Reach s) : ∃ tr, Inv L m₀ s tr := by
  refine Trans.Sys.reach_of_inductive (I := fun s => ∃ tr, Inv L m₀ s tr) ?_ ?_ h
  · rintro s rfl
    exact ⟨[], inv_initial⟩
  · rintro s l s' - ⟨tr, hinv⟩ ⟨t, -, ⟨n, hst⟩ | hst | hst | hst⟩
    · obtain ⟨hpc, hbuf, hrun⟩ := commit_cases hst
      exact inv_runTx hinv hpc hbuf hrun
    · obtain ⟨acc, -, hst⟩ := Option.bind_eq_some_iff.mp hst
      exact ⟨tr, inv_call hinv hst⟩
    · exact ⟨_, inv_instr hinv hst⟩
    · exact ⟨tr, inv_drain hinv hst⟩

/-! ## 4. The accesses are the program's

This is not in the invariant of the seqlock, where a call may be anything.  Again a step says
something of one thread only. -/

/-- The access a thread is making. -/
def making : Seqlock.Pc Addr → Option (Acc Addr)
  | .idle => none
  | .read a _ => some (.read a)
  | .write a x _ => some (.write a x)

/-- What follows an instruction is of the same access. -/
def OfAcc (acc : Option (Acc Addr)) : Next Addr → Prop
  | .goto pc => making pc = acc
  | .ret .R a _ _ => acc = some (.read a)
  | .ret .W a _ x => acc = some (.write a x)

omit [DecidableEq Addr] in
/-- Every instruction of an access goes on with the same access or returns from it. -/
theorem code_ofAcc {pc : Seqlock.Pc Addr} {i : Instr (Mem Addr) (Store Addr) (Next Addr)}
    (hi : code L pc = some i) : i.All (OfAcc (making pc)) := by
  cases pc with
  | idle => cases hi
  | read a r =>
    cases hi
    cases r with
    | loadVersion =>
      intro m
      simp only
      split <;> rfl
    | loadVal v => exact fun m => rfl
    | check v x =>
      intro m
      simp only
      split <;> rfl
  | write a x w =>
    cases hi
    cases w with
    | inc1Store v n => rfl
    | storeVal v => rfl
    | fence v => rfl
    | inc2Store v n => rfl
    | unlock v => rfl
    | _ => exact fun m => rfl

/-- The accesses of a thread are those of its program so far, and it is making the next one. -/
structure Obeys (prog : Prog Addr) (s : Seqlock.State Addr) (t : Nat) : Prop where
  made : ∀ i e, (s.done t)[i]? = some e → prog (results ((s.done t).take i)) = some e.acc
  making : ∀ acc, making (s.pc t) = some acc → prog (results (s.done t)) = some acc

omit [DecidableEq Addr] in
/-- One more access, the program's next. -/
theorem Obeys.snoc {p : Prog Addr} (h : Obeys p s t) {e : Event Addr}
    (he : p (results (s.done t)) = some e.acc) (hdone : s'.done t = s.done t ++ [e])
    (hpc : s'.pc t = .idle) : Obeys p s' t := by
  refine ⟨?_, ?_⟩
  · intro i e' hi
    rw [hdone] at hi ⊢
    by_cases hlt : i < (s.done t).length
    · rw [List.getElem?_append_left hlt] at hi
      rw [List.take_append_of_le_length (by omega)]
      exact h.made i e' hi
    · rw [List.getElem?_append_right (by omega), List.getElem?_singleton] at hi
      split at hi
      · rename_i hz
        have hlen : i = (s.done t).length := by omega
        cases hi
        rw [hlen, List.take_left]
        exact he
      · cases hi
  · intro acc hacc
    rw [hpc] at hacc
    cases hacc

omit [DecidableEq Addr] in
/-- A step inside of an access. -/
theorem Obeys.congr {p : Prog Addr} (h : Obeys p s t) (hdone : s'.done t = s.done t)
    (hpc : Recorder.making (s'.pc t) = Recorder.making (s.pc t)) : Obeys p s' t := by
  refine ⟨?_, ?_⟩
  · rw [hdone]
    exact h.made
  · rw [hdone, hpc]
    exact h.making

/-- A write inside a transaction writes what the program asked for. -/
theorem tx_val {m : Mem Addr} {a : Addr} {y : Val} {r : Mem Addr × Int × Val}
    (h : k.tx L m (.write a y) = some r) : r.2.2 = y := by
  cases k with
  | seqlock => cases h
  | seqbatch => cases h
  | rtmseq => exact Rtm.Seq.tx_val h
  | rtmcluster =>
    simp only [tx, Cluster.tx, Cluster.memWriteTx] at h
    split at h
    · cases h
    · cases h
      rfl

/-- What a step of thread `t` does to the accesses: those of the others stay, `t`'s are the
program's. -/
structure Kept (prog : Nat → Prog Addr) (t : Nat) (s s' : Seqlock.State Addr) : Prop where
  same : SameBut t s s'
  obeys : Obeys (prog t) s t → Obeys (prog t) s' t

/-- A transaction makes the next accesses of the program. -/
theorem kept_runTx (hpc : s.pc t = .idle) (hrun : runTx k L prog t n s = some c) :
    Kept prog t s c := by
  induction n generalizing s with
  | zero =>
    cases hrun
    exact ⟨⟨fun _ _ => rfl, fun _ _ => rfl, fun _ _ => rfl⟩, id⟩
  | succ n ih =>
    simp only [runTx, Option.bind_eq_some_iff] at hrun
    obtain ⟨acc, hacc, r, htx, hrun⟩ := hrun
    have hfirst : SameBut t s (committed s t acc r.1 r.2.1 r.2.2) := sameBut_committed
    have hrest := ih (s := committed s t acc r.1 r.2.1 r.2.2) hpc hrun
    refine ⟨⟨?_, ?_, ?_⟩, ?_⟩
    · exact fun u hu => (hrest.same.pc u hu).trans (hfirst.pc u hu)
    · exact fun u hu => (hrest.same.buf u hu).trans (hfirst.buf u hu)
    · exact fun u hu => (hrest.same.done u hu).trans (hfirst.done u hu)
    · intro hob
      refine hrest.obeys (hob.snoc (e := s.event t acc.op acc.addr r.2.1 r.2.2) ?_ ?_ hpc)
      · rw [Rtm.Seq.event_acc (fun a y ha => tx_val (by rw [← ha]; exact htx))]
        exact hacc
      · simp [committed]

/-- A call is the program's next access. -/
theorem kept_call (hst : call prog t s = some s') : Kept prog t s s' := by
  obtain ⟨acc, hacc, hst⟩ := Option.bind_eq_some_iff.mp hst
  unfold State.call at hst
  split at hst
  · rename_i hpc
    cases hst
    refine ⟨⟨fun u hu => Function.update_of_ne hu _ _, fun _ _ => rfl, fun _ _ => rfl⟩, ?_⟩
    intro hob
    refine ⟨hob.made, ?_⟩
    intro acc' hacc'
    simp only [Function.update_self] at hacc'
    have hmk : making (Pc.start acc) = some acc := by cases acc <;> rfl
    rw [hmk] at hacc'
    cases hacc'
    exact hacc
  · cases hst

/-- An instruction goes on with the access, and the last one makes it. -/
theorem kept_instr (hst : s.instr L t = some s') : Kept prog t s s' := by
  simp only [State.instr, Option.bind_eq_some_iff, Option.map_eq_some_iff] at hst
  obtain ⟨i, hi, ⟨m, b, r⟩, htso, rfl⟩ := hst
  refine ⟨sameBut_advance m b r, ?_⟩
  intro hob
  have hof : OfAcc (making (s.pc t)) r := (code_ofAcc hi).tso htso
  cases r with
  | goto p =>
    refine hob.congr rfl ?_
    simp only [State.advance, Function.update_self]
    exact hof
  | ret op a v x =>
    refine hob.snoc (e := s.event t op a v x) ?_ (by simp [State.advance, State.event])
      (by simp [State.advance])
    refine hob.making _ ?_
    cases op <;> exact hof

/-- A drain changes memory and the buffer. -/
theorem kept_drain (hst : s.drain t = some s') : Kept prog t s s' := by
  unfold State.drain at hst
  split at hst
  · cases hst
  · cases hst
    exact ⟨sameBut_drain _ _, fun hob => hob.congr rfl rfl⟩

/-- Every step is a step of some thread, and keeps what there is to keep. -/
theorem kept_step {l : Option Unit} (hst : (sys k L nthr prog m₀).step s l s') :
    ∃ t < nthr, Kept prog t s s' := by
  obtain ⟨t, ht, ⟨n, hst⟩ | hst | hst | hst⟩ := hst
  · obtain ⟨hpc, -, hrun⟩ := commit_cases hst
    exact ⟨t, ht, kept_runTx hpc hrun⟩
  · exact ⟨t, ht, kept_call hst⟩
  · exact ⟨t, ht, kept_instr hst⟩
  · exact ⟨t, ht, kept_drain hst⟩

/-- In every reachable state the threads have followed their programs. -/
theorem reach_obeys (h : (sys k L nthr prog m₀).Reach s) (t : Nat) : Obeys (prog t) s t := by
  refine Trans.Sys.reach_of_inductive (I := fun s => Obeys (prog t) s t) ?_ ?_ h
  · rintro s rfl
    exact ⟨fun i e he => by simp [State.initial] at he, fun acc hacc => by cases hacc⟩
  · rintro s l s' - hob hst
    obtain ⟨u, -, hk⟩ := kept_step hst
    rcases eq_or_ne t u with rfl | hu
    · exact hk.obeys hob
    · exact hob.congr (hk.same.done t hu) (by rw [hk.same.pc t hu])

/-- A thread the process does not have makes no access. -/
theorem reach_idle (h : (sys k L nthr prog m₀).Reach s) (ht : nthr ≤ t) :
    s.pc t = .idle ∧ s.done t = [] := by
  refine Trans.Sys.reach_of_inductive (I := fun s => s.pc t = .idle ∧ s.done t = []) ?_ ?_ h
  · rintro s rfl
    exact ⟨rfl, rfl⟩
  · rintro s l s' - hold hst
    obtain ⟨u, hu, hk⟩ := kept_step hst
    have hne : t ≠ u := by omega
    rw [hk.same.pc t hne, hk.same.done t hne]
    exact hold

/-! ## 5. Complete runs

What the order of a complete run is, and what the threads have in their files. -/

/-- When no access is under way, memory holds the values of the order. -/
theorem Inv.val_of_idle (h : Inv L m₀ s tr) (hidle : ∀ t, s.pc t = .idle) :
    s.mem.val = (Shared.after L m₀ tr).mem := by
  funext a
  by_cases ho : ∃ t, Owner L s t (L.calcObjid a)
  · -- only the second increment and the release of a write are still buffered
    obtain ⟨t, ht⟩ := ho
    have hthr := h.thr t
    rw [Owner, hidle t] at ht
    rw [hidle t] at hthr
    have hmem := ht.resolve_left (by simp [Pc.holds])
    rcases hthr with hnil | ⟨o, ⟨hb, hat⟩ | ⟨hb, hat⟩⟩
    · rw [hnil] at hmem
      cases hmem
    · obtain rfl : L.calcObjid a = o := by simpa [hb] using hmem
      exact hat.2 a rfl
    · obtain rfl : L.calcObjid a = o := by simpa [hb] using hmem
      exact hat.2 a rfl
  · rw [not_exists] at ho
    exact (h.free _ ho).2 a rfl

/-- **A complete run is a recorded run.**  Its order is legal, it has every thread make the accesses
its program makes, and memory is what the order leaves. -/
theorem exists_run (h : (sys k L nthr prog m₀).Reach s) (hf : ∀ t < nthr, Finished prog s t) :
    ∃ R : Run L nthr prog m₀, (∀ t, thread t R.trace = s.done t) ∧ R.finalMem = s.mem.val := by
  obtain ⟨tr, hinv⟩ := reach_inv h
  have hidle : ∀ t, s.pc t = .idle := by
    intro t
    by_cases ht : t < nthr
    · exact (hf t ht).1
    · exact (reach_idle h (by omega)).1
  have hdone : ∀ t, thread t tr = s.done t := by
    intro t
    rw [hinv.effected t]
    simp [State.effected, hidle t]
  have hlt : ∀ e ∈ tr, e.tid < nthr := by
    intro e he
    by_contra hge
    have hmem : e ∈ thread e.tid tr := mem_thread.mpr ⟨he, rfl⟩
    rw [hdone, (reach_idle h (by omega)).2] at hmem
    cases hmem
  refine ⟨⟨tr, hinv.legal, hlt, ?_, ?_⟩, hdone, ?_⟩
  · intro pre e post heq
    have hth : thread e.tid tr = thread e.tid pre ++ e :: thread e.tid post := by
      rw [heq, thread_append, thread_cons, if_pos rfl]
      rfl
    have hget : (s.done e.tid)[(thread e.tid pre).length]? = some e := by
      rw [← hdone, hth]
      simp
    have := (reach_obeys h e.tid).made _ e hget
    rwa [← hdone, hth, List.take_left] at this
  · intro t ht
    rw [hdone]
    exact (hf t ht).2
  · exact (Inv.val_of_idle hinv hidle).symm

omit [DecidableEq Addr] in
/-- **The log files are those of the immediate recorder**, whether the order logs are taken at each
access, when a queue is full or at the end of a transaction. -/
theorem files_eq {inRtm : Nat → Bool} {es : List (Event Addr)} (h : Seen L es) :
    ∃ fin, k.files L inRtm es = some fin ∧ fin.waitVersion = (recordThr L es).waitVersion ∧
      fin.waitMemop = (recordThr L es).waitMemop := by
  cases k with
  | seqlock => exact ⟨_, rfl, rfl, rfl⟩
  | rtmseq => exact ⟨_, rfl, rfl, rfl⟩
  | seqbatch =>
    obtain ⟨d, fin, hd, hfin, hv, hm⟩ := seqbatch_finish h
    exact ⟨fin, by simp [files, hd, hfin], hv, hm⟩
  | rtmcluster =>
    obtain ⟨d, fin, hd, hfin, hv, hm⟩ := rtmcluster_finish inRtm h
    exact ⟨fin, by simp [files, hd, hfin], hv, hm⟩

end Order

/-! ## 6. Runs, executed

The steps as a function, and a run in which both ways are taken: each thread writes one object and
then reads the other's. -/

/-- What a thread does next. -/
inductive Act
  | commit (n : Nat)
  | call
  | instr
  | drain
deriving DecidableEq, Repr

def act (k : Recorder) (L : Layout Addr) (prog : Nat → Prog Addr) (s : Seqlock.State Addr) :
    Nat × Act → Option (Option Unit × Seqlock.State Addr)
  | (t, .commit n) => (commit k L prog t n s).map fun s' => (none, s')
  | (t, .call) => (call prog t s).map fun s' => (none, s')
  | (t, .instr) => (s.instr L t).map fun s' => (none, s')
  | (t, .drain) => (s.drain t).map fun s' => (none, s')

/-- What is executed is a step. -/
theorem step_act {k : Recorder} {L : Layout Addr} {nthr : Nat} {prog : Nat → Prog Addr}
    {m₀ : Addr → Val} {s s' : Seqlock.State Addr} {l : Option Unit} {p : Nat × Act}
    (hlt : p.1 < nthr) (h : act k L prog s p = some (l, s')) :
    (sys k L nthr prog m₀).step s l s' := by
  obtain ⟨t, a⟩ := p
  cases a with
  | commit n =>
    obtain ⟨s₁, hst, heq⟩ := Option.map_eq_some_iff.mp h
    cases heq
    exact ⟨t, hlt, Or.inl ⟨n, hst⟩⟩
  | call =>
    obtain ⟨s₁, hst, heq⟩ := Option.map_eq_some_iff.mp h
    cases heq
    exact ⟨t, hlt, Or.inr (Or.inl hst)⟩
  | instr =>
    obtain ⟨s₁, hst, heq⟩ := Option.map_eq_some_iff.mp h
    cases heq
    exact ⟨t, hlt, Or.inr (Or.inr (Or.inl hst))⟩
  | drain =>
    obtain ⟨s₁, hst, heq⟩ := Option.map_eq_some_iff.mp h
    cases heq
    exact ⟨t, hlt, Or.inr (Or.inr (Or.inr hst))⟩

/-- Thread 0 writes A and reads B, thread 1 writes B and reads A. -/
def litmusProg (t : Nat) : Prog Bool := fun rs =>
  match rs.length with
  | 0 => some (.write (t == 1) (if t = 1 then 2 else 1))
  | 1 => some (.read (t == 0))
  | _ => none

/-- Thread 0's write and thread 1's read commit as transactions, the other accesses fall back: thread
1 releases its write only after thread 0 has seen its odd version. -/
def litmusSched : List (Nat × Act) :=
  [(0, .commit 1), (1, .call)] ++ List.replicate 5 (1, .instr) ++ List.replicate 2 (1, .drain) ++
    List.replicate 4 (1, .instr) ++ [(0, .call), (0, .instr)] ++ List.replicate 2 (1, .drain) ++
    List.replicate 3 (0, .instr) ++ [(1, .commit 1)]

/-- The state after it. -/
def litmusEnd : Seqlock.State Bool :=
  ((Trans.runSched (act .rtmseq pairLayout litmusProg) litmusSched (.initial fun _ => 0)).map
    Prod.snd).getD (.initial fun _ => 0)

/-- The schedule is a run. -/
theorem litmus_reach : (sys .rtmseq pairLayout 2 litmusProg (fun _ => 0)).Reach litmusEnd := by
  have hsome : (Trans.runSched (act .rtmseq pairLayout litmusProg) litmusSched
      (.initial fun _ => 0)).isSome = true := by decide
  have hlt : ∀ p ∈ litmusSched, p.1 < 2 := by decide
  exact Trans.Sys.reach_end (fun q hq _ _ _ h => step_act (hlt q hq) h) rfl hsome

/-- And a complete one. -/
theorem litmus_finished : ∀ t < 2, Finished litmusProg litmusEnd t := by
  intro t ht
  match t, ht with
  | 0, _ => exact ⟨rfl, rfl⟩
  | 1, _ => exact ⟨rfl, rfl⟩

end Recorder

end MemOrder
