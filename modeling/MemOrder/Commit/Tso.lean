/-
# The turns of `mem-replay-rtmcommit.c` on x86-TSO

The replayer hands the turn on with a plain store to `g_next_thr`, and a waiting thread takes it
with plain loads; there is no fence and no locked instruction.  Here the stores of a thread go
through its store buffer.

It makes no difference, and the reason is the order of the buffer.  At any time one thread at most,
the HOLDER, has anything in its buffer, and memory still says that the turn is the holder's; the
store that hands the turn on is the last one.  So whoever sees its own number in `g_next_thr` sees
everything that was stored before, and the state as the holder sees it is a state of the
sequentially consistent replayer.

The argument has three parts.  To the thread that executes it, an instruction on TSO is a step of
the sequentially consistent replayer, whatever the other buffers hold (`step_view`).  An instruction
of a thread that is NOT the holder looks at nothing that is still in the holder's buffer: such a
thread is between two blocks, where the only shared thing it reads is `g_next_thr`, and memory keeps
it waiting (`Holder.instr_other`).  A drain changes what memory holds and nothing of what the holder
sees (`Holder.drain`).  So every step on TSO is a step of the other replayer or none
(`Holder.step`), and a run of drains alone ends.
-/
import MemOrder.Commit.Exclusive
import MemOrder.Lib.Tso

namespace MemOrder.Commit.ReplayTso

open Tso
open Replay (Pc wrap resume)

variable {Addr : Type} [DecidableEq Addr]

/-! ## 1. The model

The instructions are those of `mem-replay-rtmcommit.c`, one load or one store each.  What is shared
goes through the store buffers: the data words, the cursor of the mapped commit log and
`g_next_thr`.  The counter `g_sim_bbcnt` is thread-local and is not. -/

/-- The data words, the cursor of `g_commit_log` and `g_next_thr`. -/
structure Mem (Addr : Type) where
  val : Addr → Val
  buf : Nat
  nextThr : Int

inductive Store (Addr : Type)
  | val (addr : Addr) (x : Val)
  | buf (p : Nat)
  | nextThr (tid : Int)
deriving DecidableEq, Repr

def Mem.store (m : Mem Addr) : Store Addr → Mem Addr
  | .val addr x => { m with val := Function.update m.val addr x }
  | .buf p => { m with buf := p }
  | .nextThr tid => { m with nextThr := tid }

/-- What follows an instruction. -/
inductive Next (Addr : Type)
  | goto (pc : Pc Addr)
  /-- `g_sim_bbcnt++` and the return of the access. -/
  | count (made : Made Addr)
  /-- One more turn of the wait loop. -/
  | spin
  /-- The assertion fails. -/
  | fail

/-- The instruction at a place, by a thread with counter `bbcnt` that has made the accesses `done`.
Where a step looks at nothing shared it is a load that is not used. -/
def code (log : List Int) (prog : Prog Addr) (tid bbcnt : Int) (done : List (Made Addr)) :
    Pc Addr → Option (Instr (Mem Addr) (Store Addr) (Next Addr))
  | .start => some <| .load fun _ =>
    match prog (done.map Made.res) with
    | some acc => if bbcnt.tmod rtmBatchN = 0 then .goto (.wait acc) else .goto (.check acc)
    | none => if bbcnt.tmod rtmBatchN ≠ 0 then .goto (.readEntry none) else .goto .finished
  | .wait acc => some <| .load fun m => if m.nextThr ≠ tid then .spin else .goto (.check acc)
  | .check acc => some <| .load fun m => if m.nextThr = tid then .goto (.access acc) else .fail
  | .access (.read a) => some <| .load fun m => .goto (.after ⟨.read a, some (m.val a)⟩)
  | .access (.write a x) => some <| .store (.val a x) (.goto (.after ⟨.write a x, none⟩))
  | .after made => some <| .load fun _ =>
    if bbcnt.tmod rtmBatchN = rtmBatchN - 1 then .goto (.readEntry (some made))
    else .goto (.count made)
  | .readEntry c => some <| .load fun m =>
    if m.buf + 1 > log.length then .goto (resume c) else .goto (.advance m.buf c)
  | .advance p c => some <| .store (.buf (p + 1)) (.goto (.setNext p c))
  | .setNext p c => some <| .store (.nextThr (log.getD p 0)) (.goto (resume c))
  | .count made => some <| .load fun _ => .count made
  | .finished => none

structure State (Addr : Type) where
  mem : Mem Addr
  sbuf : Nat → List (Store Addr)
  pc : Nat → Pc Addr
  bbcnt : Nat → Int
  done : Nat → List (Made Addr)

/-- What a thread does when it is scheduled. -/
inductive Outcome (σ : Type)
  | next (s : σ)
  | spin
  | fail
  | finished

namespace State

variable (log : List Int) (w : Option Nat) (prog : Nat → Prog Addr) (s : State Addr) (t : Nat)

/-- Memory as thread `t` sees it. -/
def view : Mem Addr := Tso.view Mem.store s.mem (s.sbuf t)

/-- The instruction thread `t` is at. -/
def instrAt : Option (Instr (Mem Addr) (Store Addr) (Next Addr)) :=
  code log (prog t) (tidT t) (s.bbcnt t) (s.done t) (s.pc t)

/-- Thread `t` goes on, memory and its buffer being `m` and `b`. -/
def advance (m : Mem Addr) (b : List (Store Addr)) : Next Addr → Outcome (State Addr)
  | .goto pc =>
    .next { s with mem := m, sbuf := Function.update s.sbuf t b, pc := Function.update s.pc t pc }
  | .count made =>
    .next { mem := m
            sbuf := Function.update s.sbuf t b
            pc := Function.update s.pc t .start
            bbcnt := Function.update s.bbcnt t (wrap w (s.bbcnt t + 1))
            done := Function.update s.done t (s.done t ++ [made]) }
  | .spin => .spin
  | .fail => .fail

/-- Thread `t` executes the instruction it is at.  None of them waits for the buffer. -/
def instr : Outcome (State Addr) :=
  match s.instrAt log prog t with
  | none => .finished
  | some i =>
    match i.tso Mem.store s.mem (s.sbuf t) with
    | none => .spin
    | some (m, b, r) => s.advance w t m b r

/-- The oldest store of thread `t` reaches memory. -/
def drain : Option (State Addr) :=
  match s.sbuf t with
  | [] => none
  | st :: b => some { s with mem := s.mem.store st, sbuf := Function.update s.sbuf t b }

end State

/-- `mem_init`: the first thread is read from the log.  An empty log cannot be mapped. -/
def memInit (m₀ : Addr → Val) : List Int → Option (State Addr)
  | [] => none
  | tid :: _ => some ⟨⟨m₀, 1, tid⟩, fun _ => [], fun _ => .start, fun _ => 0, fun _ => []⟩

/-- `nthr` replaying threads: any interleaving of instructions and drains. -/
def sys (nthr : Nat) (log : List Int) (w : Option Nat) (prog : Nat → Prog Addr) (m₀ : Addr → Val) :
    Trans.Sys (State Addr) Nat where
  init s := memInit m₀ log = some s
  step s l s' := ∃ t < nthr, l = some t ∧
    (s.instr log w prog t = .next s' ∨ s.drain t = some s')

/-! ## 2. The same code, sequentially consistent

With empty buffers the code is the one of `MemOrder.Commit.Replay`, instruction by instruction.
From this and from what a thread sees of its own stores it follows that a thread can not tell the
two machines apart by its own instructions; only what OTHERS have not drained yet can make a
difference. -/

/-- The state of the other replayer with memory `m`. -/
def State.at (s : State Addr) (m : Mem Addr) : Replay.State Addr :=
  ⟨m.val, m.buf, m.nextThr, s.pc, s.bbcnt, s.done⟩

section Sc

variable {log : List Int} {w : Option Nat} {prog : Nat → Prog Addr} {s s' : State Addr} {t u : Nat}
  {m : Mem Addr}

/-- A step of thread `t` with memory `m` and no buffers. -/
def scOutcome (log : List Int) (w : Option Nat) (prog : Nat → Prog Addr) (s : State Addr) (t : Nat)
    (m : Mem Addr) : Outcome (State Addr) :=
  match s.instrAt log prog t with
  | none => .finished
  | some i => s.advance w t (i.sc Mem.store m).1 [] (i.sc Mem.store m).2

/-- **The sequentially consistent replayer executes this code.**  One case for each place of the
code; both sides compute the same record. -/
theorem step_at (log : List Int) (w : Option Nat) (prog : Nat → Prog Addr) (s : State Addr) (t : Nat)
    (m : Mem Addr) : Replay.step log w prog (s.at m) t =
      match scOutcome log w prog s t m with
      | .next s' => .next (s'.at s'.mem)
      | .spin => .spin
      | .fail => .fail
      | .finished => .finished := by
  unfold scOutcome State.instrAt
  cases hpc : s.pc t with
  | start =>
    simp only [Replay.step, State.at, hpc, code, Instr.sc]
    split
    · split <;> simp_all [State.advance, Replay.State.goto]
    · split <;> simp_all [State.advance, Replay.State.goto]
  | wait acc =>
    simp only [Replay.step, State.at, hpc, code, Instr.sc]
    split <;> simp_all [State.advance, Replay.State.goto]
  | check acc =>
    simp only [Replay.step, State.at, hpc, code, Instr.sc]
    split <;> simp_all [State.advance, Replay.State.goto]
  | access acc =>
    cases acc <;> simp [Replay.step, State.at, hpc, code, Instr.sc, State.advance, Replay.State.goto,
      doAcc, Mem.store]
  | after made =>
    simp only [Replay.step, State.at, hpc, code, Instr.sc]
    split <;> simp_all [State.advance, Replay.State.goto]
  | readEntry c =>
    simp only [Replay.step, State.at, hpc, code, Instr.sc]
    split <;> simp_all [State.advance, Replay.State.goto]
  | advance p c =>
    simp [Replay.step, State.at, hpc, code, Instr.sc, State.advance, Replay.State.goto, Mem.store]
  | setNext p c =>
    simp [Replay.step, State.at, hpc, code, Instr.sc, State.advance, Replay.State.goto, Mem.store]
  | count made =>
    simp [Replay.step, State.at, hpc, code, Instr.sc, State.advance, Replay.State.goto]
  | finished => simp [Replay.step, State.at, hpc, code]

omit [DecidableEq Addr] in
/-- Every instruction is a load or a store. -/
theorem instrAt_plain {i : Instr (Mem Addr) (Store Addr) (Next Addr)}
    (h : s.instrAt log prog t = some i) : (∃ k, i = .load k) ∨ ∃ st r, i = .store st r := by
  unfold State.instrAt at h
  cases hpc : s.pc t with
  | access acc => cases acc <;> rw [hpc] at h <;> cases h <;> simp
  | finished => rw [hpc] at h; cases h
  | _ => rw [hpc] at h; cases h; simp

/-- What a thread goes on to, seen by itself: its buffer may as well have been drained before. -/
theorem advance_at (m : Mem Addr) (b : List (Store Addr)) (r : Next Addr) :
    (match s.advance w t m b r with
      | .next s' => .next (s'.at (s'.view t))
      | .spin => .spin
      | .fail => .fail
      | .finished => .finished : Replay.Outcome Addr) =
    match s.advance w t (Tso.view Mem.store m b) [] r with
      | .next s' => .next (s'.at s'.mem)
      | .spin => .spin
      | .fail => .fail
      | .finished => .finished := by
  cases r <;> simp [State.advance, State.at, State.view]

/-- **To the thread itself an instruction on TSO is a step of the other replayer.**  A load reads
through the buffer, and a store at the end of the buffer is in the view at once; so the instruction
does to the view what it does to a memory without buffers. -/
theorem step_view (log : List Int) (w : Option Nat) (prog : Nat → Prog Addr) (s : State Addr)
    (t : Nat) : Replay.step log w prog (s.at (s.view t)) t =
      match s.instr log w prog t with
      | .next s' => .next (s'.at (s'.view t))
      | .spin => .spin
      | .fail => .fail
      | .finished => .finished := by
  rw [step_at]
  unfold scOutcome State.instr
  cases hi : s.instrAt log prog t with
  | none => rfl
  | some i =>
    simp only
    cases htso : i.tso Mem.store s.mem (s.sbuf t) with
    | none => rcases instrAt_plain hi with ⟨k, rfl⟩ | ⟨st, r, rfl⟩ <;> cases htso
    | some x =>
      obtain ⟨m, b, r⟩ := x
      have hsc := Instr.tso_sc htso
      rw [← State.view] at hsc
      simp only [hsc]
      exact (advance_at m b r).symm

/-- An instruction changes nothing of another thread, and nothing of memory; at most it puts one
store at the end of the thread's own buffer. -/
theorem instr_frame (h : s.instr log w prog t = .next s') :
    (∀ u, u ≠ t → s'.sbuf u = s.sbuf u ∧ s'.pc u = s.pc u ∧ s'.bbcnt u = s.bbcnt u) ∧
      ((s'.mem = s.mem ∧ s'.sbuf t = s.sbuf t) ∨
        ∃ st r, s.instrAt log prog t = some (.store st r) ∧ s'.mem = s.mem ∧
          s'.sbuf t = s.sbuf t ++ [st]) := by
  unfold State.instr at h
  cases hi : s.instrAt log prog t with
  | none => rw [hi] at h; cases h
  | some i =>
    rw [hi] at h
    simp only at h
    cases htso : i.tso Mem.store s.mem (s.sbuf t) with
    | none => rw [htso] at h; cases h
    | some x =>
      obtain ⟨m, b, r⟩ := x
      rw [htso] at h
      have hframe : (∀ u, u ≠ t → s'.sbuf u = s.sbuf u ∧ s'.pc u = s.pc u ∧ s'.bbcnt u = s.bbcnt u) ∧
          s'.mem = m ∧ s'.sbuf t = b := by
        cases r with
        | goto pc =>
          cases h
          refine ⟨fun u hu => ?_, rfl, by simp⟩
          simp [Function.update_of_ne hu]
        | count made =>
          cases h
          refine ⟨fun u hu => ?_, rfl, by simp⟩
          simp [Function.update_of_ne hu]
        | spin => cases h
        | fail => cases h
      refine ⟨hframe.1, ?_⟩
      rw [hframe.2.1, hframe.2.2]
      rcases instrAt_plain hi with ⟨k, rfl⟩ | ⟨st, r', rfl⟩
      · cases htso
        exact Or.inl ⟨rfl, rfl⟩
      · cases htso
        exact Or.inr ⟨st, r, rfl, rfl, rfl⟩

end Sc

/-! ## 3. The holder

The invariant about the buffers.  It is stated for one thread `h`, and the clauses say in turn that
nobody else has a store to drain, that memory still gives the turn to `h`, that handing the turn on
comes last, and that the others are outside of their blocks.  With nothing to drain in any buffer it
holds of every `h`, and this is how it passes from one thread to the next (`Holder.switch`). -/

section Holder

variable {nthr k j t u h : Nat} {order : List Nat} {w : Option Nat} {prog : Nat → Prog Addr}
  {m₀ : Addr → Val} {s s' : State Addr} {log : List Int}

/-- Thread `h` is the one that may have stores in its buffer. -/
structure Holder (nthr : Nat) (s : State Addr) (h : Nat) : Prop where
  others : ∀ u, u ≠ h → s.sbuf u = []
  /-- Memory does not show the turn handed on. -/
  turn : s.sbuf h ≠ [] → s.mem.nextThr = h
  /-- The turn is handed to another thread last. -/
  last : ∀ b (tid : Int) b', s.sbuf h = b ++ .nextThr tid :: b' → b' ≠ [] → tid = h
  /-- Nobody else is inside a block. -/
  out : s.sbuf h ≠ [] → ∀ u < nthr, u ≠ h → ¬ (s.at s.mem).inBlock u

omit [DecidableEq Addr] in
/-- With all buffers empty anybody will do. -/
theorem Holder.switch (hh : Holder nthr s h) (hb : s.sbuf h = []) (t : Nat) : Holder nthr s t := by
  have hempty : ∀ u, s.sbuf u = [] := by
    intro u
    by_cases hu : u = h
    · rw [hu, hb]
    · exact hh.others u hu
  refine ⟨fun u _ => hempty u, fun hne => absurd (hempty t) hne, ?_, fun hne => absurd (hempty t) hne⟩
  intro b tid b' heq
  rw [hempty t] at heq
  simp at heq

theorem Holder.view_eq (hh : Holder nthr s h) (hb : s.sbuf h = []) (t : Nat) :
    s.view h = s.view t := by
  by_cases hth : t = h
  · rw [hth]
  · rw [State.view, State.view, hb, hh.others t hth]

/-- Who does not own the open block is not inside one. -/
theorem not_inBlock_of_not_owner {c : Replay.State Addr} (hg : Replay.Good nthr order w prog m₀)
    (hinv : Replay.InvAt order w prog m₀ k j c) (ht : t < nthr) (hno : ¬ Replay.Owner order k t) :
    ¬ c.inBlock t := by
  have hthr := hinv.thr t
  have hfits := hg.fits_made hinv ht
  rw [Replay.config_done] at hfits hthr
  unfold Replay.State.inBlock
  cases hpc : c.pc t with
  | start =>
    rw [hpc] at hthr hfits
    have hlen := hthr.2 hno
    simp only [Pc.pending, List.append_nil] at hlen hfits
    rw [hinv.cnt t]
    simpa using (Replay.tmod_eq_zero_iff hfits).mpr hlen
  | count m =>
    rw [hpc] at hthr hfits
    have hlen := hthr.2 hno
    simp only [Pc.pending, List.length_append, List.length_singleton, rtmBatchN] at hlen hfits
    rw [hinv.cnt t, Replay.tmod_of_lt hfits]
    simp only [rtmBatchN]
    omega
  | wait acc | finished => exact id
  | check acc | access acc => rw [hpc] at hthr; exact absurd hthr.2.1 hno
  | after m | readEntry c | advance p c | setNext p c => rw [hpc] at hthr; exact absurd hthr.1 hno

omit [DecidableEq Addr] in
/-- Only the owner of the open block stores: the places that store are those of an access, of the
cursor and of the turn, and all of them are inside a block. -/
theorem owner_of_store {m : Mem Addr} (hinv : ∀ u, Replay.PcInv order k j u ((s.at m).config.done u).length
    ((s.at m).config.next prog u) (s.pc u)) {st : Store Addr} {r : Next Addr}
    (hi : s.instrAt log prog t = some (.store st r)) : Replay.Owner order k t := by
  have hthr := hinv t
  unfold State.instrAt at hi
  cases hpc : s.pc t with
  | access acc => rw [hpc] at hthr; exact hthr.2.1
  | advance p c | setNext p c => rw [hpc] at hthr; exact hthr.1
  | _ => rw [hpc] at hi; cases hi

/-- An instruction of the holder.  It is a load, and nothing changes, or a store: then the holder
owns the open block, its turn has not been handed on, and so the new store may come last. -/
theorem Holder.instr_self (hh : Holder nthr s t) (hg : Replay.Good nthr order w prog m₀)
    (hinv : Replay.InvAt order w prog m₀ k j (s.at (s.view t)))
    (hst : s.instr log w prog t = .next s') : Holder nthr s' t := by
  obtain ⟨hframe, hload | ⟨st, r, hi, hmem, hbuf⟩⟩ := instr_frame hst
  · refine ⟨fun u hu => (hframe u hu).1.trans (hh.others u hu), ?_, ?_, ?_⟩
    · rw [hload.1, hload.2]
      exact hh.turn
    · rw [hload.2]
      exact hh.last
    · rw [hload.2]
      intro hne u hu hut
      have hout := hh.out hne u hu hut
      simp only [Replay.State.inBlock, State.at] at hout ⊢
      rw [(hframe u hut).2.1, (hframe u hut).2.2]
      exact hout
  -- a store: the thread owns the open block, and its turn is still its own
  · have ho : Replay.Owner order k t := owner_of_store hinv.thr hi
    have hturn : (s.view t).nextThr = t := hinv.turn t ho
    refine ⟨fun u hu => (hframe u hu).1.trans (hh.others u hu), ?_, ?_, ?_⟩
    · intro _
      rw [hmem]
      by_cases hb : s.sbuf t = []
      · rw [State.view, hb] at hturn
        exact hturn
      · exact hh.turn hb
    · intro b tid b' heq hb'
      rw [hbuf] at heq
      obtain ⟨b'', x, rfl⟩ : ∃ b'' x, b' = b'' ++ [x] := ⟨_, _, (List.dropLast_concat_getLast hb').symm⟩
      have hold : s.sbuf t = b ++ .nextThr tid :: b'' := by
        have := heq.trans (by simp : b ++ Store.nextThr tid :: (b'' ++ [x])
          = (b ++ .nextThr tid :: b'') ++ [x])
        exact (List.append_inj' this rfl).1
      by_cases hnil : b'' = []
      · -- the turn the holder sees is the one it has last handed on
        rw [hnil] at hold
        rw [State.view, hold, view_append] at hturn
        exact hturn
      · exact hh.last b tid b'' hold hnil
    · intro _ u hu hut
      have hno : ¬ Replay.Owner order k u := fun hou => hut (Replay.Owner.eq ho hou)
      have hout := not_inBlock_of_not_owner hg hinv hu hno
      simp only [Replay.State.inBlock, State.at] at hout ⊢
      rw [(hframe u hut).2.1, (hframe u hut).2.2]
      exact hout

/-- A thread outside a block, and not at its wait, looks at nothing shared and comes to its wait or to
the start of an access. -/
theorem instr_outside {m : Mem Addr} (hin : ¬ (s.at m).inBlock t) (hwait : ∀ acc, s.pc t ≠ .wait acc)
    (hst : s.instr log w prog t = .next s') (m' : Mem Addr) :
    s'.mem = s.mem ∧ s'.sbuf = s.sbuf ∧
      Replay.step log w prog (s.at m') t = .next (s'.at m') ∧
      ((∃ acc, s'.pc t = .wait acc) ∨ s'.pc t = .finished ∨
        ∃ made, s.pc t = .count made ∧ s'.pc t = .start ∧ s'.bbcnt t = wrap w (s.bbcnt t + 1)) := by
  unfold Replay.State.inBlock at hin
  simp only [State.at] at hin
  cases hpc : s.pc t with
  | start =>
    rw [hpc] at hin
    simp only [ne_eq, not_not] at hin
    simp only [State.instr, State.instrAt, hpc, code, Instr.tso, hin] at hst
    cases hp : prog t ((s.done t).map Made.res) with
    | none =>
      simp only [hp] at hst
      cases hst
      simp [Replay.step, State.at, hpc, hp, hin, Replay.State.goto]
    | some acc =>
      simp only [hp] at hst
      cases hst
      simp [Replay.step, State.at, hpc, hp, hin, Replay.State.goto]
  | count made =>
    simp only [State.instr, State.instrAt, hpc, code, Instr.tso] at hst
    cases hst
    simp [Replay.step, State.at, hpc, Replay.State.goto]
  | wait acc => exact absurd hpc (hwait acc)
  | finished =>
    simp only [State.instr, State.instrAt, hpc, code] at hst
    cases hst
  | check | access | after | readEntry | advance | setNext =>
    rw [hpc] at hin
    exact absurd trivial hin

/-- The counter of a thread that leaves a block behind is a multiple of the block size. -/
theorem tmod_count {m : Mem Addr} (hg : Replay.Good nthr order w prog m₀)
    (hinv : Replay.InvAt order w prog m₀ k j (s.at m)) (ht : t < nthr) {made : Made Addr}
    (hpc : s.pc t = .count made) (hin : ¬ (s.at m).inBlock t) :
    (wrap w (s.bbcnt t + 1)).tmod rtmBatchN = 0 := by
  have hcnt : s.bbcnt t = wrap w (s.done t).length := hinv.cnt t
  have hfits := hg.fits_made hinv ht
  have hlen : ((s.at m).config.done t).length = (s.done t).length + 1 := by
    rw [Replay.config_done]
    simp [State.at, hpc, Pc.pending]
  rw [hlen] at hfits
  simp only [Replay.State.inBlock, State.at, hpc, ne_eq, not_not] at hin
  rw [hcnt, Replay.tmod_of_lt hfits] at hin
  rw [hcnt, Replay.wrap_succ, Replay.tmod_eq_zero_iff hfits]
  simp only [rtmBatchN] at hin ⊢
  omega

/-- **An instruction of another thread**: it is between two blocks, and has to wait for the turn.
Waiting is the only thing it does with shared memory, and there it reads the number of the holder;
so it does the same to the memory that the holder sees. -/
theorem Holder.instr_other (hh : Holder nthr s h) (hb : s.sbuf h ≠ []) (hn : nthr ≤ 127)
    (hg : Replay.Good nthr order w prog m₀)
    (hinv : Replay.InvAt order w prog m₀ k j (s.at (s.view h))) (ht : t < nthr) (hne : t ≠ h)
    (hst : s.instr log w prog t = .next s') :
    Holder nthr s' h ∧
      Replay.step log w prog (s.at (s.view h)) t = .next (s'.at (s'.view h)) := by
  have hout := hh.out hb t ht hne
  -- had it been at its wait it would have spun: memory shows the holder's number
  have hwait : ∀ acc, s.pc t ≠ .wait acc := by
    intro acc hpc
    have hseen : (s.view t).nextThr = h := by
      rw [State.view, hh.others t hne]
      exact hh.turn hb
    have htid : tidT t = t := tidT_of_lt (by omega)
    have hspin := step_view log w prog s t
    rw [hst] at hspin
    have hne' : ¬ ((h : Int) = tidT t) := by rw [htid]; omega
    simp [Replay.step, State.at, hpc, hseen, hne'] at hspin
  obtain ⟨hmem, hbuf, hstep, hplace⟩ := instr_outside hout hwait hst (s.view h)
  have hview : s'.view h = s.view h := by rw [State.view, State.view, hmem, hbuf]
  refine ⟨?_, by rw [hview]; exact hstep⟩
  obtain ⟨hframe, -⟩ := instr_frame hst
  refine ⟨by rw [hbuf]; exact hh.others, by rw [hbuf, hmem]; exact hh.turn,
    by rw [hbuf]; exact hh.last, ?_⟩
  rw [hbuf]
  intro _ u hu huh
  -- the thread has not come into a block
  rcases eq_or_ne u t with rfl | hut
  · unfold Replay.State.inBlock
    simp only [State.at]
    rcases hplace with ⟨acc, hpc⟩ | hpc | ⟨made, hpc, hpc', hcnt⟩
    · rw [hpc]
      exact id
    · rw [hpc]
      exact id
    · rw [hpc', hcnt]
      simpa using tmod_count hg hinv hu hpc hout
  · have := hh.out hb u hu huh
    simp only [Replay.State.inBlock, State.at] at this ⊢
    rw [(hframe u hut).2.1, (hframe u hut).2.2]
    exact this

/-- A store drains, and it is the holder's.  If it hands the turn to another thread it was the last,
and the buffer is empty now; so there is nothing left to prove about the turn. -/
theorem Holder.drain (hh : Holder nthr s h) (hst : s.drain t = some s') :
    Holder nthr s' h ∧ s'.at (s'.view h) = s.at (s.view h) := by
  unfold State.drain at hst
  cases hb : s.sbuf t with
  | nil => rw [hb] at hst; cases hst
  | cons st b =>
    rw [hb] at hst
    cases hst
    have hth : t = h := by
      by_contra hne
      rw [hh.others t hne] at hb
      cases hb
    subst hth
    have hne : s.sbuf t ≠ [] := by rw [hb]; simp
    refine ⟨⟨fun u hu => (Function.update_of_ne hu _ _).trans (hh.others u hu), ?_, ?_, ?_⟩, ?_⟩
    · simp only [Function.update_self]
      intro hb'
      cases st with
      | nextThr tid => exact hh.last [] tid b hb hb'
      | _ => exact hh.turn hne
    · simp only [Function.update_self]
      intro b₁ tid b₂ heq
      exact hh.last (st :: b₁) tid b₂ (by rw [hb, heq]; rfl)
    · exact fun _ => hh.out hne
    · simp [State.at, State.view, hb]

/-! ## 4. Every run

Each step keeps the invariant, for some holder.  The number of stores to drain bounds how often the
other replayer can stand still. -/

/-- How many stores have not drained. -/
def State.buffered (nthr : Nat) (s : State Addr) : Nat := ∑ t ∈ Finset.range nthr, (s.sbuf t).length

/-- An instruction adds one store at most. -/
theorem instr_buffered (ht : t < nthr) (hst : s.instr log w prog t = .next s') :
    s'.buffered nthr ≤ s.buffered nthr + 1 := by
  obtain ⟨hframe, hbuf⟩ := instr_frame hst
  obtain ⟨r, hs', hs⟩ := Trans.sum_except (f := fun u => (s'.sbuf u).length)
    (g := fun u => (s.sbuf u).length) ht (fun u hu => by rw [(hframe u hu).1])
  unfold State.buffered
  rw [hs', hs]
  rcases hbuf with ⟨-, hsame⟩ | ⟨st, -, -, -, hmore⟩
  · rw [hsame]
    omega
  · rw [hmore, List.length_append, List.length_singleton]
    omega

/-- A drain takes one away. -/
theorem drain_buffered (ht : t < nthr) (hst : s.drain t = some s') :
    s'.buffered nthr < s.buffered nthr := by
  unfold State.drain at hst
  cases hb : s.sbuf t with
  | nil => rw [hb] at hst; cases hst
  | cons st b =>
    rw [hb] at hst
    cases hst
    obtain ⟨r, hs', hs⟩ := Trans.sum_except
      (f := fun u => (Function.update s.sbuf t b u).length) (g := fun u => (s.sbuf u).length) ht
      (fun u hu => by rw [Function.update_of_ne hu])
    unfold State.buffered
    rw [hs', hs, Function.update_self, hb, List.length_cons]
    omega

/-- **One step on TSO**: a step of the other replayer with at most one more store to drain, or a
drain. -/
theorem Holder.step (hh : Holder nthr s h) (hn : nthr ≤ 127) (hg : Replay.Good nthr order w prog m₀)
    (hinv : Replay.InvAt order w prog m₀ k j (s.at (s.view h))) {l : Option Nat}
    (hst : (sys nthr log w prog m₀).step s l s') :
    ∃ h', Holder nthr s' h' ∧
      ((s'.at (s'.view h') = s.at (s.view h) ∧ s'.buffered nthr < s.buffered nthr) ∨
        (s'.buffered nthr ≤ s.buffered nthr + 1 ∧
          ∃ t < nthr, Replay.step log w prog (s.at (s.view h)) t = .next (s'.at (s'.view h')))) := by
  obtain ⟨t, ht, -, hst | hst⟩ := hst
  · have hle := instr_buffered ht hst
    by_cases hself : t = h ∨ s.sbuf h = []
    · obtain ⟨hht, hview⟩ : Holder nthr s t ∧ s.view h = s.view t := by
        rcases hself with rfl | hb
        · exact ⟨hh, rfl⟩
        · exact ⟨hh.switch hb t, hh.view_eq hb t⟩
      rw [hview] at hinv ⊢
      have hstep := step_view log w prog s t
      rw [hst] at hstep
      exact ⟨t, hht.instr_self hg hinv hst, Or.inr ⟨hle, t, ht, hstep⟩⟩
    · rw [not_or] at hself
      obtain ⟨hh', hstep⟩ := hh.instr_other hself.2 hn hg hinv ht hself.1 hst
      exact ⟨h, hh', Or.inr ⟨hle, t, ht, hstep⟩⟩
  · obtain ⟨hh', hat⟩ := hh.drain hst
    exact ⟨h, hh', Or.inl ⟨hat, drain_buffered ht hst⟩⟩

/-- A state on TSO and the state of the other replayer that it stands for. -/
def Stands (nthr : Nat) (s : State Addr) (c : Replay.State Addr) : Prop :=
  ∃ h, Holder nthr s h ∧ c = s.at (s.view h)

omit [DecidableEq Addr] in
/-- The first states: nothing is buffered, and they are the same. -/
theorem stands_init (hs : memInit m₀ log = some s) :
    ∃ c, Replay.memInit m₀ log = some c ∧ c = s.at s.mem ∧ ∀ t, s.sbuf t = [] := by
  cases log with
  | nil => cases hs
  | cons tid log =>
    cases hs
    exact ⟨_, rfl, rfl, fun _ => rfl⟩

end Holder

end MemOrder.Commit.ReplayTso
