/-
# Every kind of step keeps the relation

The replayer on TSO makes the same stores as the sequentially consistent one, but they reach the
others later, and its increments are a load and a store.  `Rel` (in `Relation.lean`) relates it to
the replay in which every store happened when it went into its buffer.  This file shows that each
kind of step of the buffered machine keeps the relation to a replay that makes the same step or
none; `ReplayTso/Faithful.lean` then goes through the code once and says which kind each place is.

* An instruction without a store moves its own thread only (`Rel.quiet`).
* A store goes into the buffer and has happened on the other side: the value (`Rel.push_val`), the
  version (`Rel.push_version`), `memop` (`Rel.push_memop`), the cursor (`Rel.push_n`).
* A mutex operation is a locked instruction and takes place in memory (`Rel.exchange`).
* A drain is no step on the other side (`Rel.drain`): the store has happened already.

**What can go wrong, and why it does not.**  Between a store and its drain the other threads miss
it.  Missing a `memop` or a version makes a waiting thread wait longer and nothing else.  It would
be wrong for a thread that is PAST its wait to miss the version of its object or the value that came
with it.  For the version this is `ThrOk.seen`: nobody else has a version store for the object in a
buffer.  A step of another thread can break it only by pushing such a store, and only a writer at
`obj_version += 2` does, who is alone at the version of its object (`alone_of_atObj`, from
`Inv.alone_at_incVersion` of the other replayer).  For the value it is the order of the buffer: the
value store of a write is followed by its version store (`Pending`, `InOrder`), so it drains first.

**What the mutex has to do with it.**  The trylock of `next_reader_memop` empties the buffer of the
writer, so at its store the buffer is empty, at its version store it holds that one value store
(`noVer`), and at no time does a buffer hold two version stores for one object.
-/
import MemOrder.ReplayTso.Relation

namespace MemOrder.ReplayTso

open Tso
open Commit (Made)
open Replay (Failure)

variable {Addr : Type} [DecidableEq Addr] {L : Layout Addr} {nthr : Nat} {prog : Nat → Prog Addr}
  {m₀ : Addr → Val} {R : Run L nthr prog m₀} {logs : Nat → List ReplayWaitMemop}
  {s s' : State Addr} {c c' : Replay.State Addr} {t u o : Nat} {th : Thr Addr}
  {cth : Replay.Thr Addr}

/-! ## 1. The other threads

`ThrOk` speaks of a thread's own place, of what it has loaded, of its buffer, and of the version
stores in other buffers.  The frame lemmas ask of a step of another thread just what these mention:
the words that `u` has stores for and the version and cursor of the object `u` is at. -/

omit [DecidableEq Addr] in
/-- What a thread has loaded is about its own object and its own `memop`. -/
theorem Regs.congr {pc : Pc Addr} (h : Regs L c u pc) (hmemop : (c'.thr u).memop = (c.thr u).memop)
    (hver : ∀ a x w, pc.abs = .write a x w →
      c'.objVersion (L.calcObjid a) = c.objVersion (L.calcObjid a))
    (hn : ∀ a x w, pc.abs = .write a x w →
      (c'.readerLog (L.calcObjid a)).n = (c.readerLog (L.calcObjid a)).n) : Regs L c' u pc := by
  cases pc with
  | write a x w =>
    cases w with
    | loadN v => exact h.trans (hver a x _ rfl).symm
    | advanceStore ent k => exact h.trans (hn a x _ rfl).symm
    | incStore v => exact h.trans (hver a x _ rfl).symm
    | _ => trivial
  | incMemopStore k => exact h.trans hmemop.symm
  | _ => trivial

/-- A step of another thread leaves `u` as it is, if it leaves alone what `u` has in its buffer and
the object `u` is at, and hides no version from it. -/
theorem ThrOk.frame (h : ThrOk R s c u) (hthr : s'.thr u = s.thr u) (hbuf : s'.buf u = s.buf u)
    (hcthr : c'.thr u = c.thr u) (hm : s'.mem.memop u = s.mem.memop u)
    (hval : ∀ a x, Store.val a x ∈ s.buf u → c'.mem a = c.mem a)
    (hver : ∀ o, HasVer s u o ∨ AtObj L o (c.thr u).pc → c'.objVersion o = c.objVersion o)
    (hn : ∀ a x w, (c.thr u).pc = .write a x w →
      (c'.readerLog (L.calcObjid a)).n = (c.readerLog (L.calcObjid a)).n)
    (hseen : ∀ o w, AtObj L o (c.thr u).pc → HasVer s' w o → w = u)
    (hhist : ∀ r ∈ R.trace, r.tid = u → r.memop < (c.thr u).passed → ∀ w, w ≠ u →
      HasVer s' w (L.obj r) → r.version + 2 ≤ c'.objVersion (L.obj r)) : ThrOk R s' c' u := by
  have hhas : ∀ o, HasVer s' u o ↔ HasVer s u o := by
    intro o
    rw [HasVer, HasVer, hbuf]
  refine ⟨?_, ?_, ?_, ?_, ?_, ?_, ?_, ?_, ?_, ?_⟩
  · rw [hthr, hcthr]
    exact h.thr
  · rw [hthr]
    refine h.regs.congr (by rw [hcthr]) ?_ ?_
    · intro a x w hw
      exact hver _ (Or.inr (by rw [h.thr.pc, hw]; rfl))
    · intro a x w hw
      exact hn a x w (h.thr.pc.trans hw)
  -- a store in the buffer of `u` still has on the other side what it will put into memory
  · intro st hst
    rw [hbuf] at hst
    have hold := h.pending st hst
    cases st with
    | val a x => exact ⟨hold.1.trans (hval a x hst).symm, by rw [hcthr, hhas]; exact hold.2⟩
    | objVersion o v => exact hold.trans (hver o (Or.inl ⟨v, hst⟩)).symm
    | memop w k => exact ⟨hold.1, by rw [hcthr]; exact hold.2⟩
    | n o k =>
      obtain ⟨hk, a, x, ent, hpc, rfl⟩ := hold
      exact ⟨hk.trans (hn a x _ hpc).symm, a, x, ent, by rw [hcthr]; exact hpc, rfl⟩
    | mutex o b => exact hold
  · rw [hbuf]
    exact h.order
  · rw [hcthr, hbuf]
    exact h.drained
  · intro a x hpc o
    rw [hcthr] at hpc
    rw [hhas]
    exact h.noVer a x hpc o
  · rw [hcthr, view_memop_congr hm hbuf]
    exact h.memop
  · rw [hcthr, hm]
    exact h.memop_le
  · rw [hcthr]
    exact fun o hat w hw => hseen o w hat hw
  · rw [hcthr]
    exact hhist

/-- `ThrOk.frame` for a step that leaves all versions alone and puts no version store into a buffer,
which is every step but the one at `obj_version += 2`. -/
theorem ThrOk.frame_version (h : ThrOk R s c u) (hthr : s'.thr u = s.thr u)
    (hbuf : s'.buf u = s.buf u) (hcthr : c'.thr u = c.thr u)
    (hm : s'.mem.memop u = s.mem.memop u)
    (hval : ∀ a x, Store.val a x ∈ s.buf u → c'.mem a = c.mem a)
    (hver : c'.objVersion = c.objVersion)
    (hn : ∀ a x w, (c.thr u).pc = .write a x w →
      (c'.readerLog (L.calcObjid a)).n = (c.readerLog (L.calcObjid a)).n)
    (hhas : ∀ w o, HasVer s' w o → HasVer s w o) : ThrOk R s' c' u := by
  refine h.frame hthr hbuf hcthr hm hval (fun o _ => by rw [hver]) hn ?_ ?_
  · intro o w hat hw
    exact h.seen o hat w (hhas w o hw)
  · intro r hr hu hlt w hw hv
    rw [hver]
    exact h.history r hr hu hlt w hw (hhas w _ hv)

/-! ## 2. Instructions without a store

Loads, tests and calls.  The thread that steps shows its new place, the registers there, and, when
the place is past a wait, that it misses no version store (`hseen`, `hhist`); its buffer and memory
are as before. -/

/-- **An instruction of `t` without a store**, answered by a step that moves only `t`, or by none.
The places that `Pending` mentions, of a writer between its value and its version and of one that
has moved the cursor, are left by a store only, so the thread is not at one of them or stays there
(`hpc`). -/
theorem Rel.quiet (h : Rel R s c) (hthr : ThrRel th cth) (hmemop : cth.memop = (c.thr t).memop)
    (hregs : Regs L (c.setThr t cth) t th.pc)
    (hpc : cth.pc = (c.thr t).pc ∨ ((∀ a x, (c.thr t).pc ≠ .write a x .incVersion) ∧
      (∀ a x ent, (c.thr t).pc ≠ .write a x (.unlock (some ent))) ∧
      ∀ a x, cth.pc ≠ .write a x .incVersion))
    (hdrained : Drained cth.pc → s.buf t = [])
    (hseen : ∀ o, AtObj L o cth.pc → ∀ w, HasVer s w o → w = t)
    (hhist : ∀ r ∈ R.trace, r.tid = t → r.memop < cth.passed → ∀ w, w ≠ t →
      HasVer s w (L.obj r) → r.version + 2 ≤ c.objVersion (L.obj r)) :
    Rel R (s.moved t th) (c.setThr t cth) := by
  refine ⟨?_, h.val, h.version, h.behind, h.unique, h.n, h.mutex⟩
  intro u
  rcases eq_or_ne u t with rfl | hu
  · have hold := h.thr u
    -- the fields of `ThrOk` for `t`, in their order
    refine ⟨?_, ?_, ?_, hold.order, ?_, ?_, ?_, ?_, ?_, ?_⟩
    · simpa [State.moved] using hthr
    · simpa [State.moved] using hregs
    · intro st hst
      have hp := hold.pending st hst
      cases st with
      | val a x =>
        refine ⟨hp.1, ?_⟩
        rw [Replay.setThr_self]
        rcases hp.2 with hinc | hver
        · rcases hpc with hsame | ⟨hno, -, -⟩
          · exact Or.inl (hsame.trans hinc)
          · exact absurd hinc (hno a x)
        · exact Or.inr hver
      | objVersion o v => exact hp
      | memop w k =>
        refine ⟨hp.1, ?_⟩
        rw [Replay.setThr_self, hmemop]
        exact hp.2
      -- a cursor store waits behind its place, which the thread has not left
      | n o k =>
        obtain ⟨hk, a, x, ent, hat, ho⟩ := hp
        refine ⟨hk, a, x, ent, ?_, ho⟩
        rw [Replay.setThr_self]
        rcases hpc with hsame | ⟨-, hno, -⟩
        · exact hsame.trans hat
        · exact absurd hat (hno a x ent)
      | mutex o b => exact hp
    · rw [Replay.setThr_self]
      exact hdrained
    · intro a x hinc
      rw [Replay.setThr_self] at hinc
      rcases hpc with hsame | ⟨-, -, hno⟩
      · exact hold.noVer a x (hsame.symm.trans hinc)
      · exact absurd hinc (hno a x)
    · rw [Replay.setThr_self, hmemop]
      exact hold.memop
    · rw [Replay.setThr_self, hmemop]
      exact hold.memop_le
    · rw [Replay.setThr_self]
      exact hseen
    · rw [Replay.setThr_self]
      exact hhist
  · exact (h.thr u).frame_version (Function.update_of_ne hu _ _) rfl (Replay.setThr_ne _ _ hu) rfl
      (fun _ _ _ => rfl) rfl (fun _ _ _ _ => rfl) (fun _ _ hw => hw)

/-! ## 3. Stores into the buffer

A pushed store is at the end of its buffer, so its thread sees it and nobody else does.  For each of
the four kinds the thread that steps has to show `Pending` for the new store and for the old ones,
whose side conditions mention its place, and the order of its buffer. -/

section Push

variable {st st' : Store Addr}

omit [DecidableEq Addr] in
/-- The buffers after a push. -/
theorem mem_pushed : st' ∈ (s.pushed t st th).buf u ↔ st' ∈ s.buf u ∨ (u = t ∧ st' = st) := by
  rcases eq_or_ne u t with rfl | hu
  · simp [State.pushed]
  · simp [State.pushed, hu]

omit [DecidableEq Addr] in
/-- A push of another kind makes no version store. -/
theorem hasVer_pushed (hst : ∀ o v, st ≠ .objVersion o v) :
    HasVer (s.pushed t st th) u o ↔ HasVer s u o := by
  constructor
  · rintro ⟨v, hv⟩
    rcases mem_pushed.mp hv with hv | ⟨-, hv⟩
    · exact ⟨v, hv⟩
    · exact absurd hv.symm (hst o v)
  · rintro ⟨v, hv⟩
    exact ⟨v, mem_pushed.mpr (Or.inl hv)⟩

/-- Its own thread sees the pushed store. -/
theorem view_pushed : (s.pushed t st th).view t = (s.view t).store st := by
  simp only [State.view, State.pushed, Function.update_self]
  exact Tso.view_append _ _

/-- A store that is no version store: the version stores in the buffers, and so the fields of `Rel`
about them, are as before.  What is left is about the threads and about the location stored to. -/
theorem Rel.push_rest (h : Rel R s c) (hst : ∀ o v, st ≠ .objVersion o v)
    (hthr : ∀ u, ThrOk R (s.pushed t st th) c' u) (hver : c'.objVersion = c.objVersion)
    (hval : ∀ a, (∀ u x, Store.val a x ∉ (s.pushed t st th).buf u) → s.mem.val a = c'.mem a)
    (hn : ∀ o, (∀ u k, Store.n o k ∉ (s.pushed t st th).buf u) → s.mem.n o = (c'.readerLog o).n)
    (hmutex : ∀ o, (c'.readerLog o).mutex = (c.readerLog o).mutex) :
    Rel R (s.pushed t st th) c' := by
  refine ⟨hthr, hval, ?_, ?_, ?_, hn, ?_⟩
  · intro o ho
    rw [hver]
    exact h.version o (fun u hu => ho u ((hasVer_pushed hst).mpr hu))
  · intro u o hu
    rw [hver]
    exact h.behind u o ((hasVer_pushed hst).mp hu)
  · intro u w o hu hw
    exact h.unique u w o ((hasVer_pushed hst).mp hu) ((hasVer_pushed hst).mp hw)
  · intro o
    rw [hmutex]
    exact h.mutex o

/-- **`n++`**, the store of the incremented cursor.  The writer has come from its trylock without a
store, so this is the only store in its buffer.  No other thread is at a write of the object, so no
other thread's facts mention the cursor. -/
theorem Rel.push_n (h : Rel R s c) (hinv : Replay.Inv R logs c) {a : Addr} {x : Val}
    {ent : ReplayWaitMemop} (hpc : (c.thr t).pc = .write a x (.advance ent))
    (hth : ThrRel th { c.thr t with pc := .write a x (.unlock (some ent)) })
    (hthpc : th.pc = .write a x (.unlock (some ent))) :
    Rel R (s.pushed t (.n (L.calcObjid a) ((c.readerLog (L.calcObjid a)).n + 1)) th)
      ((c.setLog (L.calcObjid a) { c.readerLog (L.calcObjid a) with
          n := (c.readerLog (L.calcObjid a)).n + 1 }).setPc t (.write a x (.unlock (some ent)))) := by
  have hbuf : s.buf t = [] := (h.thr t).drained (by rw [hpc]; trivial)
  have hst : ∀ (o : Nat) (v : Int), (Store.n (L.calcObjid a)
      ((c.readerLog (L.calcObjid a)).n + 1) : Store Addr) ≠ .objVersion o v := by simp
  -- an object has one writer
  have hown : ∀ u b y w, (c.thr u).pc = .write b y w → u ≠ t → L.calcObjid b ≠ L.calcObjid a :=
    fun u b y w hu hne ho => hne (hinv.writer_unique hu hpc ho)
  refine h.push_rest hst ?_ rfl ?_ ?_ ?_
  · intro u
    rcases eq_or_ne u t with rfl | hu
    · have hold := h.thr u
      refine ⟨?_, ?_, ?_, ?_, ?_, ?_, ?_, ?_, ?_, ?_⟩
      · simpa [State.pushed] using hth
      · simp [State.pushed, hthpc, Regs]
      · intro st hst
        rcases mem_pushed.mp hst with hst | ⟨-, rfl⟩
        · rw [hbuf] at hst
          exact absurd hst (by simp)
        · exact ⟨by simp, a, x, ent, by simp, rfl⟩
      · simp [State.pushed, hbuf]
      · intro hd
        simp [Drained] at hd
      · intro b y hinc
        simp at hinc
      · rw [view_pushed]
        simpa [Mem.store] using hold.memop
      · simpa [State.pushed] using hold.memop_le
      · intro o hat w hw
        refine hold.seen o ?_ w ((hasVer_pushed hst).mp hw)
        rw [hpc]
        simpa [AtObj] using hat
      · intro r hr hru hlt w hw hv
        refine hold.history r hr hru ?_ w hw ((hasVer_pushed hst).mp hv)
        simpa [Replay.Thr.passed, hpc] using hlt
    · refine (h.thr u).frame_version (Function.update_of_ne hu _ _) (Function.update_of_ne hu _ _)
        (Replay.setPc_ne _ _ hu) rfl (fun _ _ _ => rfl) rfl ?_ (fun w o => (hasVer_pushed hst).mp)
      intro b y w hw
      rw [Replay.setPc_readerLog, Replay.setLog_ne _ _ (hown u b y w hw hu)]
  · intro b hb
    exact h.val b (fun u y hy => hb u y (mem_pushed.mpr (Or.inl hy)))
  · intro o ho
    by_cases hoa : o = L.calcObjid a
    · subst hoa
      exact absurd (mem_pushed.mpr (Or.inr ⟨rfl, rfl⟩)) (ho t _)
    · rw [Replay.setPc_readerLog, Replay.setLog_ne _ _ hoa]
      exact h.n o (fun u k hk => ho u k (mem_pushed.mpr (Or.inl hk)))
  · intro o
    rw [Replay.setPc_readerLog]
    rcases Replay.setLog_cases c (L.calcObjid a) o { c.readerLog (L.calcObjid a) with
      n := (c.readerLog (L.calcObjid a)).n + 1 } with ⟨rfl, hl⟩ | hl
    · rw [hl]
    · rw [hl]

/-- **`*addr = val`.**  The mutex has emptied the buffer.  On the other side the word changes at
once, so no other thread may have a store to it in its buffer: that would be by a writer of the same
object that is still at its version, or has not drained it, and `t` is past its own wait. -/
theorem Rel.push_val (h : Rel R s c) (hinv : Replay.Inv R logs c) {a : Addr} {x : Val}
    (hpc : (c.thr t).pc = .write a x .store) (hth : ThrRel th cth)
    (hthpc : th.pc = .write a x .incLoad) (hmemop : cth.memop = (c.thr t).memop) :
    Rel R (s.pushed t (.val a x) th)
      (Replay.State.setThr { c with mem := Function.update c.mem a x } t cth) := by
  have hbuf : s.buf t = [] := (h.thr t).drained (by rw [hpc]; trivial)
  have hst : ∀ (o : Nat) (v : Int), Store.val a x ≠ .objVersion o v := by simp
  have hcpc : cth.pc = .write a x .incVersion := by rw [hth.pc, hthpc]; rfl
  have hno : ∀ o, ¬ HasVer s t o := by
    rintro o ⟨v, hv⟩
    rw [hbuf] at hv
    exact absurd hv (by simp)
  refine h.push_rest hst ?_ rfl ?_ ?_ (fun _ => rfl)
  · intro u
    rcases eq_or_ne u t with rfl | hu
    · have hold := h.thr u
      refine ⟨?_, ?_, ?_, ?_, ?_, ?_, ?_, ?_, ?_, ?_⟩
      · simpa [State.pushed] using hth
      · simp [State.pushed, hthpc, Regs]
      · intro st hst
        rcases mem_pushed.mp hst with hst | ⟨-, rfl⟩
        · rw [hbuf] at hst
          exact absurd hst (by simp)
        · exact ⟨by simp, Or.inl (by simp [hcpc])⟩
      · simp [State.pushed, hbuf]
      · intro hd
        simp [Drained, hcpc] at hd
      · intro b y hinc o ho
        exact hno o ((hasVer_pushed hst).mp ho)
      · rw [view_pushed, Replay.setThr_self, hmemop]
        exact hold.memop
      · rw [Replay.setThr_self, hmemop]
        exact hold.memop_le
      · intro o hat w hw
        refine hold.seen o ?_ w ((hasVer_pushed hst).mp hw)
        rw [hpc]
        simpa [AtObj, hcpc] using hat
      · intro r hr hru hlt w hw hv
        refine hold.history r hr hru ?_ w hw ((hasVer_pushed hst).mp hv)
        simpa [Replay.Thr.passed, hpc, hcpc, hmemop] using hlt
    · refine (h.thr u).frame_version (Function.update_of_ne hu _ _) (Function.update_of_ne hu _ _)
        (Replay.setThr_ne _ _ hu) rfl ?_ rfl (fun _ _ _ _ => rfl) (fun w o => (hasVer_pushed hst).mp)
      intro b y hy
      -- another store to the word would be one of the same version
      have hne : b ≠ a := by
        rintro rfl
        obtain ⟨-, hinc | hver⟩ := (h.thr u).pending _ hy
        · exact hu (hinv.writer_unique hinc hpc rfl)
        · exact hu ((h.thr t).seen _ (by rw [hpc]; rfl) u hver)
      exact Function.update_of_ne hne _ _
  · intro b hb
    have hne : b ≠ a := by
      rintro rfl
      exact hb t x (mem_pushed.mpr (Or.inr ⟨rfl, rfl⟩))
    rw [Replay.setThr_mem]
    simp only [Function.update_of_ne hne]
    exact h.val b (fun u y hy => hb u y (mem_pushed.mpr (Or.inl hy)))
  · intro o ho
    exact h.n o (fun u k hk => ho u k (mem_pushed.mpr (Or.inl hk)))

/-- **`memop++`.**  Only the thread itself and the writers that wait for it look at its `memop`; a
smaller one makes them wait.  The value store of a write may still be in the buffer here, but its
version store is behind it by now. -/
theorem Rel.push_memop (h : Rel R s c) (hpc : (c.thr t).pc = .incMemop) (hth : ThrRel th cth)
    (hthpc : th.pc = .start) (hmemop : cth.memop = (c.thr t).memop + 1) :
    Rel R (s.pushed t (.memop t ((c.thr t).memop + 1)) th) (c.setThr t cth) := by
  have hst : ∀ (o : Nat) (v : Int),
      (Store.memop t ((c.thr t).memop + 1) : Store Addr) ≠ .objVersion o v := by simp
  have hcpc : cth.pc = .start := by rw [hth.pc, hthpc]; rfl
  refine h.push_rest hst ?_ rfl ?_ ?_ (fun _ => rfl)
  · intro u
    rcases eq_or_ne u t with rfl | hu
    · have hold := h.thr u
      refine ⟨?_, ?_, ?_, ?_, ?_, ?_, ?_, ?_, ?_, ?_⟩
      · simpa [State.pushed] using hth
      · simp [State.pushed, hthpc, Regs]
      · intro st hst'
        rcases mem_pushed.mp hst' with hst' | ⟨-, rfl⟩
        · have hp := hold.pending st hst'
          cases st with
          | val b y =>
            -- the thread is past `obj_version += 2`, so the version store is in the buffer
            refine ⟨hp.1, Or.inr ((hasVer_pushed hst).mpr (hp.2.resolve_left ?_))⟩
            rw [hpc]
            simp
          | objVersion o v => exact hp
          | memop w k =>
            refine ⟨hp.1, ?_⟩
            have := hp.2
            rw [Replay.setThr_self, hmemop]
            omega
          | n o k =>
            obtain ⟨-, b, y, ent, hat, -⟩ := hp
            rw [hpc] at hat
            cases hat
          | mutex o b => exact hp
        · exact ⟨rfl, by rw [Replay.setThr_self, hmemop]⟩
      · simp only [State.pushed, Function.update_self]
        refine List.pairwise_append.mpr ⟨hold.order, List.pairwise_singleton _ _, ?_⟩
        intro st _ st' hst'
        rw [List.mem_singleton] at hst'
        subst hst'
        cases st <;> trivial
      · intro hd
        simp [Drained, hcpc] at hd
      · intro b y hinc
        simp [hcpc] at hinc
      · rw [view_pushed, Replay.setThr_self, hmemop]
        simp [Mem.store]
      · have := hold.memop_le
        rw [Replay.setThr_self, hmemop]
        simp only [State.pushed]
        omega
      · intro o hat
        simp [AtObj, hcpc] at hat
      · intro r hr hru hlt w hw hv
        refine hold.history r hr hru ?_ w hw ((hasVer_pushed hst).mp hv)
        simpa [Replay.Thr.passed, hpc, hcpc, hmemop] using hlt
    -- another thread: its counter is not this one
    · exact (h.thr u).frame_version (Function.update_of_ne hu _ _) (Function.update_of_ne hu _ _)
        (Replay.setThr_ne _ _ hu) rfl (fun _ _ _ => rfl) rfl (fun _ _ _ _ => rfl)
        (fun w o => (hasVer_pushed hst).mp)
  · intro b hb
    exact h.val b (fun u y hy => hb u y (mem_pushed.mpr (Or.inl hy)))
  · intro o ho
    exact h.n o (fun u k hk => ho u k (mem_pushed.mpr (Or.inl hk)))

/-- Object `o` one write later. -/
def raise (c : Replay.State Addr) (o : Nat) : Replay.State Addr :=
  { c with objVersion := Function.update c.objVersion o (c.objVersion o + 2) }

omit [DecidableEq Addr] in
@[simp] theorem raise_thr : (raise c o).thr = c.thr := rfl

/-- **Nobody else is at the version a writer is about to raise.**  A thread past its wait is at an
access recorded at the object's version, on the other side, and there the writer is alone. -/
theorem alone_of_atObj (hinv : Replay.Inv R logs c) {a : Addr} {x : Val}
    (hpc : (c.thr t).pc = .write a x .incVersion) (hat : AtObj L (L.calcObjid a) (c.thr u).pc) :
    u = t := by
  have hp := (hinv.thr u).pc
  unfold Replay.PcInv at hp
  cases hu : (c.thr u).pc with
  | checkVersion acc =>
    rw [hu] at hat hp
    obtain ⟨e, hc, rfl, -, hver⟩ := hp
    exact hinv.alone_at_incVersion hpc hc ((Replay.calcObjid_acc L e).symm.trans hat) hver
  | load b =>
    rw [hu] at hat hp
    obtain ⟨e, hc, hacc, hver⟩ := hp
    have hb := (Replay.acc_eq_read hacc).2
    exact hinv.alone_at_incVersion hpc hc (by rw [Layout.obj, hb]; exact hat) hver
  | write b y w =>
    rw [hu] at hat
    exact hinv.writer_unique hu hpc hat
  | start => rw [hu] at hat; exact hat.elim
  | waitVersion acc => rw [hu] at hat; exact hat.elim
  | incMemop => rw [hu] at hat; exact hat.elim

/-- **`obj_version[objid] += 2`.**  This is the one step that hides something from others: from now
on the object's version on the other side is two more than what they see.  Whoever would mind is
past its wait for this object, and nobody but `t` is (`alone_of_atObj`).  The store is the only
version store for the object, since a thread past its wait misses none (`seen`) and has made none of
its own (`noVer`); so memory was level with the other side before (`version`) and is one write
behind now (`behind`).  The `history` of the others holds because what they have passed is not above
the version from which the writer raises it. -/
theorem Rel.push_version (h : Rel R s c) (hinv : Replay.Inv R logs c) {a : Addr} {x : Val}
    (hpc : (c.thr t).pc = .write a x .incVersion)
    (hth : ThrRel th { c.thr t with pc := .incMemop }) (hthpc : th.pc = .incMemopLoad) :
    Rel R (s.pushed t (.objVersion (L.calcObjid a) (c.objVersion (L.calcObjid a) + 2)) th)
      ((raise c (L.calcObjid a)).setPc t .incMemop) := by
  have hno := (h.thr t).noVer a x hpc
  have hseen : ∀ w, HasVer s w (L.calcObjid a) → w = t := (h.thr t).seen _ (by rw [hpc]; rfl)
  -- nobody has a version store for the object: nobody else since `t` is at it, and not `t` itself
  have hnone : ∀ w, ¬ HasVer s w (L.calcObjid a) := by
    intro w hw
    obtain rfl := hseen w hw
    exact hno _ hw
  -- the version stores now: the old ones, all for other objects, and the new one
  have hhas : ∀ u o, HasVer (s.pushed t (.objVersion (L.calcObjid a)
      (c.objVersion (L.calcObjid a) + 2)) th) u o →
      (HasVer s u o ∧ o ≠ L.calcObjid a) ∨ (u = t ∧ o = L.calcObjid a) := by
    rintro u o ⟨v, hv⟩
    rcases mem_pushed.mp hv with hv | ⟨hu, hv⟩
    · refine Or.inl ⟨⟨v, hv⟩, ?_⟩
      rintro rfl
      exact hnone u ⟨v, hv⟩
    · rw [Store.objVersion.injEq] at hv
      exact Or.inr ⟨hu, hv.1⟩
  have hver : ∀ o, o ≠ L.calcObjid a →
      ((raise c (L.calcObjid a)).setPc t .incMemop).objVersion o = c.objVersion o :=
    fun o ho => Function.update_of_ne ho _ _
  have hvera : ((raise c (L.calcObjid a)).setPc t .incMemop).objVersion (L.calcObjid a)
      = c.objVersion (L.calcObjid a) + 2 := by simp [raise]
  refine ⟨?_, ?_, ?_, ?_, ?_, ?_, h.mutex⟩
  · intro u
    rcases eq_or_ne u t with rfl | hu
    · have hold := h.thr u
      refine ⟨?_, ?_, ?_, ?_, ?_, ?_, ?_, ?_, ?_, ?_⟩
      · simpa [State.pushed] using hth
      · simp [State.pushed, hthpc, Regs]
      · intro st hst
        rcases mem_pushed.mp hst with hst | ⟨-, rfl⟩
        · have hp := hold.pending st hst
          cases st with
          -- the value store of this write: its version store is now behind it
          | val b y =>
            refine ⟨hp.1, Or.inr ?_⟩
            rcases hp.2 with hinc | hv
            · rw [hpc] at hinc
              cases hinc
              exact ⟨_, mem_pushed.mpr (Or.inr ⟨rfl, rfl⟩)⟩
            · exact absurd hv (hno _)
          | objVersion o v => exact absurd ⟨v, hst⟩ (hno o)
          | memop w k => simpa [Pending] using hp
          | n o k =>
            obtain ⟨-, b, y, ent, hat, -⟩ := hp
            rw [hpc] at hat
            cases hat
          | mutex o b => exact hp
        · exact hvera.symm
      · simp only [State.pushed, Function.update_self]
        -- the new store comes last, and no other version store is before it
        refine List.pairwise_append.mpr ⟨hold.order, List.pairwise_singleton _ _, ?_⟩
        intro st hst st' hst'
        rw [List.mem_singleton] at hst'
        subst hst'
        cases st with
        | objVersion o v => exact absurd ⟨v, hst⟩ (hno o)
        | _ => trivial
      · intro hd
        simp [Drained] at hd
      · intro b y hinc
        simp at hinc
      · rw [view_pushed]
        simpa [Mem.store] using hold.memop
      · simpa [State.pushed] using hold.memop_le
      · intro o hat
        simp [AtObj] at hat
      · intro r hr hru hlt w hw hv
        rcases hhas w _ hv with ⟨hv, ho⟩ | ⟨hwu, -⟩
        · rw [hver _ ho]
          refine hold.history r hr hru ?_ w hw hv
          -- the access that is over now is one of the object
          have hle : r.memop < (c.thr u).memop + 1 := by simpa [Replay.Thr.passed] using hlt
          have hne : r.memop ≠ (c.thr u).memop := by
            intro heq
            obtain ⟨e, hc, -, hea, -⟩ := hinv.writer hpc
            have hcr : Replay.Cur R c u r := by
              rw [Replay.Cur, ← heq, ← hru]
              exact R.legal.thread_getElem? hr
            rw [← hc.unique hcr, Layout.obj, hea] at ho
            exact ho rfl
          simp only [Replay.Thr.passed, hpc]
          omega
        · exact absurd hwu hw
    · have hold := h.thr u
      -- another thread: it is not at the object, so it does not matter to it that the version is
      -- raised
      refine hold.frame (Function.update_of_ne hu _ _) (Function.update_of_ne hu _ _)
        (Replay.setPc_ne _ _ hu) rfl (fun _ _ _ => rfl) ?_ (fun _ _ _ _ => rfl) ?_ ?_
      · intro o ho
        refine hver o ?_
        rintro rfl
        rcases ho with ho | hat
        · exact hnone u ho
        · exact hu (alone_of_atObj hinv hpc hat)
      · intro o w hat hw
        rcases hhas w o hw with ⟨hw, -⟩ | ⟨-, rfl⟩
        · exact hold.seen o hat w hw
        · exact absurd (alone_of_atObj hinv hpc hat) hu
      · intro r hr hru hlt w hw hv
        rcases hhas w _ hv with ⟨hv, ho⟩ | ⟨-, ho⟩
        · rw [hver _ ho]
          exact hold.history r hr hru hlt w hw hv
        · -- what `u` has passed is not above the version before
          have := hinv.ver.reached r hr (by rw [hru]; exact hlt)
          rw [ho] at this ⊢
          rw [hvera]
          split at this <;> omega
  · intro b hb
    exact h.val b (fun u y hy => hb u y (mem_pushed.mpr (Or.inl hy)))
  · intro o ho
    have hoa : o ≠ L.calcObjid a := by
      rintro rfl
      exact ho t ⟨_, mem_pushed.mpr (Or.inr ⟨rfl, rfl⟩)⟩
    rw [hver o hoa]
    refine h.version o ?_
    rintro u ⟨v, hv⟩
    exact ho u ⟨v, mem_pushed.mpr (Or.inl hv)⟩
  · intro u o hu
    rcases hhas u o hu with ⟨hu, ho⟩ | ⟨-, rfl⟩
    · rw [hver o ho]
      exact h.behind u o hu
    -- memory was level with `c` before, and is one write behind now
    · have hmem := h.version _ hnone
      have hnonneg := hinv.ver.nonneg (L.calcObjid a)
      rw [hvera]
      simp only [State.pushed]
      omega
  · intro u w o hu hw
    rcases hhas u o hu with ⟨hu, ho⟩ | ⟨rfl, rfl⟩
    · rcases hhas w o hw with ⟨hw, -⟩ | ⟨-, hoa⟩
      · exact h.unique u w o hu hw
      · exact absurd hoa ho
    · rcases hhas w _ hw with ⟨-, hoa⟩ | ⟨hw, -⟩
      · exact absurd rfl hoa
      · exact hw.symm
  · intro o ho
    exact h.n o (fun u k hk => ho u k (mem_pushed.mpr (Or.inl hk)))

end Push

/-! ## 4. The mutex

`pthread_mutex_trylock` and `pthread_mutex_unlock` are locked instructions.  They happen with an
empty buffer and in memory, on both sides at once. -/

/-- **A mutex operation**, taking (`b = true`) or releasing.  The thread's buffer is empty before
and after, which is what `Drained` records for the places up to the next store. -/
theorem Rel.exchange (h : Rel R s c) {a : Addr} {x : Val} {w : WPc} (w' : WPc) {b : Bool}
    (hbuf : s.buf t = []) (hpc : (s.thr t).pc = .write a x w)
    (hth : ThrRel th { c.thr t with pc := .write a x w'.abs })
    (hregs : Regs L (c.setLog (L.calcObjid a)
      { c.readerLog (L.calcObjid a) with mutex := b }) t th.pc) :
    Rel R (s.exchanged t (.mutex (L.calcObjid a) b) th)
      ((c.setLog (L.calcObjid a) { c.readerLog (L.calcObjid a) with mutex := b }).setPc t
        (.write a x w'.abs)) := by
  have hcpc : (c.thr t).pc = .write a x w.abs := by rw [(h.thr t).thr.pc, hpc]; rfl
  -- the mutex only: the cursors stay
  have hn : ∀ o, ((c.setLog (L.calcObjid a) { c.readerLog (L.calcObjid a) with mutex := b }).readerLog
      o).n = (c.readerLog o).n := by
    intro o
    rcases Replay.setLog_cases c (L.calcObjid a) o
      { c.readerLog (L.calcObjid a) with mutex := b } with ⟨rfl, hl⟩ | hl
    · rw [hl]
    · rw [hl]
  refine ⟨?_, h.val, h.version, h.behind, h.unique, ?_, ?_⟩
  · intro u
    rcases eq_or_ne u t with rfl | hu
    · have hold := h.thr u
      -- nothing is buffered, so most of `ThrOk` is about no store at all
      have hmem : (s.exchanged u (.mutex (L.calcObjid a) b) th).buf u = [] := hbuf
      refine ⟨?_, ?_, ?_, ?_, ?_, ?_, ?_, ?_, ?_, ?_⟩
      · simpa [State.exchanged] using hth
      · simp only [State.exchanged, Function.update_self]
        exact hregs.congr (by simp) (fun _ _ _ _ => rfl) (fun _ _ _ _ => rfl)
      · intro st hst
        rw [hmem] at hst
        exact absurd hst (by simp)
      · rw [hmem]
        exact List.Pairwise.nil
      · intro _
        exact hmem
      · rintro b' y - o ⟨v, hv⟩
        rw [hmem] at hv
        exact absurd hv (by simp)
      · have := hold.memop
        simp only [State.view, hbuf, view_nil] at this
        simp only [State.view, hmem, view_nil]
        simpa [State.exchanged, Mem.store] using this
      · simpa [State.exchanged, Mem.store] using hold.memop_le
      · intro o hat w'' hw
        refine hold.seen o ?_ w'' hw
        rw [hcpc]
        simpa [AtObj] using hat
      · intro r hr hru hlt w'' hw hv
        refine hold.history r hr hru ?_ w'' hw hv
        simpa [Replay.Thr.passed, hcpc] using hlt
    · exact (h.thr u).frame_version (Function.update_of_ne hu _ _) rfl (Replay.setPc_ne _ _ hu) rfl
        (fun _ _ _ => rfl) rfl (fun b' y w'' _ => hn _) (fun _ _ hw => hw)
  · intro o ho
    rw [Replay.setPc_readerLog, hn]
    exact h.n o ho
  · intro o
    rw [Replay.setPc_readerLog]
    by_cases hoa : o = L.calcObjid a
    · subst hoa
      simp [State.exchanged, Mem.store]
    · rw [Replay.setLog_ne _ _ hoa]
      simpa [State.exchanged, Mem.store, Function.update_of_ne hoa] using h.mutex o

/-! ## 5. Drains

A drain changes what the others see, and nothing on the other side.  The location it writes comes
level with the other side (`Pending`); the one thing to check is that what is left in the buffer is
still in order. -/

section Drain

variable {st st' : Store Addr} {b : List (Store Addr)}

/-- The buffers before a drain: what is left, and the store that has drained. -/
theorem mem_drained (hbuf : s.buf t = st :: b) :
    st' ∈ s.buf u ↔ st' ∈ (s.drained t st b).buf u ∨ (u = t ∧ st' = st) := by
  rcases eq_or_ne u t with rfl | hu
  · simp [State.drained, hbuf, or_comm]
  · simp [State.drained, hu]

/-- A drain makes no version store. -/
theorem hasVer_drained (hbuf : s.buf t = st :: b) (h : HasVer (s.drained t st b) u o) :
    HasVer s u o := by
  obtain ⟨v, hv⟩ := h
  exact ⟨v, (mem_drained hbuf).mpr (Or.inl hv)⟩

/-- **A store drains.**  A value store that stays behind keeps its version store behind it: the
drained store is at the head, and a version store does not stand ahead of the value store of its
write (`InOrder`).  When a version store drains it was the only one for its object, so `behind` has
nothing to say of the object any more and memory is level with the other side. -/
theorem Rel.drain (h : Rel R s c) (hbuf : s.buf t = st :: b) : Rel R (s.drained t st b) c := by
  have hpend : Pending L s c t st := (h.thr t).pending st (by rw [hbuf]; simp)
  have horder := (h.thr t).order
  rw [hbuf, List.pairwise_cons] at horder
  refine ⟨?_, ?_, ?_, ?_, ?_, ?_, ?_⟩
  · intro u
    rcases eq_or_ne u t with rfl | hu
    · have hold := h.thr u
      have hb : (s.drained u st b).buf u = b := by simp [State.drained]
      -- the thread that drains: its place and registers are not concerned
      refine ⟨hold.thr, hold.regs, ?_, ?_, ?_, ?_, ?_, ?_, ?_, ?_⟩
      · intro st' hst'
        have hp := hold.pending st' ((mem_drained hbuf).mpr (Or.inl hst'))
        cases st' with
        | val a x =>
          refine ⟨hp.1, hp.2.imp_right ?_⟩
          rintro ⟨v, hv⟩
          rcases (mem_drained hbuf).mp hv with hv | ⟨-, rfl⟩
          · exact ⟨v, hv⟩
          · -- the version store of the write is behind the value store
            rw [hb] at hst'
            exact absurd rfl (horder.1 _ hst')
        | _ => exact hp
      · rw [hb]
        exact horder.2
      · intro hd
        have := hold.drained hd
        rw [hbuf] at this
        cases this
      · intro a x hinc o ho
        exact hold.noVer a x hinc o (hasVer_drained hbuf ho)
      · have := hold.memop
        simp only [State.view, hbuf, view_cons] at this
        rw [State.view, hb]
        exact this
      · cases st with
        | memop w k =>
          obtain ⟨rfl, hk⟩ := hpend
          simpa [State.drained, Mem.store] using hk
        | _ => exact hold.memop_le
      · intro o hat w hw
        exact hold.seen o hat w (hasVer_drained hbuf hw)
      · intro r hr hru hlt w hw hv
        exact hold.history r hr hru hlt w hw (hasVer_drained hbuf hv)
    -- another thread: its own `memop` is not what drains
    · refine (h.thr u).frame_version rfl (Function.update_of_ne hu _ _) rfl ?_ (fun _ _ _ => rfl) rfl
        (fun _ _ _ _ => rfl) (fun w o hw => hasVer_drained hbuf hw)
      refine store_memop_of_ne _ _ ?_
      rintro k rfl
      exact hu hpend.1
  · intro a ha
    -- memory is level where the last store to the word has drained
    by_cases hst : ∃ x, st = .val a x
    · obtain ⟨x, rfl⟩ := hst
      simpa [State.drained, Mem.store] using hpend.1
    · rw [not_exists] at hst
      refine (store_val_of_ne _ _ hst).trans (h.val a ?_)
      intro u x hx
      rcases (mem_drained hbuf).mp hx with hx | ⟨-, hx⟩
      · exact ha u x hx
      · exact hst x hx.symm
  · intro o ho
    -- the same for the versions
    by_cases hst : ∃ v, st = .objVersion o v
    · obtain ⟨v, rfl⟩ := hst
      simpa [State.drained, Mem.store, Pending] using hpend
    · rw [not_exists] at hst
      refine (store_objVersion_of_ne _ _ hst).trans (h.version o ?_)
      rintro u ⟨v, hv⟩
      rcases (mem_drained hbuf).mp hv with hv | ⟨-, hv⟩
      · exact ho u ⟨v, hv⟩
      · exact hst v hv.symm
  · intro u o hu
    have hold := h.behind u o (hasVer_drained hbuf hu)
    have hne : ∀ v, st ≠ .objVersion o v := by
      -- the buffer had one version store for the object
      rintro v rfl
      obtain rfl := h.unique u t o (hasVer_drained hbuf hu) ⟨v, by rw [hbuf]; simp⟩
      obtain ⟨v', hv'⟩ := hu
      simp only [State.drained, Function.update_self] at hv'
      exact absurd rfl (horder.1 _ hv')
    have hmem := store_objVersion_of_ne s.mem st hne
    simp only [State.drained, hmem]
    exact hold
  · intro u w o hu hw
    exact h.unique u w o (hasVer_drained hbuf hu) (hasVer_drained hbuf hw)
  · intro o ho
    -- and for the cursors
    by_cases hst : ∃ k, st = .n o k
    · obtain ⟨k, rfl⟩ := hst
      simpa [State.drained, Mem.store] using hpend.1
    · rw [not_exists] at hst
      refine (store_n_of_ne _ _ hst).trans (h.n o ?_)
      intro u k hk
      rcases (mem_drained hbuf).mp hk with hk | ⟨-, hk⟩
      · exact ho u k hk
      · exact hst k hk.symm
  · intro o
    cases st with
    | mutex p busy => exact hpend.elim
    | _ => exact h.mutex o

end Drain

end MemOrder.ReplayTso
