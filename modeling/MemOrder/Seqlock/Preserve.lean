/-
# Every instruction and every drain keeps the invariant

`mem_write` (`mem-record-seqlock.c`) takes the object's lock, makes its version odd, stores the
value, waits for its store buffer at the fence, makes the version even again and frees the lock by a
plain store.  `mem_read` loads the version, spins while it is odd, loads the value and loads the
version again.  This file goes through their instructions one by one, and through the three kinds of
buffered store, and shows that `Inv` is kept: `inv_instr`, `inv_drain` and `inv_call`, on which
`Total.lean` builds the order of a whole run.

Most instructions are invisible: memory and the order stay as they are and only the thread that
steps has something to show (`Inv.silent`).  What is left is

* the exchange that takes a lock (`inv_acquire`) and the drain that frees it (`inv_release`), where
  an object changes owner;
* the drains of a version and of a value (`inv_drain_data`), which touch only an object the thread
  owns;
* the fence (`inv_fence`), where the write enters the order, and the check that ends a read
  (`inv_instr_read`).

**Why the write may enter the order at its fence.**  The fence lets the instruction through only
when the buffer is empty, so the value is in memory and the version in memory is the order's plus
one.  Nothing of the write is visible before that under an even version: whoever sees the new value
sees an odd version first.  And nothing of the order is ahead of memory but that version: the second
increment brings it level again, and until it drains the object still has an owner.

**Why a read may enter the order at its check.**  A version that a thread sees as even is the
order's version, and what it sees of the value is the order's value (`Inv.view_even`).  So the load
of the value was right at the time, and the check finds the version unchanged, which means that no
write of the object has entered the order since.

Other threads' facts survive a step on an object they do not own by `ThrInv.frame`; for a reader
this is where versions only ever going up is used (`Frame.seen`).
-/
import MemOrder.Seqlock.Invariant

namespace MemOrder.Seqlock

open Tso

variable {Addr : Type} [DecidableEq Addr]

/-! ## 1. A step on one object, seen by the threads that do not own it

A thread's facts speak of its own buffer, of the object it owns, and, for a reader, of the object it
reads, which another thread may own.  The first two are untouched by a step on an object it does not
own.  For the third, a step may move the version past the one the reader holds, but never back, and
where it leaves the version alone it leaves the order's values alone too.  `Frame` says this of two
pairs of memory and order, and the lemmas below carry each part of `ThrInv` across. -/

section Frame

variable {L : Layout Addr} {m m' : Mem Addr} {sh sh' : Shared Addr} {buf : List (Store Addr)}
  {o₁ : Nat}

/-- Memory and the order change on object `o₁` only, and there a reader's even version is overtaken
or nothing it relies on has changed.  The version is asked to be even because the fence moves the
order under an odd version: a reader never holds one, so it is not concerned. -/
structure Frame (L : Layout Addr) (o₁ : Nat) (m m' : Mem Addr) (sh sh' : Shared Addr) : Prop where
  version : ∀ o, o ≠ o₁ → m'.version o = m.version o
  val : ∀ a, L.calcObjid a ≠ o₁ → m'.val a = m.val a
  ver : ∀ o, o ≠ o₁ → sh'.ver o = sh.ver o
  mem : ∀ a, L.calcObjid a ≠ o₁ → sh'.mem a = sh.mem a
  seen : ∀ v, v % 2 = 0 → v ≤ m.version o₁ → v ≤ m'.version o₁ ∧
    (m'.version o₁ = v → m.version o₁ = v ∧ ∀ a, L.calcObjid a = o₁ → sh'.mem a = sh.mem a)

omit [DecidableEq Addr] in
/-- An object other than `o₁` stands to the order as before. -/
theorem At.frame (hf : Frame L o₁ m m' sh sh') {o : Nat} {d : Int} (ho : o ≠ o₁)
    (h : At L m sh o d) : At L m' sh' o d := by
  refine ⟨by rw [hf.version o ho, hf.ver o ho]; exact h.1, ?_⟩
  intro a ha
  rw [hf.val a (by rw [ha]; exact ho), hf.mem a (by rw [ha]; exact ho)]
  exact h.2 a ha

omit [DecidableEq Addr] in
/-- The same for an object whose value is stored and whose write has not entered the order. -/
theorem Written.frame (hf : Frame L o₁ m m' sh sh') {a : Addr} {x : Val}
    (ho : L.calcObjid a ≠ o₁) (h : Written L m sh a x) : Written L m' sh' a x := by
  obtain ⟨h1, h2, h3⟩ := h
  refine ⟨by rw [hf.version _ ho, hf.ver _ ho]; exact h1, by rw [hf.val a ho]; exact h2, ?_⟩
  intro b hb hba
  rw [hf.val b (by rw [hba]; exact ho), hf.mem b (by rw [hba]; exact ho)]
  exact h3 b hb hba

omit [DecidableEq Addr] in
/-- What a thread still has to release is not `o₁`, so it stands as before. -/
theorem Tail.frame (hf : Frame L o₁ m m' sh sh') (ho : Store.writeLock o₁ false ∉ buf)
    (h : Tail L m sh buf) : Tail L m' sh' buf := by
  rcases h with rfl | ⟨o, ⟨rfl, hat⟩ | ⟨rfl, hat⟩⟩
  · exact Or.inl rfl
  · have hne : o ≠ o₁ := by rintro rfl; simp at ho
    exact Or.inr ⟨o, Or.inl ⟨by rw [hf.ver o hne], hat.frame hf hne⟩⟩
  · have hne : o ≠ o₁ := by rintro rfl; simp at ho
    exact Or.inr ⟨o, Or.inr ⟨rfl, hat.frame hf hne⟩⟩

/-- The version a thread sees depends on that object's version in memory only. -/
theorem view_version_congr {o : Nat} : ∀ (buf : List (Store Addr)) {m m' : Mem Addr},
    m'.version o = m.version o →
    (Tso.view Mem.store m' buf).version o = (Tso.view Mem.store m buf).version o
  | [], _, _, h => h
  | st :: buf, m, m', h => by
    rw [view_cons, view_cons]
    refine view_version_congr buf ?_
    cases st with
    | val a x => exact h
    | writeLock o' b => exact h
    | version o' n =>
      by_cases ho : o = o'
      · subst ho; simp [Mem.store]
      · simp [Mem.store, Function.update_of_ne ho, h]

/-- **A reader survives a step on an object it does not own.**  On another object it sees what it
saw.  On `o₁` it has nothing buffered, so it sees memory, and `Frame.seen` says what may have
happened there: either the version it holds has been overtaken, and its check will fail, or the
order's value is still the one it loaded. -/
theorem RInv.frame (hf : Frame L o₁ m m' sh sh') (ho : Store.writeLock o₁ false ∉ buf)
    (ht : Tail L m sh buf) {a : Addr} {r : RPc} (h : RInv L m sh buf a r) :
    RInv L m' sh' buf a r := by
  by_cases hoa : L.calcObjid a = o₁
  · -- the thread sees memory
    have hview : (Tso.view Mem.store m buf).version o₁ = m.version o₁ :=
      (ht.view_version o₁).resolve_right (fun hc => ho hc.1)
    have hview' : (Tso.view Mem.store m' buf).version o₁ = m'.version o₁ :=
      ((ht.frame hf ho).view_version o₁).resolve_right (fun hc => ho hc.1)
    cases r with
    | loadVersion => trivial
    | loadVal v =>
      simp only [RInv, hoa, hview, hview'] at h ⊢
      exact ⟨h.1, (hf.seen v h.1 h.2).1⟩
    | check v x =>
      simp only [RInv, hoa, hview, hview'] at h ⊢
      obtain ⟨h2, hle, hval⟩ := h
      refine ⟨h2, (hf.seen v h2 hle).1, ?_⟩
      intro heq
      obtain ⟨hold, hmem⟩ := (hf.seen v h2 hle).2 heq
      rw [hmem a hoa]
      exact hval hold
  -- another object: the version it sees has not moved
  · have hview := view_version_congr (o := L.calcObjid a) buf (hf.version _ hoa)
    cases r with
    | loadVersion => trivial
    | loadVal v => simpa only [RInv, hview] using h
    | check v x => simpa only [RInv, hview, hf.mem a hoa] using h

omit [DecidableEq Addr] in
/-- A writer's facts are about the object whose lock it holds, which is not `o₁`; before the
exchange they are `Tail`. -/
theorem WInv.frame (hf : Frame L o₁ m m' sh sh') {a : Addr} {x : Val} {w : WPc}
    (ho : ¬ Owns L (.write a x w) buf o₁) (h : WInv L m sh buf a x w) :
    WInv L m' sh' buf a x w := by
  have hbuf : Store.writeLock o₁ false ∉ buf := fun hc => ho (Or.inr hc)
  cases w with
  | lock => exact Tail.frame hf hbuf h
  | lockSpin => exact Tail.frame hf hbuf h
  -- the lock is held from here on, so the object is not `o₁`
  | _ =>
    all_goals
      have hoa : L.calcObjid a ≠ o₁ := fun hc => ho (Or.inl (by simp [Pc.holds, WPc.locked, hc]))
      have hver : sh'.ver (L.calcObjid a) = sh.ver (L.calcObjid a) := hf.ver _ hoa
      simp only [WInv, hver] at h ⊢
      first
        | exact ⟨h.1, h.2.1.frame hf hoa, h.2.2⟩
        | exact ⟨h.1, h.2.frame hf hoa⟩
        | exact ⟨h.1, h.2.imp (And.imp_right (At.frame hf hoa)) (And.imp_right (At.frame hf hoa))⟩
        | exact ⟨h.1, h.2.imp (And.imp_right (At.frame hf hoa))
            (Or.imp (And.imp_right (At.frame hf hoa)) (And.imp_right (Written.frame hf hoa)))⟩

/-- **Frame.**  A thread's facts survive a step on an object it does not own. -/
theorem ThrInv.frame (hf : Frame L o₁ m m' sh sh') {pc : Pc Addr} (ho : ¬ Owns L pc buf o₁)
    (h : ThrInv L m sh buf pc) : ThrInv L m' sh' buf pc := by
  have hbuf : Store.writeLock o₁ false ∉ buf := fun hc => ho (Or.inr hc)
  cases pc with
  | idle => exact Tail.frame hf hbuf h
  | read a r => exact ⟨h.1.frame hf hbuf, h.2.frame hf hbuf h.1⟩
  | write a x w => exact WInv.frame hf ho h

/-- The locks are nobody's business but the owners': no thread's facts mention the lock words, which
`Inv.lock` ties to the owners once for all threads. -/
theorem ThrInv.store_lock {pc : Pc Addr} {o : Nat} {b : Bool} (h : ThrInv L m sh buf pc) :
    ThrInv L (m.store (.writeLock o b)) sh buf pc := by
  cases pc with
  | idle => exact h
  | read a r =>
    have hview := view_version_congr (o := L.calcObjid a) buf
      (show (m.store (.writeLock o b)).version (L.calcObjid a) = m.version (L.calcObjid a) from rfl)
    refine ⟨h.1, ?_⟩
    cases r with
    | loadVersion => trivial
    | loadVal v => simpa only [RInv, hview] using h.2
    | check v x => simpa only [RInv, hview] using h.2
  | write a x w => cases w <;> exact h

end Frame

/-! ## 2. Steps of one thread

What a step of thread `t` leaves alone is the same for all of them: the places, buffers and results
of the others (`SameBut`).  `Inv.step_rule` is the invariant rule for every step after which each
object has the owner it had: it asks for the order to stay legal, for what `t` has in the order to
match its results, for the objects without an owner, for the frame of the other threads and for the
facts of `t` itself.  Only the exchange and the drain of a release, which change owners, are proved
part by part. -/

section Steps

variable {L : Layout Addr} {m₀ : Addr → Val} {s s' : State Addr} {tr es : List (Event Addr)}
  {t u o : Nat}

/-- The states differ on thread `t` and in memory only. -/
structure SameBut (t : Nat) (s s' : State Addr) : Prop where
  pc : ∀ u, u ≠ t → s'.pc u = s.pc u
  buf : ∀ u, u ≠ t → s'.buf u = s.buf u
  done : ∀ u, u ≠ t → s'.done u = s.done u

omit [DecidableEq Addr] in
/-- The others own what they owned. -/
theorem SameBut.owner (hs : SameBut t s s') (hu : u ≠ t) : Owner L s' u o ↔ Owner L s u o := by
  rw [Owner, Owner, hs.pc u hu, hs.buf u hu]

omit [DecidableEq Addr] in
/-- The others have the accesses in the order that they had. -/
theorem SameBut.effected (hs : SameBut t s s') (hu : u ≠ t) : s'.effected u = s.effected u := by
  simp only [State.effected, State.event, hs.pc u hu, hs.done u hu]

omit [DecidableEq Addr] in
/-- An instruction replaces memory, and the buffer and the place of its own thread. -/
theorem sameBut_advance (m : Mem Addr) (b : List (Store Addr)) (n : Next Addr) :
    SameBut t s ({ s with mem := m, buf := Function.update s.buf t b }.advance t n) := by
  refine ⟨fun u hu => ?_, fun u hu => ?_, fun u hu => ?_⟩ <;> cases n <;>
    simp [State.advance, Function.update_of_ne hu]

/-- The order grows by accesses of the thread that steps, and by those its results and its place
account for; so every thread still has the order's accesses of its own. -/
theorem Inv.effected_step (h : Inv L m₀ s tr) (hs : SameBut t s s') (hes : ∀ e ∈ es, e.tid = t)
    (heff : s'.effected t = s.effected t ++ es) (u : Nat) :
    thread u (tr ++ es) = s'.effected u := by
  rw [thread_append, h.effected u]
  by_cases hu : u = t
  · subst hu
    rw [heff, thread, List.filter_eq_self.mpr (fun e he => by simp [hes e he])]
  · rw [hs.effected hu, thread, List.filter_eq_nil_iff.mpr, List.append_nil]
    intro e he
    rw [hes e he]
    simpa using Ne.symm hu

/-- **The step rule**, where no object changes owner.  Exclusion and the lock words then carry over
as they are, and what remains is about memory, the order and the thread that steps. -/
theorem Inv.step_rule (h : Inv L m₀ s tr) (es : List (Event Addr)) (hs : SameBut t s s')
    (hlegal : Legal L m₀ (tr ++ es)) (hes : ∀ e ∈ es, e.tid = t)
    (heff : s'.effected t = s.effected t ++ es)
    (hlock : s'.mem.writeLock = s.mem.writeLock)
    (hown : ∀ o, Owner L s' t o ↔ Owner L s t o)
    (hfree : ∀ o, (∀ u, ¬ Owner L s u o) → At L s'.mem (Shared.after L m₀ (tr ++ es)) o 0)
    (hother : ∀ u, u ≠ t →
      ThrInv L s'.mem (Shared.after L m₀ (tr ++ es)) (s.buf u) (s.pc u))
    (hthr : ThrInv L s'.mem (Shared.after L m₀ (tr ++ es)) (s'.buf t) (s'.pc t)) :
    Inv L m₀ s' (tr ++ es) := by
  have howner : ∀ u o, Owner L s' u o ↔ Owner L s u o := by
    intro u o
    by_cases hu : u = t
    · subst hu; exact hown o
    · exact hs.owner hu
  refine ⟨hlegal, h.effected_step hs hes heff, ?_, ?_, ?_, ?_⟩
  · intro o
    rw [hlock, h.lock o]
    exact exists_congr (fun u => (howner u o).symm)
  · intro u v o hu hv
    exact h.excl u v o ((howner u o).mp hu) ((howner v o).mp hv)
  · intro o ho
    exact hfree o (fun u hu => ho u ((howner u o).mpr hu))
  · intro u
    by_cases hu : u = t
    · subst hu; exact hthr
    · rw [hs.buf u hu, hs.pc u hu]
      exact hother u hu

/-- An invisible step: memory and the order are unchanged, so the others have nothing to show and
the thread that steps shows that its facts hold at its new place. -/
theorem Inv.silent (h : Inv L m₀ s tr) (hs : SameBut t s s') (hm : s'.mem = s.mem)
    (heff : s'.effected t = s.effected t) (hown : ∀ o, Owner L s' t o ↔ Owner L s t o)
    (hthr : ThrInv L s.mem (Shared.after L m₀ tr) (s'.buf t) (s'.pc t)) : Inv L m₀ s' tr := by
  have := h.step_rule [] hs (by simpa using h.legal) (by simp) (by simpa using heff)
    (by rw [hm]) hown (by simpa [hm] using h.free) (fun u _ => by simpa [hm] using h.thr u)
    (by simpa [hm] using hthr)
  simpa using this

/-- Outside a critical section a thread's facts are `Tail` and what a reader holds. -/
theorem ThrInv.tail {m : Mem Addr} {sh : Shared Addr} {buf : List (Store Addr)} {pc : Pc Addr}
    (h : ThrInv L m sh buf pc) (hpc : pc.holds L = none) : Tail L m sh buf := by
  cases pc with
  | idle => exact h
  | read a r => exact h.1
  | write a x w => cases w <;> first | exact h | simp [Pc.holds, WPc.locked] at hpc

/-- An access that enters the order at the object's version is legal there: its number is the next
of its thread, its version the order's, and a read has the order's value. -/
theorem Inv.legal_snoc (h : Inv L m₀ s tr) (op : Op) (heff : s.effected t = s.done t) {a : Addr}
    {v : Int} {x : Val} (hv : v = (Shared.after L m₀ tr).ver (L.calcObjid a))
    (hx : op = .R → x = (Shared.after L m₀ tr).mem a) :
    Legal L m₀ (tr ++ [s.event t op a v x]) := by
  refine h.legal.snoc ⟨?_, hv, hx⟩
  rw [State.event, h.effected t, heff]

/-- A write moves its object's version in the order by two. -/
theorem after_ver_write {a : Addr} {v : Int} {x : Val} (o : Nat) :
    (Shared.after L m₀ (tr ++ [s.event t .W a v x])).ver o
      = (Shared.after L m₀ tr).ver o + if L.calcObjid a = o then 2 else 0 := by
  rw [after_ver_snoc]
  simp [State.event, Layout.obj]

/-- A write changes its own address in the order. -/
theorem after_mem_write {a : Addr} {v : Int} {x : Val} (b : Addr) :
    (Shared.after L m₀ (tr ++ [s.event t .W a v x])).mem b
      = if a = b then x else (Shared.after L m₀ tr).mem b := by
  rw [after_mem_snoc]
  simp [State.event]

/-! ## 3. The instructions of `mem_read`

The first load sends the reader on with an even version, the second with a value that is the order's
as long as that version is still seen.  The check either sends it back or puts the read into the
order. -/

/-- A place of `mem_read`: no lock is held, nothing is in the order yet. -/
theorem Inv.goto_read (h : Inv L m₀ s tr) {a b : Addr} {r r' : RPc} (hpc : s.pc t = .read a r)
    (hr : RInv L s.mem (Shared.after L m₀ tr) (s.buf t) b r') :
    Inv L m₀ ({ s with buf := Function.update s.buf t (s.buf t) }.advance t
      (.goto (.read b r'))) tr := by
  have ht := h.thr t
  rw [hpc] at ht
  refine h.silent (sameBut_advance ..) rfl ?_ ?_ ?_
  · simp [State.effected, State.advance, hpc]
  · intro o
    simp [Owner, Owns, State.advance, Pc.holds, hpc]
  · simpa [State.advance] using ⟨ht.1, hr⟩

/-- **One instruction of `mem_read`.**  The place of the check is the only one where the order
grows: it finds the even version unchanged, so by `RInv` the value it holds is the order's, and by
`Inv.view_even` the version is the order's too. -/
theorem inv_instr_read (h : Inv L m₀ s tr) {a : Addr} {r : RPc} (hpc : s.pc t = .read a r)
    (hst : s.instr L t = some s') : Inv L m₀ s' (tr ++ s.enters L t) := by
  have ht := h.thr t
  rw [hpc] at ht
  obtain ⟨htail, hr⟩ := ht
  cases r with
  -- an odd version is read again; an even one is kept
  | loadVersion =>
    simp only [State.instr, hpc, code, readCode, Instr.tso, Option.bind_some, Option.map_some,
      Option.some.injEq] at hst
    subst hst
    simp only [State.enters, hpc, List.append_nil]
    split
    · exact h.goto_read hpc trivial
    · refine h.goto_read hpc ⟨by omega, Int.le_refl _⟩
  | loadVal v =>
    simp only [State.instr, hpc, code, readCode, Instr.tso, Option.bind_some, Option.map_some,
      Option.some.injEq] at hst
    subst hst
    simp only [State.enters, hpc, List.append_nil]
    refine h.goto_read hpc ⟨hr.1, hr.2, ?_⟩
    intro heq
    -- the version seen is still the even `v`, so the value seen is the order's
    exact (h.view_even htail (by rw [State.view, heq]; exact hr.1)).2
  | check v x =>
    simp only [State.instr, hpc, code, readCode, Instr.tso, Option.bind_some, Option.map_some,
      Option.some.injEq] at hst
    subst hst
    split
    · rename_i hne
      have hv : v ≠ (s.view t).version (L.calcObjid a) := hne
      simp only [State.enters, hpc]
      rw [if_neg hv, List.append_nil]
      exact h.goto_read hpc trivial
    · -- the read enters the order
      rename_i hne
      have hv : (s.view t).version (L.calcObjid a) = v := (not_not.mp hne).symm
      simp only [State.enters, hpc]
      rw [if_pos hv.symm]
      have heven := h.view_even htail (by rw [hv]; exact hr.1)
      have heff : s.effected t = s.done t := by simp [State.effected, hpc]
      have hx : x = (Shared.after L m₀ tr).mem a := hr.2.2 hv
      have hlegal := h.legal_snoc .R heff (hv.symm.trans heven.1) (fun _ => hx)
      have hsh : Shared.after L m₀ (tr ++ [s.event t .R a v x]) = Shared.after L m₀ tr := by
        rw [after_snoc]; rfl
      refine h.step_rule _ (sameBut_advance ..) hlegal (by simp [State.event]) ?_ rfl
        ?_ ?_ ?_ ?_
      · simp [State.effected, State.advance, hpc, State.event]
      · intro o
        simp [Owner, Owns, State.advance, Pc.holds, hpc]
      · intro o ho
        rw [hsh]; exact h.free o ho
      · intro u _
        rw [hsh]; exact h.thr u
      · rw [hsh]
        simpa [State.advance, ThrInv] using htail

/-! ## 4. The instructions of `mem_write`

The places between the exchange and the unlock form a chain, and `WInv` says at each of them what is
in the buffer and by how much memory is off the order: the buffer is empty after the exchange, which
drains it, takes up the first increment and the value, is empty again at the fence, and takes up the
second increment and the release.  `Inv.goto_write` does the places that only move along the chain.
-/

/-- A place of `mem_write` that is left without a change of owner. -/
theorem Inv.goto_write (h : Inv L m₀ s tr) {a : Addr} {x : Val} {w w' : WPc}
    {b : List (Store Addr)} (hpc : s.pc t = .write a x w) (hl : w'.locked = w.locked)
    (hb : ∀ o, Store.writeLock o false ∈ b ↔ Store.writeLock o false ∈ s.buf t)
    (heff : ({ s with buf := Function.update s.buf t b }.advance t
      (.goto (.write a x w'))).effected t = s.effected t)
    (hw : WInv L s.mem (Shared.after L m₀ tr) b a x w') :
    Inv L m₀ ({ s with buf := Function.update s.buf t b }.advance t (.goto (.write a x w'))) tr := by
  refine h.silent (sameBut_advance ..) rfl heff ?_ ?_
  · intro o
    simp [Owner, Owns, State.advance, Pc.holds, hpc, hl, hb]
  · simpa [State.advance, ThrInv] using hw

/-- The exchange takes a free lock.  It is a locked instruction, so the buffer is empty; the lock
word was false, so the object had no owner and memory and the order agree on it, which is what the
writer starts from. -/
theorem inv_acquire (h : Inv L m₀ s tr) {a : Addr} {x : Val} (hpc : s.pc t = .write a x .lock)
    (hbuf : s.buf t = []) (hfree : s.mem.writeLock (L.calcObjid a) = false) :
    Inv L m₀ ({ s with
      mem := s.mem.store (.writeLock (L.calcObjid a) true)
      buf := Function.update s.buf t [] }.advance t (.goto (.write a x .loadVersion))) tr := by
  have hnone : ∀ u, ¬ Owner L s u (L.calcObjid a) := by
    intro u hu
    rw [(h.lock _).mpr ⟨u, hu⟩] at hfree
    cases hfree
  have ht : ∀ o, ¬ Owner L s t o := by
    intro o
    simp [Owner, Owns, hpc, Pc.holds, WPc.locked, hbuf]
  -- `t` had no object: it was not in a critical section and has no release in its buffer
  have hs := sameBut_advance (t := t) (s := s) (s.mem.store (.writeLock (L.calcObjid a) true)) []
    (.goto (.write a x .loadVersion))
  generalize hs' : ({ s with
      mem := s.mem.store (.writeLock (L.calcObjid a) true)
      buf := Function.update s.buf t [] } : State Addr).advance t
      (.goto (.write a x .loadVersion)) = s' at hs ⊢
  have hmem : s'.mem = s.mem.store (.writeLock (L.calcObjid a) true) := by rw [← hs']; rfl
  have hown : ∀ u o, Owner L s' u o ↔ Owner L s u o ∨ (u = t ∧ o = L.calcObjid a) := by
    intro u o
    by_cases hu : u = t
    · subst hu
      rw [iff_false_intro (ht o), ← hs']
      simp [Owner, Owns, State.advance, Pc.holds, WPc.locked, eq_comm]
    · rw [hs.owner hu]
      simp [hu]
  -- the owners are as before, and `t` owns `a`'s object: nobody else did
  refine ⟨h.legal, ?_, ?_, ?_, ?_, ?_⟩
  · intro u
    by_cases hu : u = t
    · subst hu
      rw [h.effected u, ← hs']
      simp [State.effected, State.advance, hpc]
    · rw [h.effected u, hs.effected hu]
  · intro o
    rw [hmem]
    by_cases ho : o = L.calcObjid a
    · subst ho
      simp [Mem.store, hown]
    · simp [Mem.store, h.lock o, hown, ho]
  · intro u v o hu hv
    rw [hown] at hu hv
    rcases hu with hu | ⟨rfl, rfl⟩ <;> rcases hv with hv | ⟨rfl, ho⟩
    · exact h.excl u v o hu hv
    · exact absurd (ho ▸ hu) (hnone u)
    · exact absurd hv (hnone v)
    · rfl
  · intro o ho
    rw [hmem]
    exact h.free o (fun u hu => ho u ((hown u o).mpr (Or.inl hu)))
  · intro u
    rw [hmem]
    by_cases hu : u = t
    · subst hu
      have hat := h.free _ hnone
      rw [← hs']
      simp only [State.advance, Function.update_self, ThrInv, WInv]
      exact ⟨trivial, hat⟩
    · rw [hs.pc u hu, hs.buf u hu]
      exact (h.thr u).store_lock

/-- **The fence: the write enters the order.**  The buffer has drained, so memory holds the value
under an odd version, one ahead of the order.  After the write the order is two further, one ahead
of memory, with the same values.  A reader of this object holds an even version, so the odd one in
memory is not the one it holds and `Frame.seen` asks nothing of the values. -/
theorem inv_fence (h : Inv L m₀ s tr) {a : Addr} {x : Val} {v : Int}
    (hpc : s.pc t = .write a x (.fence v)) (hbuf : s.buf t = []) :
    Inv L m₀ ({ s with buf := Function.update s.buf t [] }.advance t
      (.goto (.write a x (.inc2Load v)))) (tr ++ [s.event t .W a v x]) := by
  have ht := h.thr t
  simp only [hpc, ThrInv, WInv, hbuf] at ht
  obtain ⟨hv, hbad | hbad | ⟨-, hver, hval, hrest⟩⟩ := ht
  · exact absurd hbad.1 (by simp)
  · exact absurd hbad.1 (by simp)
  -- with an empty buffer only the last of the three cases of `WInv` is left
  have hown : Owner L s t (L.calcObjid a) := Or.inl (by simp [hpc, Pc.holds, WPc.locked])
  have heff : s.effected t = s.done t := by simp [State.effected, hpc]
  have hlegal := h.legal_snoc .W (x := x) heff hv (fun hc => by cases hc)
  have hframe : Frame L (L.calcObjid a) s.mem s.mem (Shared.after L m₀ tr)
      (Shared.after L m₀ (tr ++ [s.event t .W a v x])) := by
    refine ⟨fun _ _ => rfl, fun _ _ => rfl, ?_, ?_, ?_⟩
    · intro o ho
      rw [after_ver_write, if_neg (Ne.symm ho), Int.add_zero]
    · intro b hb
      rw [after_mem_write, if_neg (fun hc => hb (by rw [hc]))]
    · intro w hw hle
      -- the version in memory is odd
      refine ⟨hle, ?_⟩
      intro hc
      have := after_ver_even L m₀ tr (L.calcObjid a)
      omega
  have hnot : ∀ u, u ≠ t → ¬ Owner L s u (L.calcObjid a) :=
    fun u hu hc => hu (h.excl u t _ hc hown)
  refine h.step_rule _ (sameBut_advance ..) hlegal (by simp [State.event]) ?_ rfl ?_
    ?_ (fun u hu => (h.thr u).frame hframe (hnot u hu)) ?_
  · simp [State.effected, State.advance, hpc, State.event]
  · intro o
    simp [Owner, Owns, State.advance, Pc.holds, hpc, WPc.locked, hbuf]
  · intro o ho
    refine (h.free o ho).frame hframe ?_
    rintro rfl
    exact ho t hown
  · simp only [State.advance, Function.update_self, ThrInv, WInv, At, after_ver_write, if_true]
    refine ⟨trivial, ⟨by omega, ?_⟩, by omega⟩
    intro b hb
    rw [after_mem_write]
    by_cases hab : a = b
    · subst hab; simpa using hval
    · rw [if_neg hab]
      exact hrest b (Ne.symm hab) hb

/-- The unlock is a plain store: the thread goes on with the release in its buffer, and owns the
object by that until it drains. -/
theorem inv_unlock (h : Inv L m₀ s tr) {a : Addr} {x : Val} {v : Int}
    (hpc : s.pc t = .write a x (.unlock v)) :
    Inv L m₀ ({ s with
      buf := Function.update s.buf t (s.buf t ++ [Store.writeLock (L.calcObjid a) false]) }.advance t
      (.ret .W a v x)) tr := by
  have ht := h.thr t
  rw [hpc] at ht
  obtain ⟨hv, hb⟩ := ht
  refine h.silent (sameBut_advance ..) rfl ?_ ?_ ?_
  · simp [State.effected, State.advance, hpc, State.event]
  · intro o
    have hno : Store.writeLock o false ∉ s.buf t := by
      rcases hb with ⟨hb, -⟩ | ⟨hb, -⟩ <;> simp [hb]
    simp [Owner, Owns, State.advance, Pc.holds, hpc, WPc.locked, hno, eq_comm]
  · simp only [State.advance, Function.update_self, ThrInv]
    refine Or.inr ⟨L.calcObjid a, ?_⟩
    rcases hb with ⟨hb, hat⟩ | ⟨hb, hat⟩
    · exact Or.inl ⟨by rw [hb, hv]; rfl, hat⟩
    · exact Or.inr ⟨by rw [hb]; rfl, hat⟩

/-- **One instruction of `mem_write`.**  The cases are the places of `WPc` in the order of the
source.  Each is `Inv.goto_write` with the facts of the next place, but for a successful exchange,
the fence and the unlock. -/
theorem inv_instr_write (h : Inv L m₀ s tr) {a : Addr} {x : Val} {w : WPc}
    (hpc : s.pc t = .write a x w) (hst : s.instr L t = some s') :
    Inv L m₀ s' (tr ++ s.enters L t) := by
  have ht := h.thr t
  rw [hpc] at ht
  simp only [State.instr, hpc, code, Option.bind_some] at hst
  cases w with
  | lock =>
    simp only [writeCode, Instr.tso] at hst
    split at hst
    · rename_i hbuf
      simp only [Option.map_some, Option.some.injEq] at hst
      subst hst
      simp only [State.enters, hpc, List.append_nil]
      cases hlock : s.mem.writeLock (L.calcObjid a) with
      | true =>
        -- the lock was held: the exchange has written back what was there
        have hself : s.mem.store (.writeLock (L.calcObjid a) true) = s.mem := by
          rw [Mem.store, ← hlock, Function.update_eq_self]
        rw [hself, if_pos rfl]
        refine h.goto_write hpc rfl (by simp [hbuf]) ?_ (Or.inl rfl)
        simp [State.effected, State.advance, hpc]
      | false => exact inv_acquire h hpc hbuf hlock
    · simp at hst
  -- one more turn of the inner loop, or back to the exchange
  | lockSpin =>
    simp only [writeCode, Instr.tso, Option.map_some, Option.some.injEq] at hst
    subst hst
    simp only [State.enters, hpc, List.append_nil]
    split
    · refine h.goto_write hpc rfl (by simp) ?_ ht
      simp [State.effected, State.advance, hpc]
    · refine h.goto_write hpc rfl (by simp) ?_ ht
      simp [State.effected, State.advance, hpc]
  -- with the lock, the version in memory is the order's, and nobody else changes it
  | loadVersion =>
    simp only [writeCode, Instr.tso, Option.map_some, Option.some.injEq] at hst
    subst hst
    simp only [State.enters, hpc, List.append_nil]
    obtain ⟨hbuf, hat⟩ := ht
    refine h.goto_write hpc rfl (by simp) ?_ ⟨hbuf, hat, ?_⟩
    · simp [State.effected, State.advance, hpc]
    · simpa [hbuf] using hat.1
  | inc1Load v =>
    simp only [writeCode, Instr.tso, Option.map_some, Option.some.injEq] at hst
    subst hst
    simp only [State.enters, hpc, List.append_nil]
    obtain ⟨hbuf, hat, hv⟩ := ht
    refine h.goto_write hpc rfl (by simp) ?_ ⟨hbuf, hat, hv, ?_⟩
    · simp [State.effected, State.advance, hpc]
    · simpa [hbuf, hv] using hat.1
  -- from here on the version may be odd in memory: the store is in the buffer or has drained
  | inc1Store v n =>
    simp only [writeCode, Instr.tso, Option.map_some, Option.some.injEq] at hst
    subst hst
    simp only [State.enters, hpc, List.append_nil]
    obtain ⟨hbuf, hat, hv, rfl⟩ := ht
    refine h.goto_write hpc rfl (by simp) ?_ ⟨hv, Or.inl ⟨by rw [hbuf]; rfl, hat⟩⟩
    simp [State.effected, State.advance, hpc]
  | storeVal v =>
    simp only [writeCode, Instr.tso, Option.map_some, Option.some.injEq] at hst
    subst hst
    simp only [State.enters, hpc, List.append_nil]
    refine h.goto_write hpc rfl (by simp) ?_ ⟨ht.1, ?_⟩
    · simp [State.effected, State.advance, hpc]
    · rcases ht.2 with ⟨hbuf, hat⟩ | ⟨hbuf, hat⟩
      · exact Or.inl ⟨by rw [hbuf]; rfl, hat⟩
      · exact Or.inr (Or.inl ⟨by rw [hbuf]; rfl, hat⟩)
  -- the point of effect: the value is in memory, and the write enters the order
  | fence v =>
    simp only [writeCode, Instr.tso] at hst
    split at hst
    · rename_i hbuf
      simp only [Option.map_some, Option.some.injEq] at hst
      subst hst
      simp only [State.enters, hpc]
      exact inv_fence h hpc hbuf
    · simp at hst
  -- both stores have drained, so memory has the odd version
  | inc2Load v =>
    simp only [writeCode, Instr.tso, Option.map_some, Option.some.injEq] at hst
    subst hst
    simp only [State.enters, hpc, List.append_nil]
    obtain ⟨hbuf, hat, hv⟩ := ht
    refine h.goto_write hpc rfl (by simp) ?_ ⟨hbuf, hat, hv, ?_⟩
    · simp [State.effected, State.advance, hpc, State.event]
    · have := hat.1
      simp only [hbuf, view_nil]
      omega
  -- the even version goes into the buffer, and behind it the unlock
  | inc2Store v n =>
    simp only [writeCode, Instr.tso, Option.map_some, Option.some.injEq] at hst
    subst hst
    simp only [State.enters, hpc, List.append_nil]
    obtain ⟨hbuf, hat, hv, rfl⟩ := ht
    refine h.goto_write hpc rfl (by simp) ?_ ⟨hv, Or.inl ⟨?_, hat⟩⟩
    · simp [State.effected, State.advance, hpc, State.event]
    · rw [hbuf, List.nil_append, Int.add_assoc]
      rfl
  | unlock v =>
    simp only [writeCode, Instr.tso, Option.map_some, Option.some.injEq] at hst
    subst hst
    simp only [State.enters, hpc, List.append_nil]
    exact inv_unlock h hpc

end Steps

/-! ## 5. Drains

The store at the head of a buffer reaches memory whenever the machine likes, so each place of a
thread has to say what its head may be.  A version or a value only drains between the first
increment and the release, where its thread owns the object; a lock store only drains after the
return of `mem_write`, as the last of the buffer.  The lemmas for `Tail` and `ThrInv` read this off
the invariant for the three kinds of store; `inv_drain_data` and `inv_release` then do the whole
state. -/

section Drains

variable {L : Layout Addr} {m : Mem Addr} {sh : Shared Addr} {buf : List (Store Addr)}
  {pc : Pc Addr} {o : Nat}

/-- A drained version puts its object at the distance from the order that the version has. -/
theorem At.store_version {d : Int} {n : Int} (h : At L m sh o d) (d' : Int)
    (hn : n = sh.ver o + d') : At L (m.store (.version o n)) sh o d' :=
  ⟨by simp [Mem.store, hn], fun a ha => by simpa [Mem.store] using h.2 a ha⟩

/-- Outside a critical section a version drains ahead of its release: it is the second increment. -/
theorem Tail.drain_version {n : Int} (h : Tail L m sh (.version o n :: buf)) :
    Store.writeLock o false ∈ buf ∧ n = m.version o + 1 ∧
      Tail L (m.store (.version o n)) sh buf := by
  rcases h with hb | ⟨o', ⟨hb, hat⟩ | ⟨hb, -⟩⟩
  · simp at hb
  · simp only [List.cons.injEq, Store.version.injEq] at hb
    obtain ⟨⟨rfl, hn⟩, hb⟩ := hb
    refine ⟨by simp [hb], by have := hat.1; omega, ?_⟩
    exact Or.inr ⟨o, Or.inr ⟨hb, hat.store_version 0 (by omega)⟩⟩
  · simp at hb

/-- A version drains from the buffer of its object's owner, and is the next version.  Only three
places have one at the head: the store of the value, the fence and the unlock; and whoever has
returned from `mem_write` and not drained since. -/
theorem ThrInv.drain_version {n : Int} (h : ThrInv L m sh (.version o n :: buf) pc) :
    Owns L pc (.version o n :: buf) o ∧ n = m.version o + 1 ∧
      ThrInv L (m.store (.version o n)) sh buf pc := by
  cases pc with
  | idle =>
    obtain ⟨h1, h2, h3⟩ := Tail.drain_version h
    exact ⟨Or.inr (List.mem_cons_of_mem _ h1), h2, h3⟩
  | read a r =>
    obtain ⟨h1, h2, h3⟩ := Tail.drain_version h.1
    refine ⟨Or.inr (List.mem_cons_of_mem _ h1), h2, h3, ?_⟩
    -- draining its own store changes nothing for the thread
    cases r <;> exact h.2
  | write a x w =>
    cases w with
    | lock =>
      obtain ⟨h1, h2, h3⟩ := Tail.drain_version h
      exact ⟨Or.inr (List.mem_cons_of_mem _ h1), h2, h3⟩
    | lockSpin =>
      obtain ⟨h1, h2, h3⟩ := Tail.drain_version h
      exact ⟨Or.inr (List.mem_cons_of_mem _ h1), h2, h3⟩
    -- the odd version drains at one of two places, before the value or behind it
    | storeVal v =>
      obtain ⟨hv, ⟨hb, hat⟩ | ⟨hb, -⟩⟩ := h
      · simp only [List.cons.injEq, Store.version.injEq] at hb
        obtain ⟨⟨rfl, rfl⟩, rfl⟩ := hb
        have := hat.1
        exact ⟨Or.inl (by simp [Pc.holds, WPc.locked]), by omega, hv,
          Or.inr ⟨rfl, hat.store_version 1 (by omega)⟩⟩
      · simp at hb
    | fence v =>
      obtain ⟨hv, ⟨hb, hat⟩ | ⟨hb, -⟩ | ⟨hb, -⟩⟩ := h
      · simp only [List.cons.injEq, Store.version.injEq] at hb
        obtain ⟨⟨rfl, rfl⟩, rfl⟩ := hb
        have := hat.1
        exact ⟨Or.inl (by simp [Pc.holds, WPc.locked]), by omega, hv,
          Or.inr (Or.inl ⟨rfl, hat.store_version 1 (by omega)⟩)⟩
      · simp at hb
      · simp at hb
    -- the even version drains
    | unlock v =>
      obtain ⟨hv, ⟨hb, hat⟩ | ⟨hb, -⟩⟩ := h
      · simp only [List.cons.injEq, Store.version.injEq] at hb
        obtain ⟨⟨rfl, rfl⟩, rfl⟩ := hb
        have := hat.1
        exact ⟨Or.inl (by simp [Pc.holds, WPc.locked]), by omega, hv,
          Or.inr ⟨rfl, hat.store_version 0 (by omega)⟩⟩
      · simp at hb
    | loadVersion => exact absurd h.1 (by simp)
    | inc1Load v => exact absurd h.1 (by simp)
    | inc1Store v n => exact absurd h.1 (by simp)
    | inc2Load v => exact absurd h.1 (by simp)
    | inc2Store v n => exact absurd h.1 (by simp)

omit [DecidableEq Addr] in
/-- Outside a critical section no value is buffered: the fence has drained it. -/
theorem Tail.not_val {a : Addr} {x : Val} (h : Tail L m sh (.val a x :: buf)) : False := by
  rcases h with hb | ⟨o', ⟨hb, -⟩ | ⟨hb, -⟩⟩ <;> simp at hb

/-- A value drains from the buffer of its object's owner, at its fence. -/
theorem ThrInv.drain_val {a : Addr} {x : Val} (h : ThrInv L m sh (.val a x :: buf) pc) :
    Owns L pc (.val a x :: buf) (L.calcObjid a) ∧ ThrInv L (m.store (.val a x)) sh buf pc := by
  cases pc with
  | idle => exact (Tail.not_val h).elim
  | read b r => exact (Tail.not_val h.1).elim
  | write b y w =>
    cases w with
    | lock => exact (Tail.not_val h).elim
    | lockSpin => exact (Tail.not_val h).elim
    | fence v =>
      obtain ⟨hv, ⟨hb, -⟩ | ⟨hb, hat⟩ | ⟨hb, -⟩⟩ := h
      · simp at hb
      · simp only [List.cons.injEq, Store.val.injEq] at hb
        obtain ⟨⟨rfl, rfl⟩, rfl⟩ := hb
        refine ⟨Or.inl (by simp [Pc.holds, WPc.locked]), hv, Or.inr (Or.inr ⟨rfl, hat.1, ?_, ?_⟩)⟩
        · simp [Mem.store]
        · intro c hc hca
          simpa [Mem.store, Function.update_of_ne hc] using hat.2 c hca
      · simp at hb
    | storeVal v =>
      obtain ⟨-, ⟨hb, -⟩ | ⟨hb, -⟩⟩ := h <;> simp at hb
    | unlock v =>
      obtain ⟨-, ⟨hb, -⟩ | ⟨hb, -⟩⟩ := h <;> simp at hb
    | loadVersion => exact absurd h.1 (by simp)
    | inc1Load v => exact absurd h.1 (by simp)
    | inc1Store v n => exact absurd h.1 (by simp)
    | inc2Load v => exact absurd h.1 (by simp)
    | inc2Store v n => exact absurd h.1 (by simp)

omit [DecidableEq Addr] in
/-- Outside a critical section a lock store is the last of the buffer, and the version is level. -/
theorem Tail.drain_lock {b : Bool} (h : Tail L m sh (.writeLock o b :: buf)) :
    b = false ∧ buf = [] ∧ At L m sh o 0 := by
  rcases h with hb | ⟨o', ⟨hb, -⟩ | ⟨hb, hat⟩⟩
  · simp at hb
  · simp at hb
  · simp only [List.cons.injEq, Store.writeLock.injEq] at hb
    obtain ⟨⟨rfl, rfl⟩, rfl⟩ := hb
    exact ⟨rfl, rfl, hat⟩

/-- A lock store drains outside a critical section, and is a release.  Inside one the buffer holds
none, since the exchange emptied it. -/
theorem ThrInv.drain_lock {b : Bool} (h : ThrInv L m sh (.writeLock o b :: buf) pc) :
    b = false ∧ buf = [] ∧ pc.holds L = none ∧ At L m sh o 0 ∧
      ThrInv L (m.store (.writeLock o b)) sh [] pc := by
  cases pc with
  | idle =>
    obtain ⟨h1, h2, h3⟩ := Tail.drain_lock h
    exact ⟨h1, h2, rfl, h3, Or.inl rfl⟩
  | read a r =>
    obtain ⟨h1, h2, h3⟩ := Tail.drain_lock h.1
    subst h2
    refine ⟨h1, rfl, rfl, h3, Or.inl rfl, ?_⟩
    cases r <;> exact h.2
  | write a x w =>
    cases w with
    | lock =>
      obtain ⟨h1, h2, h3⟩ := Tail.drain_lock h
      exact ⟨h1, h2, rfl, h3, Or.inl rfl⟩
    | lockSpin =>
      obtain ⟨h1, h2, h3⟩ := Tail.drain_lock h
      exact ⟨h1, h2, rfl, h3, Or.inl rfl⟩
    | fence v =>
      obtain ⟨-, ⟨hb, -⟩ | ⟨hb, -⟩ | ⟨hb, -⟩⟩ := h <;> simp at hb
    | storeVal v =>
      obtain ⟨-, ⟨hb, -⟩ | ⟨hb, -⟩⟩ := h <;> simp at hb
    | unlock v =>
      obtain ⟨-, ⟨hb, -⟩ | ⟨hb, -⟩⟩ := h <;> simp at hb
    | loadVersion => exact absurd h.1 (by simp)
    | inc1Load v => exact absurd h.1 (by simp)
    | inc1Store v n => exact absurd h.1 (by simp)
    | inc2Load v => exact absurd h.1 (by simp)
    | inc2Store v n => exact absurd h.1 (by simp)

variable {m₀ : Addr → Val} {s s' : State Addr} {tr : List (Event Addr)} {t : Nat}

omit [DecidableEq Addr] in
/-- A drain replaces memory and the buffer of its own thread. -/
theorem sameBut_drain (m : Mem Addr) (b : List (Store Addr)) :
    SameBut t s { s with mem := m, buf := Function.update s.buf t b } :=
  ⟨fun _ _ => rfl, fun u hu => by simp [Function.update_of_ne hu], fun _ _ => rfl⟩

/-- The drain of a version or a value: it touches an object its thread owns, so the other threads
are framed and the objects without an owner are others. -/
theorem inv_drain_data (h : Inv L m₀ s tr) {st : Store Addr} {b : List (Store Addr)}
    (hbuf : s.buf t = st :: b) (hst : ∀ o c, st ≠ .writeLock o c) (hown : Owner L s t o)
    (hframe : Frame L o s.mem (s.mem.store st) (Shared.after L m₀ tr) (Shared.after L m₀ tr))
    (hlock : (s.mem.store st).writeLock = s.mem.writeLock)
    (hthr : ThrInv L (s.mem.store st) (Shared.after L m₀ tr) b (s.pc t)) :
    Inv L m₀ { s with mem := s.mem.store st, buf := Function.update s.buf t b } tr := by
  have := h.step_rule [] (sameBut_drain (t := t) (s := s) (s.mem.store st) b)
    (by simpa using h.legal) (by simp) (by simp [State.effected, State.event]) hlock
    (fun o' => ?_) (fun o' ho' => ?_) (fun u hu => ?_) ?_
  · simpa using this
  · have : Store.writeLock o' false ≠ st := fun hc => hst _ _ hc.symm
    simp [Owner, Owns, hbuf, this]
  · rw [List.append_nil]
    refine (h.free o' ho').frame hframe ?_
    rintro rfl
    exact ho' t hown
  · rw [List.append_nil]
    exact (h.thr u).frame hframe (fun hc => hu (h.excl u t o hc hown))
  · simpa using hthr

/-- The drain of a release: the object has no owner any more, and memory and the order agree
on it. -/
theorem inv_release (h : Inv L m₀ s tr) {c : Bool} {b : List (Store Addr)}
    (hbuf : s.buf t = .writeLock o c :: b) :
    Inv L m₀ { s with mem := s.mem.store (.writeLock o c), buf := Function.update s.buf t b } tr := by
  have ht := h.thr t
  rw [hbuf] at ht
  obtain ⟨rfl, rfl, hholds, hat, hthr⟩ := ht.drain_lock
  have hs := sameBut_drain (t := t) (s := s) (s.mem.store (.writeLock o false)) []
  generalize hs' : ({ s with
      mem := s.mem.store (.writeLock o false)
      buf := Function.update s.buf t [] } : State Addr) = s' at hs ⊢
  have hmem : s'.mem = s.mem.store (.writeLock o false) := by rw [← hs']
  -- the thread is past its critical section, and the release is the last store of its buffer
  have hwas : ∀ o', Owner L s t o' ↔ o' = o := by
    intro o'
    simp [Owner, Owns, hholds, hbuf]
  have hnow : ∀ o', ¬ Owner L s' t o' := by
    intro o'
    rw [← hs']
    simp [Owner, Owns, hholds]
  -- `t` owned this object and no other, and owns none now
  have hown : ∀ u o', Owner L s' u o' ↔ Owner L s u o' ∧ o' ≠ o := by
    intro u o'
    by_cases hu : u = t
    · subst hu
      rw [hwas]
      exact iff_of_false (hnow o') (fun hc => hc.2 hc.1)
    · rw [hs.owner hu]
      refine ⟨fun hc => ⟨hc, ?_⟩, fun hc => hc.1⟩
      rintro rfl
      exact hu (h.excl u t o' hc ((hwas o').mpr rfl))
  refine ⟨h.legal, ?_, ?_, ?_, ?_, ?_⟩
  · intro u
    rw [h.effected u, ← hs']
    simp [State.effected, State.event]
  · intro o'
    rw [hmem]
    by_cases ho : o' = o
    · subst ho
      simp [Mem.store, hown]
    · simp [Mem.store, h.lock o', hown, ho]
  · intro u v o' hu hv
    exact h.excl u v o' ((hown u o').mp hu).1 ((hown v o').mp hv).1
  · intro o' ho'
    rw [hmem]
    by_cases ho : o' = o
    · subst ho; exact hat
    · exact h.free o' (fun u hu => ho' u ((hown u o').mpr ⟨hu, ho⟩))
  · intro u
    rw [hmem]
    by_cases hu : u = t
    · subst hu
      rw [← hs']
      simpa using hthr
    · rw [hs.pc u hu, hs.buf u hu]
      exact (h.thr u).store_lock

/-- **One drain.**  The order does not move, so only memory and the owners do. -/
theorem inv_drain (h : Inv L m₀ s tr) (hst : s.drain t = some s') : Inv L m₀ s' tr := by
  have ht := h.thr t
  unfold State.drain at hst
  split at hst
  · cases hst
  · rename_i st b hbuf
    rw [Option.some.injEq] at hst
    subst hst
    rw [hbuf] at ht
    cases st with
    | version o n =>
      obtain ⟨hown, hn, hthr⟩ := ht.drain_version
      refine inv_drain_data h hbuf (by simp) (o := o) (by rw [Owner, hbuf]; exact hown) ?_ rfl hthr
      refine ⟨?_, fun _ _ => rfl, fun _ _ => rfl, fun _ _ => rfl, ?_⟩
      · intro o' ho'
        simp [Mem.store, Function.update_of_ne ho']
      · intro v _ hle
        -- the new version is larger, so a reader of an older one will see a difference
        have hnew : (s.mem.store (.version o n)).version o = n := by simp [Mem.store]
        rw [hnew]
        exact ⟨by omega, fun hc => by omega⟩
    | val a x =>
      obtain ⟨hown, hthr⟩ := ht.drain_val
      refine inv_drain_data h hbuf (by simp) (o := L.calcObjid a) (by rw [Owner, hbuf]; exact hown)
        ?_ rfl hthr
      refine ⟨fun _ _ => rfl, ?_, fun _ _ => rfl, fun _ _ => rfl, ?_⟩
      · intro b hb
        have hne : b ≠ a := by rintro rfl; exact hb rfl
        simp [Mem.store, Function.update_of_ne hne]
      · intro v _ hle
        exact ⟨hle, fun hc => ⟨hc, fun _ _ => rfl⟩⟩
    | writeLock o c => exact inv_release h hbuf

/-! ## 6. The three kinds of steps

A call, an instruction and a drain are all that a step of `sys` can be; with the initial state they
give the invariant of every reachable state in `Total.lean`. -/

/-- **One instruction**, and what it adds to the order: the write at its fence, the read at a check
that succeeds, nothing at any other (`State.enters`). -/
theorem inv_instr (h : Inv L m₀ s tr) (hst : s.instr L t = some s') :
    Inv L m₀ s' (tr ++ s.enters L t) := by
  cases hpc : s.pc t with
  | idle => simp [State.instr, hpc, code] at hst
  | read a r => exact inv_instr_read h hpc hst
  | write a x w => exact inv_instr_write h hpc hst

/-- A call puts an idle thread at the start of `mem_read` or `mem_write`, with the buffer its last
write left. -/
theorem inv_call (h : Inv L m₀ s tr) {acc : Acc Addr} (hst : s.call t acc = some s') :
    Inv L m₀ s' tr := by
  unfold State.call at hst
  split at hst
  · rename_i hpc
    rw [Option.some.injEq] at hst
    have ht := h.thr t
    rw [hpc] at ht
    subst hst
    refine h.silent (t := t) ⟨?_, fun _ _ => rfl, fun _ _ => rfl⟩ rfl ?_ ?_ ?_
    · intro u hu
      simp [Function.update_of_ne hu]
    · cases acc <;> simp [State.effected, Pc.start, hpc]
    · intro o
      cases acc <;> simp [Owner, Owns, Pc.start, Pc.holds, WPc.locked, hpc]
    · cases acc with
      | read a => simpa [Pc.start, ThrInv, RInv] using ht
      | write a x => simpa [Pc.start, ThrInv, WInv] using ht
  · cases hst

/-- At the start nobody owns anything and memory is the order's. -/
theorem inv_initial : Inv L m₀ (State.initial m₀) [] := by
  have hno : ∀ t o, ¬ Owner L (State.initial m₀) t o := by
    intro t o
    simp [Owner, Owns, State.initial, Pc.holds]
  refine ⟨.nil, ?_, ?_, fun t u o ht => absurd ht (hno t o), ?_,
    ?_⟩
  · intro t
    simp [State.effected, State.initial]
  · intro o
    refine iff_of_false (by simp [State.initial, Mem.initial]) ?_
    rintro ⟨t, ht⟩
    exact hno t o ht
  · intro o _
    exact ⟨by simp [State.initial, Mem.initial], fun a _ => rfl⟩
  · intro t
    exact Or.inl rfl

end Drains

end MemOrder.Seqlock
