/-
# The seqlock's barriers are enough on x86-TSO

In every state of every interleaving of instructions and drains, the accesses that have taken
effect -- the completed ones, and writes past their fence -- have one total order that respects
every thread's program order and all recorded versions.

The second `version++` and the unlock may still sit in the writer's buffer while it already makes
its next reads.  That is harmless: until they drain everybody else sees an odd version and waits.
What must not happen is a read overtaking the write itself, and that is what the fence after the
value store excludes; the example at the end is the situation of the comment in the source.
-/
import MemOrder.Seqlock.Preserve

namespace MemOrder.Seqlock

variable {Addr : Type} [DecidableEq Addr] {L : Layout Addr} {nthr : Nat} {m₀ : Addr → Val}
  {s s' : State Addr}

/-- Every reachable state has its order. -/
theorem reach_inv (h : (sys L nthr m₀).Reach s) : ∃ tr, Inv L m₀ s tr := by
  refine Trans.Sys.reach_of_inductive (I := fun s => ∃ tr, Inv L m₀ s tr) ?_ ?_ h
  · rintro s rfl
    exact ⟨[], inv_initial⟩
  · rintro s l s' - ⟨tr, hinv⟩ ⟨t, -, ⟨acc, hst⟩ | hst | hst⟩
    · exact ⟨tr, inv_call hinv hst⟩
    · exact ⟨tr ++ s.enters L t, inv_instr hinv hst⟩
    · exact ⟨tr, inv_drain hinv hst⟩

/-! ## 1. Interleavings, executed -/

/-- What one thread does next. -/
inductive Act (Addr : Type)
  | call (acc : Acc Addr)
  | instr
  | drain

def act (L : Layout Addr) (s : State Addr) : Nat × Act Addr → Option (Option Unit × State Addr)
  | (t, .call acc) => (s.call t acc).map fun s' => (none, s')
  | (t, .instr) => (s.instr L t).map fun s' => (none, s')
  | (t, .drain) => (s.drain t).map fun s' => (none, s')

theorem step_act {l : Option Unit} {p : Nat × Act Addr} (hlt : p.1 < nthr)
    (h : act L s p = some (l, s')) : (sys L nthr m₀).step s l s' := by
  obtain ⟨t, a⟩ := p
  cases a with
  | call acc =>
    obtain ⟨s₁, hst, heq⟩ := Option.map_eq_some_iff.mp h
    cases heq
    exact ⟨t, hlt, Or.inl ⟨acc, hst⟩⟩
  | instr =>
    obtain ⟨s₁, hst, heq⟩ := Option.map_eq_some_iff.mp h
    cases heq
    exact ⟨t, hlt, Or.inr (Or.inl hst)⟩
  | drain =>
    obtain ⟨s₁, hst, heq⟩ := Option.map_eq_some_iff.mp h
    cases heq
    exact ⟨t, hlt, Or.inr (Or.inr hst)⟩

/-- A `mem_write` up to its last instruction: the first two stores drain before the fence, the
last two stay in the buffer. -/
def writeSched (t : Nat) (a : Bool) (x : Val) : List (Nat × Act Bool) :=
  (t, .call (.write a x)) :: List.replicate 5 (t, .instr) ++ List.replicate 2 (t, .drain) ++
    List.replicate 4 (t, .instr)

/-- Thread 0 writes A and reads B, thread 1 writes B and reads A.  Both second increments are
still buffered when thread 0 reads; thread 1 then meets an odd version, thread 0's buffer drains,
and thread 1 reads again. -/
def litmusSched : List (Nat × Act Bool) :=
  writeSched 0 false 1 ++ (0, .call (.read true)) :: List.replicate 3 (0, .instr) ++
    writeSched 1 true 2 ++ (1, .call (.read false)) :: List.replicate 2 (1, .instr) ++
    List.replicate 2 (0, .drain) ++ List.replicate 3 (1, .instr)

/-- The state after it. -/
def litmusEnd : State Bool :=
  ((Trans.runSched (act pairLayout) litmusSched (.initial fun _ => 0)).map Prod.snd).getD
    (.initial fun _ => 0)

theorem litmus_reach : (sys pairLayout 2 (fun _ => 0)).Reach litmusEnd := by
  have hsome : (Trans.runSched (act pairLayout) litmusSched (.initial fun _ => 0)).isSome = true := by
    decide
  have hlt : ∀ p ∈ litmusSched, p.1 < 2 := by decide
  exact Trans.Sys.reach_end (fun p hp _ _ _ h => step_act (hlt p hp) h) rfl hsome

/-! ## 2. The total order -/

/-- **The seqlock recorder is serializable on x86-TSO.**  In every reachable state the accesses
that have taken effect so far stand in one order that is every thread's program order on that
thread and respects the recorded versions. -/
theorem seqlock_serializable (h : (sys L nthr m₀).Reach s) :
    ∃ tr, (∀ t, thread t tr = s.effected t) ∧ Serial L m₀ tr := by
  obtain ⟨tr, hinv⟩ := reach_inv h
  exact ⟨tr, hinv.effected, hinv.legal.serial⟩

/-- After the example both reads cannot be at version 0: thread 1 saw thread 0's write. -/
theorem seqlock_serializable_litmus :
    litmusEnd.effected 0 = [⟨0, 0, .W, false, 0, 1⟩, ⟨0, 1, .R, true, 0, 0⟩] ∧
      litmusEnd.effected 1 = [⟨1, 0, .W, true, 0, 2⟩, ⟨1, 1, .R, false, 2, 1⟩] ∧
      ∃ tr, (∀ t, thread t tr = litmusEnd.effected t) ∧ Serial pairLayout (fun _ => 0) tr :=
  ⟨by decide, by decide, seqlock_serializable litmus_reach⟩

end MemOrder.Seqlock
