/-
# Labelled transition systems: reachability, invariants, refinement

A program with threads is a relation between states, one step of one thread at a time, and what is
proved of it holds in EVERY interleaving.  The recorders, the replayers and the lock of this
development are all of that kind, at the level of their source and, with store buffers, at the level
of the machine.  The shape of the proofs is always the same, so it is stated here once, over an
arbitrary state type:

* `Sys.Reach` and the invariant rule `Sys.reach_of_inductive`;
* `Sys.Exec`, runs with the list of their visible labels, and `Simulation.exec`: a forward
  simulation turns every run of the implementation into a run of the specification with the
  SAME visible labels;
* `Sys.reach_of_stuttering`: where only the states matter, a step may be answered by no step;
* `Sys.exec_length_le`: a run is no longer than a measure that every step decreases;
* `runSched`: the run of a given schedule, for systems whose steps can be computed
  (`Sys.exec_runSched`; `Sys.exec_end` and `Sys.reach_end` for the state it ends in).

A step carries an optional label; an unlabelled step is internal.  Nothing is said of fairness: the
liveness results speak of the length of runs and of states in which nothing can move.
-/
import Mathlib.Logic.Relation
import Mathlib.Data.List.Basic
import Mathlib.Algebra.BigOperators.Group.Finset.Basic

namespace MemOrder.Trans

variable {σ τ ι : Type}

/-- A transition system with optionally labelled steps. -/
structure Sys (σ ι : Type) where
  init : σ → Prop
  step : σ → Option ι → σ → Prop

/-! ## 1. Reachable states -/

/-- The states some run reaches. -/
inductive Sys.Reach (S : Sys σ ι) : σ → Prop
  | init {s : σ} : S.init s → S.Reach s
  | step {s s' : σ} {l : Option ι} : S.Reach s → S.step s l s' → S.Reach s'

/-- **The invariant rule.**  A property of the initial states that every step FROM A REACHABLE
STATE preserves holds in every reachable state. -/
theorem Sys.reach_of_inductive {S : Sys σ ι} {I : σ → Prop} (h0 : ∀ s, S.init s → I s)
    (h1 : ∀ s l s', S.Reach s → I s → S.step s l s' → I s') {s : σ} (h : S.Reach s) : I s := by
  induction h with
  | init hs => exact h0 _ hs
  | step hr hst ih => exact h1 _ _ _ hr ih hst

/-! ## 2. Runs and their visible labels -/

/-- `S.Exec ls s`: some run from an initial state ends in `s`, and its visible labels, in
order, are `ls`. -/
inductive Sys.Exec (S : Sys σ ι) : List ι → σ → Prop
  | init {s : σ} : S.init s → S.Exec [] s
  | step {s s' : σ} {l : Option ι} {ls : List ι} :
      S.Exec ls s → S.step s l s' → S.Exec (ls ++ l.toList) s'

/-- The states of runs are the reachable states. -/
theorem Sys.Exec.reach {S : Sys σ ι} {ls : List ι} {s : σ} (h : S.Exec ls s) : S.Reach s := by
  induction h with
  | init hs => exact .init hs
  | step _ hst ih => exact .step ih hst

theorem Sys.Reach.exec {S : Sys σ ι} {s : σ} (h : S.Reach s) : ∃ ls, S.Exec ls s := by
  induction h with
  | init hs => exact ⟨_, .init hs⟩
  | step _ hst ih =>
    obtain ⟨ls, hls⟩ := ih
    exact ⟨_, hls.step hst⟩

/-! ## 3. Forward simulation -/

/-- `R` is a forward simulation of `S` by `A`.  A step of the implementation is answered by the
specification with at most one internal step followed by at most one step with the same label:
the first is the point at which an operation takes effect, the second its visible response. -/
structure Simulation (S : Sys σ ι) (A : Sys τ ι) (R : σ → τ → Prop) : Prop where
  init : ∀ s, S.init s → ∃ a, A.init a ∧ R s a
  step : ∀ s l s' a, S.Reach s → R s a → S.step s l s' →
    ∃ a₁ a₂, (a₁ = a ∨ A.step a none a₁) ∧ ((l = none ∧ a₂ = a₁) ∨ A.step a₁ l a₂) ∧ R s' a₂

/-- **Refinement.**  Under a forward simulation every run of the implementation has a run of the
specification with the same visible labels, ending in a related state. -/
theorem Simulation.exec {S : Sys σ ι} {A : Sys τ ι} {R : σ → τ → Prop} (h : Simulation S A R)
    {ls : List ι} {s : σ} (hs : S.Exec ls s) : ∃ a, A.Exec ls a ∧ R s a := by
  induction hs with
  | init hi =>
    obtain ⟨a, ha, hR⟩ := h.init _ hi
    exact ⟨a, .init ha, hR⟩
  | @step s s' l ls hex hst ih =>
    obtain ⟨a, ha, hR⟩ := ih
    obtain ⟨a₁, a₂, h1, h2, hR'⟩ := h.step _ _ _ _ hex.reach hR hst
    have hmid : A.Exec ls a₁ := by
      rcases h1 with rfl | h1
      · exact ha
      · simpa using ha.step h1
    rcases h2 with ⟨rfl, rfl⟩ | h2
    · exact ⟨a₂, by simpa using hmid, hR'⟩
    · exact ⟨a₂, hmid.step h2, hR'⟩

/-! ## 4. Simulation up to stuttering -/

/-- Every reachable state of `S` is related to a reachable state of `A`, when a step of `S` from
related states is answered by one step of `A` or by none.  What is known of the reachable states of
`A` may be used in the answer. -/
theorem Sys.reach_of_stuttering {κ : Type} {S : Sys σ ι} {A : Sys τ κ} {R : σ → τ → Prop}
    (h0 : ∀ s, S.init s → ∃ a, A.init a ∧ R s a)
    (h1 : ∀ s l s' a, A.Reach a → R s a → S.step s l s' →
      ∃ a', (a' = a ∨ ∃ l', A.step a l' a') ∧ R s' a')
    {s : σ} (h : S.Reach s) : ∃ a, A.Reach a ∧ R s a := by
  induction h with
  | init hs =>
    obtain ⟨a, ha, hR⟩ := h0 _ hs
    exact ⟨a, .init ha, hR⟩
  | step _ hst ih =>
    obtain ⟨a, ha, hR⟩ := ih
    obtain ⟨a', rfl | ⟨l', hl'⟩, hR'⟩ := h1 _ _ _ a ha hR hst
    · exact ⟨a', ha, hR'⟩
    · exact ⟨a', .step ha hl', hR'⟩

/-! ## 5. Bounded runs -/

/-- When every step is labelled and decreases a measure of the related states, the measure bounds
the length of a run. -/
theorem Sys.exec_length_le {κ : Type} {S : Sys σ ι} {A : Sys τ κ} {R : σ → τ → Prop}
    {Φ : σ → τ → Nat} {bound : Nat}
    (h0 : ∀ s, S.init s → ∃ a, A.init a ∧ R s a ∧ Φ s a ≤ bound)
    (h1 : ∀ s l s' a, S.Reach s → A.Reach a → R s a → S.step s l s' →
      ∃ a', (a' = a ∨ ∃ l', A.step a l' a') ∧ R s' a' ∧ Φ s' a' < Φ s a)
    {ls : List ι} {s : σ} (h : S.Exec ls s) :
    ∃ a, A.Reach a ∧ R s a ∧ ls.length + Φ s a ≤ bound := by
  induction h with
  | init hs =>
    obtain ⟨a, ha, hR, hle⟩ := h0 _ hs
    exact ⟨a, .init ha, hR, by simpa using hle⟩
  | @step s s' l ls hex hst ih =>
    obtain ⟨a, ha, hR, hle⟩ := ih
    obtain ⟨a', hstep, hR', hlt⟩ := h1 _ _ _ a hex.reach ha hR hst
    have hl : l.toList.length ≤ 1 := by cases l <;> simp
    refine ⟨a', ?_, hR', by rw [List.length_append]; omega⟩
    rcases hstep with rfl | ⟨l', hl'⟩
    · exact ha
    · exact .step ha hl'

/-! ## 6. Schedules -/

/-- The labels and the last state of a schedule; `none` if one of its actions cannot happen. -/
def runSched {α : Type} (act : σ → α → Option (Option ι × σ)) : List α → σ → Option (List ι × σ)
  | [], s => some ([], s)
  | a :: as, s =>
    (act s a).bind fun p => (runSched act as p.2).map fun q => (p.1.toList ++ q.1, q.2)

/-- A schedule whose actions are steps is a run. -/
theorem Sys.exec_runSched {α : Type} {S : Sys σ ι} {act : σ → α → Option (Option ι × σ)}
    {as : List α} (hact : ∀ a ∈ as, ∀ s l s', act s a = some (l, s') → S.step s l s')
    {ls ls' : List ι} {s s' : σ} (hx : S.Exec ls s) (h : runSched act as s = some (ls', s')) :
    S.Exec (ls ++ ls') s' := by
  induction as generalizing s ls ls' with
  | nil =>
    cases h
    simpa using hx
  | cons a as ih =>
    simp only [runSched, Option.bind_eq_some_iff, Option.map_eq_some_iff] at h
    obtain ⟨p, hp, q, hq, heq⟩ := h
    cases heq
    rw [← List.append_assoc]
    exact ih (fun b hb => hact b (List.mem_cons_of_mem _ hb))
      (hx.step (hact a List.mem_cons_self s p.1 p.2 hp)) hq

/-- The run from an initial state to the end of a schedule. -/
theorem Sys.exec_end {α : Type} {S : Sys σ ι} {act : σ → α → Option (Option ι × σ)} {as : List α}
    (hact : ∀ a ∈ as, ∀ s l s', act s a = some (l, s') → S.step s l s') {s : σ} (hs : S.init s)
    {ls : List ι} (hls : (runSched act as s).map Prod.fst = some ls) :
    S.Exec ls (((runSched act as s).map Prod.snd).getD s) := by
  obtain ⟨p, hp, rfl⟩ := Option.map_eq_some_iff.mp hls
  rw [hp, ← List.nil_append p.1]
  exact Sys.exec_runSched hact (.init hs) hp

/-- The state a schedule ends in, when all its actions can happen. -/
theorem Sys.reach_end {α : Type} {S : Sys σ ι} {act : σ → α → Option (Option ι × σ)} {as : List α}
    (hact : ∀ a ∈ as, ∀ s l s', act s a = some (l, s') → S.step s l s') {s : σ} (hs : S.init s)
    (hsome : (runSched act as s).isSome = true) :
    S.Reach (((runSched act as s).map Prod.snd).getD s) := by
  obtain ⟨p, hp⟩ := Option.isSome_iff_exists.mp hsome
  exact (Sys.exec_end hact hs (congrArg (Option.map Prod.fst) hp)).reach

/-! ## 7. Measures -/

open Finset in
/-- The measures of the parts of a state, when a step changes one part. -/
theorem sum_except {n i : Nat} {f g : Nat → Nat} (hi : i < n) (h : ∀ j, j ≠ i → f j = g j) :
    ∃ r, ∑ j ∈ range n, f j = f i + r ∧ ∑ j ∈ range n, g j = g i + r := by
  refine ⟨∑ j ∈ (range n).erase i, f j, ?_, ?_⟩
  · exact (add_sum_erase _ _ (mem_range.mpr hi)).symm
  · rw [← add_sum_erase _ _ (mem_range.mpr hi)]
    congr 1
    exact sum_congr rfl (fun j hj => (h j (ne_of_mem_erase hj)).symm)

end MemOrder.Trans
