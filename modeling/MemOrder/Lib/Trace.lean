/-
# Traces as total orders

A run that takes effect one access at a time IS a list, and the list is the total order.  This
module has the vocabulary for talking about it: `Before tr a b` (some occurrence of `a` comes
before some occurrence of `b`), the splits of a trace that grows at the end, and the "first
element with a property" split every progress argument starts from.
-/
import Mathlib.Data.List.Basic

namespace MemOrder.Trace

variable {α : Type}

/-- In the order `tr`, `a` stands before `b`. -/
def Before (tr : List α) (a b : α) : Prop := ∃ pre post, tr = pre ++ b :: post ∧ a ∈ pre

theorem Before.mem_left {tr : List α} {a b : α} (h : Before tr a b) : a ∈ tr := by
  obtain ⟨pre, post, rfl, ha⟩ := h
  exact List.mem_append_left _ ha

/-- Two members of a trace are equal or one stands before the other. -/
theorem before_trichotomy {tr : List α} {a b : α} (ha : a ∈ tr) (hb : b ∈ tr) :
    Before tr a b ∨ a = b ∨ Before tr b a := by
  obtain ⟨pre, post, rfl⟩ := List.append_of_mem hb
  rcases List.mem_append.mp ha with h | h
  · exact Or.inl ⟨pre, post, rfl, h⟩
  · rcases List.mem_cons.mp h with rfl | h
    · exact Or.inr (Or.inl rfl)
    · obtain ⟨l, r, rfl⟩ := List.append_of_mem h
      exact Or.inr (Or.inr ⟨pre ++ b :: l, r, by simp, by simp⟩)

/-- A split of a trace grown by one element is the new element at the end or a split of the old
trace. -/
theorem snoc_split {tr pre post : List α} {e x : α} (h : tr ++ [e] = pre ++ x :: post) :
    (pre = tr ∧ x = e ∧ post = []) ∨ ∃ post', post = post' ++ [e] ∧ tr = pre ++ x :: post' := by
  rcases List.append_eq_append_iff.mp h with ⟨as, rfl, has⟩ | ⟨cs, rfl, hcs⟩
  · cases as with
    | nil =>
      simp only [List.nil_append, List.cons.injEq] at has
      exact Or.inl ⟨List.append_nil _, has.1.symm, has.2.symm⟩
    | cons a as => simp at has
  · cases cs with
    | nil =>
      simp only [List.nil_append, List.cons.injEq] at hcs
      exact Or.inl ⟨(List.append_nil _).symm, hcs.1, hcs.2⟩
    | cons c cs =>
      simp only [List.cons_append, List.cons.injEq] at hcs
      exact Or.inr ⟨cs, hcs.2, by rw [hcs.1]⟩

/-- Without repetitions, what stands before `b` is what stands before it in any split. -/
theorem Before.mem_of_split {tr pre post : List α} {a b : α} (hn : tr.Nodup)
    (heq : tr = pre ++ b :: post) (h : Before tr a b) : a ∈ pre := by
  obtain ⟨p, q, hpq, ha⟩ := h
  rcases List.append_eq_append_iff.mp (heq.symm.trans hpq) with ⟨as, rfl, has⟩ | ⟨cs, rfl, -⟩
  · cases as with
    | nil => simpa using ha
    | cons c as =>
      simp only [List.cons_append, List.cons.injEq] at has
      rw [heq, has.2] at hn
      have hb := (List.nodup_append.mp hn).2.1
      simp at hb
  · exact List.mem_append_left _ ha

/-- The first member with a property. -/
theorem exists_first {tr : List α} {P : α → Prop} (h : ∃ x ∈ tr, P x) :
    ∃ pre x post, tr = pre ++ x :: post ∧ P x ∧ ∀ y ∈ pre, ¬ P y := by
  induction tr with
  | nil => obtain ⟨x, hx, -⟩ := h; exact absurd hx (by simp)
  | cons a tr ih =>
    by_cases ha : P a
    · exact ⟨[], a, tr, rfl, ha, by simp⟩
    · obtain ⟨x, hx, hPx⟩ := h
      have hx' : x ∈ tr := by
        rcases List.mem_cons.mp hx with rfl | hx'
        · exact absurd hPx ha
        · exact hx'
      obtain ⟨pre, y, post, rfl, hy, hpre⟩ := ih ⟨x, hx', hPx⟩
      refine ⟨a :: pre, y, post, rfl, hy, ?_⟩
      intro z hz
      rcases List.mem_cons.mp hz with rfl | hz
      · exact ha
      · exact hpre z hz

end MemOrder.Trace
