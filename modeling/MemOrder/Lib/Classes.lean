/-
# Lists cut into classes

Elements have a key, a natural number below `n`; `cls key l o` is the class of key `o`, in the order
of `l`, and `classes key n l` the classes one after the other.  A list that is sorted by key IS its
classes one after the other, so class `o` is the segment of length `(cls key l o).length` that
starts at `before key l o`; the segments of all keys cut the list into disjoint pieces.

This is what an index of offsets and counts over a sorted file relies on: `before` is the offset,
the length of the class is the count, `cls_eq_segment` says that reading there gives the class and
`existsUnique_segment` that nothing of the file is left out or read twice.
-/
import Mathlib.Data.List.Basic
import Mathlib.Data.List.Perm.Basic
import Mathlib.Data.List.Pairwise

namespace MemOrder.Classes

variable {α : Type} (key : α → Nat)

/-- The elements of key `o`. -/
def cls (l : List α) (o : Nat) : List α := l.filter (fun x => key x == o)

/-- How many elements have a smaller key than `o`. -/
def before (l : List α) (o : Nat) : Nat := l.countP (fun x => key x < o)

/-- All classes below `n`, one after the other. -/
def classes (n : Nat) (l : List α) : List α := (List.range n).flatMap (cls key l)

variable {key} {l : List α} {n o : Nat}

/-- The members of a class. -/
theorem mem_cls {x : α} : x ∈ cls key l o ↔ x ∈ l ∧ key x = o := by
  simp [cls]

/-- Cutting into classes drops the elements with a key that is not below `n`, and no others. -/
theorem mem_classes {x : α} : x ∈ classes key n l ↔ x ∈ l ∧ key x < n := by
  simp only [classes, List.mem_flatMap, List.mem_range, mem_cls]
  constructor
  · rintro ⟨o, ho, hx, rfl⟩
    exact ⟨hx, ho⟩
  · rintro ⟨hx, hlt⟩
    exact ⟨key x, hlt, hx, rfl⟩

/-- One more class at the end. -/
theorem classes_succ (n : Nat) (l : List α) :
    classes key (n + 1) l = classes key n l ++ cls key l n := by
  rw [classes, classes, List.range_succ, List.flatMap_append]
  simp

theorem cls_append (l₁ l₂ : List α) (o : Nat) :
    cls key (l₁ ++ l₂) o = cls key l₁ o ++ cls key l₂ o := List.filter_append ..

theorem before_append (l₁ l₂ : List α) (o : Nat) :
    before key (l₁ ++ l₂) o = before key l₁ o + before key l₂ o := List.countP_append

/-- A key that no element has. -/
theorem cls_eq_nil (h : ∀ x ∈ l, key x ≠ o) : cls key l o = [] := by
  rw [cls, List.filter_eq_nil_iff]
  intro x hx
  simpa using h x hx

/-- Nothing has a key below the first. -/
theorem before_zero (l : List α) : before key l 0 = 0 := by
  simp [before]

/-- The elements up to key `o` are those before it and those of its class. -/
theorem before_succ (l : List α) (o : Nat) :
    before key l (o + 1) = before key l o + (cls key l o).length := by
  rw [before, before, cls, ← List.countP_eq_length_filter]
  induction l with
  | nil => rfl
  | cons x l ih =>
    simp only [List.countP_cons, ih, decide_eq_true_eq, beq_iff_eq]
    by_cases h1 : key x < o
    · rw [if_pos (by omega), if_pos h1, if_neg (by omega)]
      omega
    · by_cases h2 : key x = o
      · rw [if_pos (by omega), if_neg h1, if_pos h2]
        omega
      · rw [if_neg (by omega), if_neg h1, if_neg h2]
        omega

/-- Everything has a key below `n`. -/
theorem before_eq_length (h : ∀ x ∈ l, key x < n) : before key l n = l.length := by
  rw [before, List.countP_eq_length]
  simpa using h

/-- The offsets are in the order of the keys. -/
theorem before_mono (key : α → Nat) (l : List α) {o o' : Nat} (h : o ≤ o') : before key l o ≤ before key l o' := by
  induction h with
  | refl => exact Nat.le_refl _
  | step _ ih => exact Nat.le_trans ih (by rw [before_succ]; omega)

/-- The classes together are as long as the offset of the next one. -/
theorem length_classes (n : Nat) (l : List α) : (classes key n l).length = before key l n := by
  induction n with
  | zero => rw [before_zero]; rfl
  | succ n ih => rw [classes_succ, List.length_append, before_succ, ih]

/-- Cutting into classes keeps every class. -/
theorem cls_classes (ho : o < n) : cls key (classes key n l) o = cls key l o := by
  induction n with
  | zero => exact absurd ho (by omega)
  | succ n ih =>
    rw [classes_succ, cls_append]
    by_cases h : o = n
    · subst h
      have h1 : cls key (classes key o l) o = [] :=
        cls_eq_nil (fun x hx => Nat.ne_of_lt (mem_classes.mp hx).2)
      have h2 : cls key (cls key l o) o = cls key l o := by
        rw [cls, cls, List.filter_filter]
        simp
      rw [h1, h2, List.nil_append]
    · have h2 : cls key (cls key l n) o = [] :=
        cls_eq_nil (fun x hx => by rw [(mem_cls.mp hx).2]; exact Ne.symm h)
      rw [ih (by omega), h2, List.append_nil]

/-- Classes that are sorted are sorted together, if smaller keys come first.  By induction on the
number of classes: an element of the last one comes after all those before. -/
theorem pairwise_classes {R : α → α → Prop} (hR : ∀ x y, key x < key y → R x y)
    (hcls : ∀ o, (cls key l o).Pairwise R) : (classes key n l).Pairwise R := by
  induction n with
  | zero => exact List.Pairwise.nil
  | succ n ih =>
    rw [classes_succ, List.pairwise_append]
    refine ⟨ih, hcls n, fun x hx y hy => hR x y ?_⟩
    rw [(mem_cls.mp hy).2]
    exact (mem_classes.mp hx).2

/-- **In a list sorted by key a class is a segment.**  By induction on the list.  An element with a
smaller key than `o` moves the offset by one; one of key `o` is the first of the segment, and
nothing before it was skipped; after one with a larger key there are no elements of key `o` at all.
-/
theorem cls_eq_segment (hs : l.Pairwise (fun x y => key x ≤ key y)) (o : Nat) :
    (l.drop (before key l o)).take (cls key l o).length = cls key l o := by
  induction l with
  | nil => simp [cls]
  | cons x l ih =>
    rw [List.pairwise_cons] at hs
    have ih := ih hs.2
    rw [before, List.countP_cons]
    rcases Nat.lt_trichotomy (key x) o with h | h | h
    · have hc : cls key (x :: l) o = cls key l o :=
        List.filter_cons_of_neg (by simpa using Nat.ne_of_lt h)
      rw [if_pos (by simpa using h), hc, List.drop_succ_cons]
      exact ih
    · -- the class begins here
      have hc : cls key (x :: l) o = x :: cls key l o :=
        List.filter_cons_of_pos (by simpa using h)
      have hb : before key l o = 0 := by
        rw [before, List.countP_eq_zero]
        intro y hy
        have := hs.1 y hy
        simp only [decide_eq_true_eq]
        omega
      rw [hb, List.drop_zero] at ih
      rw [← before, hb, if_neg (by simp; omega), hc]
      simpa using ih
    · -- and has no element here
      have hall : ∀ y ∈ x :: l, o < key y := by
        intro y hy
        rcases List.mem_cons.mp hy with rfl | hy
        · exact h
        · exact Nat.lt_of_lt_of_le h (hs.1 y hy)
      rw [cls_eq_nil (fun y hy => Nat.ne_of_gt (hall y hy))]
      rfl

/-- **Every position is in the segment of exactly one class.**  The offsets rise from 0 to the
length of the list, so the position is between two neighbours; were it in two segments, one of them
would end where the other begins or before. -/
theorem existsUnique_segment (h : ∀ x ∈ l, key x < n) {p : Nat} (hp : p < l.length) :
    ∃! o, o < n ∧ before key l o ≤ p ∧ p < before key l o + (cls key l o).length := by
  have hex : ∃ o, o < n ∧ before key l o ≤ p ∧ p < before key l (o + 1) := by
    rw [← before_eq_length h] at hp
    clear h
    induction n with
    | zero => rw [before_zero] at hp; exact absurd hp (Nat.not_lt_zero _)
    | succ n ih =>
      rcases Nat.lt_or_ge p (before key l n) with hlt | hge
      · obtain ⟨o, ho, hrest⟩ := ih hlt
        exact ⟨o, by omega, hrest⟩
      · exact ⟨n, Nat.lt_succ_self n, hge, hp⟩
  obtain ⟨o, ho, h1, h2⟩ := hex
  refine ⟨o, ⟨ho, h1, by rw [← before_succ]; exact h2⟩, ?_⟩
  rintro o' ⟨-, h1', h2'⟩
  rw [← before_succ] at h2'
  rcases Nat.lt_trichotomy o' o with hlt | heq | hgt
  · have := before_mono key l (show o' + 1 ≤ o from hlt)
    omega
  · exact heq
  · have := before_mono key l (show o + 1 ≤ o' from hgt)
    omega

end MemOrder.Classes
