/-
# Straight-line code on a shared memory: sequential consistency and x86-TSO

A thread's code is a sequence of instructions, each with at most one shared-memory operation.
`Instr M S κ` is one such instruction: `M` is the memory as a whole, `S` a store (with its action
`app : M → S → M` on memory), `κ` what the thread does next.  It has two meanings:

* `Instr.sc`: the operation takes place in memory at once;
* `Instr.tso`: every thread has a FIFO store buffer.  A store goes into the buffer, a load sees
  the thread's own buffered stores over memory (`view`), a locked exchange and a fence take
  place only with an empty buffer, and the oldest buffered store drains at any moment.

The two are related by `Instr.tso_of_sc`, a sequentially consistent step is a TSO step whose store is
drained at once, and by `Instr.tso_sc`, a TSO step is a sequentially consistent step on the memory that
the thread sees.
-/
import Mathlib.Logic.Function.Basic
import Mathlib.Data.List.Basic

namespace MemOrder.Tso

variable {M S κ : Type}

/-- One instruction. -/
inductive Instr (M S κ : Type)
  /-- A load; the rest of the thread's computation sees the whole memory. -/
  | load (k : M → κ)
  /-- A plain store. -/
  | store (st : S) (k : κ)
  /-- A locked exchange: the store is done, and the old memory seen, in one step. -/
  | xchg (st : S) (k : M → κ)
  /-- A full fence. -/
  | fence (k : κ)

/-- Memory as a thread sees it: its buffered stores, oldest first, over memory. -/
def view (app : M → S → M) (m : M) (buf : List S) : M := buf.foldl app m

/-- The instruction, sequentially consistent. -/
def Instr.sc (app : M → S → M) (m : M) : Instr M S κ → M × κ
  | .load k => (m, k m)
  | .store st k => (app m st, k)
  | .xchg st k => (app m st, k m)
  | .fence k => (m, k)

/-- The instruction on x86-TSO, by a thread with buffer `buf`; `none` while it cannot step. -/
def Instr.tso (app : M → S → M) (m : M) (buf : List S) : Instr M S κ → Option (M × List S × κ)
  | .load k => some (m, buf, k (view app m buf))
  | .store st k => some (m, buf ++ [st], k)
  | .xchg st k => if buf = [] then some (app m st, [], k m) else none
  | .fence k => if buf = [] then some (m, [], k) else none

variable {app : M → S → M} {m : M}

@[simp] theorem view_nil : view app m [] = m := rfl

@[simp] theorem view_cons (st : S) (buf : List S) :
    view app m (st :: buf) = view app (app m st) buf := rfl

theorem view_append (buf : List S) (st : S) :
    view app m (buf ++ [st]) = app (view app m buf) st := by
  simp [view]

/-- What a thread sees at one location (`get`, written by the stores `mk x`) is what memory has there,
or one of its own buffered stores to it. -/
theorem view_cases {α : Type} (get : M → α) (mk : α → S) (hmk : ∀ m x, get (app m (mk x)) = x)
    (hother : ∀ m st, (∀ x, st ≠ mk x) → get (app m st) = get m) (m : M) (buf : List S) :
    (get (view app m buf) = get m ∧ ∀ x, mk x ∉ buf) ∨ mk (get (view app m buf)) ∈ buf := by
  induction buf generalizing m with
  | nil => exact Or.inl ⟨rfl, by simp⟩
  | cons st buf ih =>
    rw [view_cons]
    rcases ih (app m st) with ⟨hm, hnone⟩ | hmem
    · rw [hm]
      by_cases hst : ∃ x, st = mk x
      · obtain ⟨x, rfl⟩ := hst
        rw [hmk]
        exact Or.inr List.mem_cons_self
      · rw [not_exists] at hst
        refine Or.inl ⟨hother m st hst, ?_⟩
        intro x hx
        rcases List.mem_cons.mp hx with hx | hx
        · exact hst x hx.symm
        · exact hnone x hx
    · exact Or.inr (List.mem_cons_of_mem _ hmem)

/-- What a thread sees at a location depends on memory only there. -/
theorem view_congr {α : Type} (get : M → α) {m' : M} (hget : ∀ m₁ m₂ st, get m₁ = get m₂ →
    get (app m₁ st) = get (app m₂ st)) (buf : List S) (h : get m = get m') :
    get (view app m buf) = get (view app m' buf) := by
  induction buf generalizing m m' with
  | nil => exact h
  | cons st buf ih => exact ih (hget m m' st h)

/-- **What an instruction can do on TSO.** -/
theorem Instr.tso_cases {i : Instr M S κ} {m' : M} {buf buf' : List S} {r : κ}
    (h : i.tso app m buf = some (m', buf', r)) :
    (∃ k, i = .load k ∧ m' = m ∧ buf' = buf ∧ r = k (view app m buf)) ∨
      (∃ st, i = .store st r ∧ m' = m ∧ buf' = buf ++ [st]) ∨
      (∃ st k, i = .xchg st k ∧ buf = [] ∧ m' = app m st ∧ buf' = [] ∧ r = k m) ∨
      (i = .fence r ∧ buf = [] ∧ m' = m ∧ buf' = []) := by
  cases i with
  | load k =>
    cases h
    exact Or.inl ⟨k, rfl, rfl, rfl, rfl⟩
  | store st k =>
    cases h
    exact Or.inr (Or.inl ⟨st, rfl, rfl, rfl⟩)
  | xchg st k =>
    simp only [Instr.tso] at h
    split at h
    · rename_i hb
      cases h
      exact Or.inr (Or.inr (Or.inl ⟨st, k, rfl, hb, rfl, rfl, rfl⟩))
    · cases h
  | fence k =>
    simp only [Instr.tso] at h
    split at h
    · rename_i hb
      cases h
      exact Or.inr (Or.inr (Or.inr ⟨rfl, hb, rfl, rfl⟩))
    · cases h

/-- **What a thread sees is sequentially consistent.**  To the thread itself its instruction on TSO is
the instruction on the memory that it sees. -/
theorem Instr.tso_sc {i : Instr M S κ} {m' : M} {buf buf' : List S} {r : κ}
    (h : i.tso app m buf = some (m', buf', r)) :
    i.sc app (view app m buf) = (view app m' buf', r) := by
  rcases Instr.tso_cases h with ⟨k, rfl, rfl, rfl, rfl⟩ | ⟨st, rfl, rfl, rfl⟩ |
    ⟨st, k, rfl, rfl, rfl, rfl, rfl⟩ | ⟨rfl, rfl, rfl, rfl⟩
  · rfl
  · rw [view_append]
    rfl
  · rfl
  · rfl

/-- Whatever memory the instruction meets, what follows it has `P`. -/
def Instr.All (P : κ → Prop) : Instr M S κ → Prop
  | .load k => ∀ m, P (k m)
  | .store _ k => P k
  | .xchg _ k => ∀ m, P (k m)
  | .fence k => P k

theorem Instr.All.sc {P : κ → Prop} {i : Instr M S κ} (hP : i.All P) (m : M) : P (i.sc app m).2 := by
  cases i with
  | load k => exact hP m
  | store st k => exact hP
  | xchg st k => exact hP m
  | fence k => exact hP

theorem Instr.All.tso {P : κ → Prop} {i : Instr M S κ} (hP : i.All P) {m' : M} {buf buf' : List S}
    {r : κ} (h : i.tso app m buf = some (m', buf', r)) : P r := by
  rcases Instr.tso_cases h with ⟨k, rfl, -, -, rfl⟩ | ⟨st, rfl, -, -⟩ | ⟨st, k, rfl, -, -, -, rfl⟩ |
    ⟨rfl, -⟩
  · exact hP _
  · exact hP
  · exact hP _
  · exact hP

/-- **Sequential consistency is TSO with every store drained at once.** -/
theorem Instr.tso_of_sc (app : M → S → M) (m : M) (i : Instr M S κ) :
    i.tso app m [] = some ((i.sc app m).1, [], (i.sc app m).2) ∨
      ∃ st k, i = .store st k ∧ i.tso app m [] = some (m, [st], k) ∧ i.sc app m = (app m st, k) := by
  cases i with
  | load k => exact Or.inl rfl
  | store st k => exact Or.inr ⟨st, k, rfl, rfl, rfl⟩
  | xchg st k => exact Or.inl rfl
  | fence k => exact Or.inl rfl

end MemOrder.Tso
