/-
# Merging sorted logs with a priority queue

Both log mergers keep one pending element per source in a priority queue, pop a smallest one and
refill from the source it came from.  The queue is an abstract type here: `PQueue` says what the
mergers rely on, namely that `pop` returns SOME element that none is smaller than.  Everything
below holds for every implementation, so nothing depends on how ties are broken.

`Merges p out` is the merge itself, without a queue: from pending logs `p` some smallest head is
moved to the output until nothing is left.  `mergeLoop_merges` connects the two, termination
included, and the rest is about `Merges`: every source keeps its own order (`Merges.filter_eq`),
nothing is lost or made up (`Merges.perm`), and the output is sorted if the logs are
(`Merges.sorted`).
-/
import Mathlib.Logic.Function.Basic
import Mathlib.Data.List.Basic
import Mathlib.Data.List.Perm.Basic

namespace MemOrder.KMerge

variable {α β : Type}

/-! ## 1. Priority queues

The interface: `elems` is a specification, the elements in some order, and the laws are up to
permutation.  A queue in a list (`listQueue`) shows that the interface can be met by any total
comparison, ties or not. -/

/-- A priority queue ordered by the comparison `gt`: `pop` takes out an element that is greater
than none. -/
structure PQueue (α : Type) (gt : α → α → Bool) where
  Q : Type
  empty : Q
  push : Q → α → Q
  pop : Q → Option (α × Q)
  elems : Q → List α
  elems_empty : elems empty = []
  elems_push : ∀ q a, (elems (push q a)).Perm (a :: elems q)
  pop_none : ∀ q, pop q = none → elems q = []
  pop_some : ∀ q a q', pop q = some (a, q') →
    (elems q).Perm (a :: elems q') ∧ ∀ b ∈ elems q, gt a b = false

/-- A comparison for which "not greater" is a total order up to ties. -/
structure Comparison (gt : α → α → Bool) : Prop where
  total : ∀ a b, gt a b = false ∨ gt b a = false
  trans : ∀ a b c, gt a b = false → gt b c = false → gt a c = false

/-- Take a smallest element out of a list. -/
def popMin (gt : α → α → Bool) : List α → Option (α × List α)
  | [] => none
  | a :: l =>
    match popMin gt l with
    | none => some (a, [])
    | some (b, l') => if gt a b then some (b, a :: l') else some (a, l)

/-- Only from an empty list nothing can be taken. -/
theorem popMin_none {gt : α → α → Bool} : ∀ l : List α, popMin gt l = none → l = []
  | [], _ => rfl
  | a :: l, h => by
    simp only [popMin] at h
    split at h
    · cases h
    · split at h <;> cases h

/-- What is taken out is smallest: by induction it is no greater than anything in the rest of the
list, and it is compared with the first element. -/
theorem popMin_some {gt : α → α → Bool} (hc : Comparison gt) : ∀ (l : List α) (a : α)
    (l' : List α), popMin gt l = some (a, l') →
    l.Perm (a :: l') ∧ ∀ b ∈ l, gt a b = false
  | [], _, _, h => by cases h
  | a :: l, c, l'', h => by
    have hself : ∀ x, gt x x = false := fun x => (hc.total x x).elim id id
    simp only [popMin] at h
    split at h
    · rename_i hnone
      cases h
      rw [popMin_none l hnone]
      exact ⟨List.Perm.refl _, fun b hb => by rw [List.mem_singleton] at hb; rw [hb]; exact hself _⟩
    · rename_i b l' hsome
      obtain ⟨hperm, hmin⟩ := popMin_some hc l b l' hsome
      split at h
      · rename_i hgt
        cases h
        refine ⟨(hperm.cons a).trans (List.Perm.swap c a l'), ?_⟩
        intro x hx
        rcases List.mem_cons.mp hx with rfl | hx
        · exact (hc.total c x).resolve_right (by simp [hgt])
        · exact hmin x hx
      · rename_i hgt
        cases h
        refine ⟨List.Perm.refl _, ?_⟩
        intro x hx
        rcases List.mem_cons.mp hx with rfl | hx
        · exact hself _
        · exact hc.trans _ b _ (by simpa using hgt) (hmin x hx)

/-- A list as a priority queue. -/
def listQueue (gt : α → α → Bool) (hc : Comparison gt) : PQueue α gt where
  Q := List α
  empty := []
  push q a := a :: q
  pop := popMin gt
  elems := id
  elems_empty := rfl
  elems_push _ _ := List.Perm.refl _
  pop_none := popMin_none
  pop_some := popMin_some hc

/-! ## 2. The loop

The loop of a merger as code: pop, use the element, refill.  The log of a source holds UNTAGGED
entries, as a file does; an entry is tagged with its source when it is put into the queue, and the
tag is how the loop knows from where to refill. -/

section Code

variable {gt : α → α → Bool} (P : PQueue α gt)

/-- The first entry of source `i`, if it has one, goes into the queue as `tag i`. -/
def enqueueFirst (tag : Nat → β → α) (r : P.Q × (Nat → List β)) (i : Nat) :
    P.Q × (Nat → List β) :=
  match r.2 i with
  | [] => r
  | x :: rest => (P.push r.1 (tag i x), Function.update r.2 i rest)

/-- The first entries of the sources below `n`. -/
def enqueueAll (tag : Nat → β → α) (n : Nat) (logs : Nat → List β) : P.Q × (Nat → List β) :=
  (List.range n).foldl (enqueueFirst P tag) (P.empty, logs)

/-- Pop an element `e`, put the next entry of its source into the queue as `mk e`, repeat.  `none`
when the fuel runs out. -/
def mergeLoop (src : α → Nat) (mk : α → β → α) :
    Nat → P.Q → (Nat → List β) → Option (List α)
  | fuel, q, logs =>
    match P.pop q with
    | none => some []
    | some (e, q') =>
      match fuel with
      | 0 => none
      | fuel + 1 =>
        match logs (src e) with
        | [] => (mergeLoop src mk fuel q' logs).map (e :: ·)
        | x :: rest =>
          (mergeLoop src mk fuel (P.push q' (mk e x)) (Function.update logs (src e) rest)).map
            (e :: ·)

/-- The loop with a body that is run on each popped element, before the refill. -/
def mergeLoopWith {ε σ : Type} (src : α → Nat) (mk : α → β → α) (body : σ → α → Except ε σ) :
    Nat → P.Q → (Nat → List β) → σ → Option (Except ε σ)
  | fuel, q, logs, s =>
    match P.pop q with
    | none => some (.ok s)
    | some (e, q') =>
      match fuel with
      | 0 => none
      | fuel + 1 =>
        match body s e with
        | .error x => some (.error x)
        | .ok s' =>
          match logs (src e) with
          | [] => mergeLoopWith src mk body fuel q' logs s'
          | x :: rest =>
            mergeLoopWith src mk body fuel (P.push q' (mk e x)) (Function.update logs (src e) rest) s'

/-- The body sees the elements in the order of the merge. -/
theorem mergeLoopWith_eq {ε σ : Type} {src : α → Nat} {mk : α → β → α}
    (body : σ → α → Except ε σ) {out : List α} {fuel : Nat} {q : P.Q} {logs : Nat → List β} {s : σ}
    (h : mergeLoop P src mk fuel q logs = some out) :
    mergeLoopWith P src mk body fuel q logs s = some (out.foldlM body s) := by
  induction fuel generalizing q logs out s with
  | zero =>
    unfold mergeLoop at h
    unfold mergeLoopWith
    cases hp : P.pop q with
    | none =>
      rw [hp] at h
      cases h
      rfl
    | some r => rw [hp] at h; cases h
  | succ fuel ih =>
    unfold mergeLoop at h
    unfold mergeLoopWith
    cases hp : P.pop q with
    | none =>
      rw [hp] at h
      cases h
      rfl
    | some r =>
      obtain ⟨e, q'⟩ := r
      simp only [hp] at h ⊢
      -- the rest of the output, whether or not the source of `e` has an entry left
      have hrest : ∀ q'' logs'', (mergeLoop P src mk fuel q'' logs'').map (e :: ·) = some out →
          (match body s e with
            | .error x => some (.error x)
            | .ok s' => mergeLoopWith P src mk body fuel q'' logs'' s') =
            some (out.foldlM body s) := by
        intro q'' logs'' h''
        obtain ⟨out', hout, rfl⟩ := Option.map_eq_some_iff.mp h''
        rw [List.foldlM_cons]
        cases body s e with
        | error x => rfl
        | ok s' => exact ih hout
      cases hl : logs (src e) with
      | nil =>
        simp only [hl] at h ⊢
        exact hrest _ _ h
      | cons x rest =>
        simp only [hl] at h ⊢
        exact hrest _ _ h

end Code

/-- The merge, as a relation between the pending logs of `n` sources and the output. -/
inductive Merges (gt : α → α → Bool) (n : Nat) : (Nat → List α) → List α → Prop
  | nil {p : Nat → List α} : (∀ i < n, p i = []) → Merges gt n p []
  | cons {p : Nat → List α} {i : Nat} {x : α} {rest out : List α} : i < n → p i = x :: rest →
      (∀ j < n, ∀ y, (p j).head? = some y → gt x y = false) →
      Merges gt n (Function.update p i rest) out → Merges gt n p (x :: out)

/-! ## 3. Tables of lists

The pending logs are a table with a row for each source.  The queue holds the heads of the rows, and
a turn of the loop changes one row; so what is needed is that changing one row changes its own part
of a concatenation and no other, up to order. -/

/-- One row of a table, and the rest of it. -/
theorem flatMap_range_perm (f : Nat → List β) {i : Nat} : ∀ n, i < n →
    ((List.range n).flatMap f).Perm
      (f i ++ (List.range n).flatMap (fun j => if j = i then [] else f j))
  | 0, h => absurd h (by simp)
  | n + 1, h => by
    rw [List.range_succ, List.flatMap_append, List.flatMap_append, List.flatMap_singleton,
      List.flatMap_singleton]
    rcases Nat.lt_or_ge i n with hlt | hge
    · rw [if_neg (by omega : ¬ n = i), ← List.append_assoc]
      exact (flatMap_range_perm f n hlt).append_right _
    · obtain rfl : i = n := by omega
      rw [if_pos rfl, List.append_nil]
      have : (List.range i).flatMap (fun j => if j = i then [] else f j) = (List.range i).flatMap f := by
        refine List.flatMap_congr ?_
        intro j hj
        rw [if_neg (Nat.ne_of_lt (List.mem_range.mp hj))]
      rw [this]
      exact List.perm_append_comm

/-- Changing one row changes that row only. -/
theorem flatMap_range_update (f : (Nat → List α) → Nat → List β) (p : Nat → List α) {i n : Nat}
    (hi : i < n) (l : List α) (hf : ∀ q j, j ≠ i → f (Function.update p i q) j = f p j) :
    ((List.range n).flatMap (f (Function.update p i l))).Perm
      (f (Function.update p i l) i
        ++ (List.range n).flatMap (fun j => if j = i then [] else f p j)) := by
  refine (flatMap_range_perm _ n hi).trans (List.Perm.append_left _ ?_)
  have : (fun j => if j = i then [] else f (Function.update p i l) j)
      = fun j => if j = i then [] else f p j := by
    funext j
    by_cases hj : j = i
    · rw [if_pos hj, if_pos hj]
    · rw [if_neg hj, if_neg hj, hf l j hj]
  rw [this]

/-- The heads of the pending logs, which are what the queue holds. -/
def heads (n : Nat) (p : Nat → List α) : List α := (List.range n).flatMap (fun i => (p i).head?.toList)

/-- All pending elements. -/
def pending (n : Nat) (p : Nat → List α) : List α := (List.range n).flatMap p

/-- The heads without source `i`'s. -/
def otherHeads (n : Nat) (p : Nat → List α) (i : Nat) : List α :=
  (List.range n).flatMap (fun j => if j = i then [] else (p j).head?.toList)

/-- An element of the heads is the head of some row. -/
theorem mem_heads {n : Nat} {p : Nat → List α} {x : α} :
    x ∈ heads n p ↔ ∃ i < n, (p i).head? = some x := by
  simp [heads, List.mem_flatMap]

/-- A pending element is in some row. -/
theorem mem_pending {n : Nat} {p : Nat → List α} {x : α} :
    x ∈ pending n p ↔ ∃ i < n, x ∈ p i := by
  simp [pending, List.mem_flatMap]

/-- The heads, with that of source `i` in front. -/
theorem heads_perm {n i : Nat} {p : Nat → List α} (hi : i < n) :
    (heads n p).Perm ((p i).head?.toList ++ otherHeads n p i) :=
  flatMap_range_perm _ n hi

/-- The same after row `i` has changed: the other heads are the same. -/
theorem heads_update_perm {n i : Nat} {p : Nat → List α} (hi : i < n) (l : List α) :
    (heads n (Function.update p i l)).Perm (l.head?.toList ++ otherHeads n p i) := by
  have := flatMap_range_update (fun p j => (p j).head?.toList) p hi l
    (fun q j hj => by simp [Function.update_of_ne hj])
  simpa [heads, otherHeads] using this

/-- Taking the head off one row takes one element away. -/
theorem pending_update_perm {n i : Nat} {p : Nat → List α} {x : α} {rest : List α} (hi : i < n)
    (hp : p i = x :: rest) : (pending n p).Perm (x :: pending n (Function.update p i rest)) := by
  have h1 : (pending n p).Perm (p i ++ _) := flatMap_range_perm p n hi
  have h2 := flatMap_range_update (fun p j => p j) p hi rest
    (fun q j hj => by simp [Function.update_of_ne hj])
  rw [Function.update_self] at h2
  rw [hp] at h1
  exact h1.trans (List.Perm.cons x h2.symm)

/-! ## 4. The loop is the merge

The invariant of the loop: the queue holds exactly the heads of the pending rows, and the logs hold
what is behind the heads.  `p` are the pending rows with their tags, and does not occur in the code.
One turn takes the row of the popped element to its tail, both in `p` and in the code; the fuel that
is needed is the number of pending elements, of which each turn uses one. -/

section Loop

variable {gt : α → α → Bool} {P : PQueue α gt} {n : Nat} {src : α → Nat} {mk : α → β → α}

/-- What the refills rely on: an entry is tagged with its source and nothing else. -/
structure Tagging (src : α → Nat) (mk : α → β → α) : Prop where
  src_mk : ∀ e x, src (mk e x) = src e
  mk_mk : ∀ e x y, mk (mk e x) y = mk e y

/-- The entries behind a head, still untagged in the log. -/
def Behind (mk : α → β → α) (log : List β) : List α → Prop
  | [] => log = []
  | e :: rest => rest = log.map (mk e)

/-- The queue holds the heads, and the logs what comes after them. -/
structure Holds (P : PQueue α gt) (n : Nat) (src : α → Nat) (mk : α → β → α) (p : Nat → List α)
    (q : P.Q) (logs : Nat → List β) : Prop where
  heads : (P.elems q).Perm (heads n p)
  logs : ∀ i < n, Behind mk (logs i) (p i)
  src : ∀ i < n, ∀ e ∈ p i, src e = i

/-- The source whose head is popped.  The element is in the queue, so it is the head of a row; that
row is the one of its source, and no head is smaller. -/
theorem Holds.pop {p : Nat → List α} {q q' : P.Q} {logs : Nat → List β} {e : α}
    (h : Holds P n src mk p q logs) (hpop : P.pop q = some (e, q')) :
    src e < n ∧ p (src e) = e :: (logs (src e)).map (mk e) ∧
      (∀ j < n, ∀ y, (p j).head? = some y → gt e y = false) ∧
      (P.elems q').Perm (otherHeads n p (src e)) := by
  obtain ⟨hperm, hmin⟩ := P.pop_some q e q' hpop
  have he : e ∈ P.elems q := hperm.mem_iff.mpr List.mem_cons_self
  obtain ⟨i, hi, hhead⟩ := mem_heads.mp (h.heads.mem_iff.mp he)
  obtain ⟨rest, hp⟩ : ∃ rest, p i = e :: rest := List.head?_eq_some_iff.mp hhead
  obtain rfl : src e = i := h.src i hi e (by rw [hp]; exact List.mem_cons_self)
  have hrest : rest = (logs (src e)).map (mk e) := by
    have := h.logs _ hi
    rwa [hp] at this
  refine ⟨hi, by rw [hp, hrest], ?_, ?_⟩
  · intro j hj y hy
    exact hmin y (h.heads.mem_iff.mpr (mem_heads.mpr ⟨j, hj, hy⟩))
  · -- without `e` the queue holds the heads of the other sources
    have h1 := (hperm.symm.trans h.heads).trans (heads_perm hi)
    rw [hp] at h1
    exact h1.cons_inv

/-- **One turn of the loop**: the source of the popped element is refilled.  Stated for any queue
and logs that result, so that it serves the case where the log has another entry and the case where
it has none. -/
theorem Holds.refill (ht : Tagging src mk) {p : Nat → List α} {q q' : P.Q}
    {logs : Nat → List β} {e : α} (h : Holds P n src mk p q logs) (q'' : P.Q)
    (logs' : Nat → List β) (hpop : P.pop q = some (e, q')) (hlogs : ∀ j, j ≠ src e → logs' j = logs j)
    (hbehind : Behind mk (logs' (src e)) ((logs (src e)).map (mk e)))
    (hq : (P.elems q'').Perm (((logs (src e)).map (mk e)).head?.toList ++ P.elems q')) :
    Holds P n src mk (Function.update p (src e) ((logs (src e)).map (mk e))) q'' logs' := by
  obtain ⟨hi, hp, -, hother⟩ := h.pop hpop
  constructor
  · exact hq.trans ((hother.append_left _).trans (heads_update_perm hi _).symm)
  · intro j hj
    by_cases hje : j = src e
    · subst hje; rw [Function.update_self]; exact hbehind
    · rw [Function.update_of_ne hje, hlogs j hje]; exact h.logs j hj
  · intro j hj x hx
    by_cases hje : j = src e
    · subst hje
      rw [Function.update_self] at hx
      obtain ⟨y, -, rfl⟩ := List.mem_map.mp hx
      exact ht.src_mk e y
    · rw [Function.update_of_ne hje] at hx
      exact h.src j hj x hx

/-- An empty queue: nothing is pending. -/
theorem Holds.pop_none {p : Nat → List α} {q : P.Q} {logs : Nat → List β}
    (h : Holds P n src mk p q logs) (hpop : P.pop q = none) : ∀ i < n, p i = [] := by
  intro i hi
  have hheads : KMerge.heads n p = [] := by
    have := h.heads
    rw [P.pop_none q hpop] at this
    exact this.nil_eq.symm
  cases hpi : p i with
  | nil => rfl
  | cons x rest =>
    have : x ∈ KMerge.heads n p := mem_heads.mpr ⟨i, hi, by rw [hpi]; rfl⟩
    rw [hheads] at this
    exact absurd this (by simp)

/-- **The loop computes a merge**, with one turn for each pending element. -/
theorem mergeLoop_merges (ht : Tagging src mk) : ∀ (fuel : Nat) (p : Nat → List α) (q : P.Q)
    (logs : Nat → List β), Holds P n src mk p q logs → (pending n p).length ≤ fuel →
    ∃ out, mergeLoop P src mk fuel q logs = some out ∧ Merges gt n p out := by
  intro fuel
  induction fuel with
  | zero =>
    intro p q logs h hlen
    cases hpop : P.pop q with
    | none => exact ⟨[], by simp [mergeLoop, hpop], .nil (h.pop_none hpop)⟩
    | some r =>
      -- the popped element is pending
      obtain ⟨e, q'⟩ := r
      obtain ⟨hlt, hpe, -⟩ := h.pop hpop
      have hmem : e ∈ pending n p := mem_pending.mpr ⟨src e, hlt, by rw [hpe]; simp⟩
      rw [List.eq_nil_of_length_eq_zero (Nat.le_zero.mp hlen)] at hmem
      cases hmem
  | succ fuel ih =>
    intro p q logs h hlen
    cases hpop : P.pop q with
    | none => exact ⟨[], by simp [mergeLoop, hpop], .nil (h.pop_none hpop)⟩
    | some r =>
      obtain ⟨e, q'⟩ := r
      obtain ⟨hlt, hpe, hmin, -⟩ := h.pop hpop
      -- one element less is pending
      have hlen' : (pending n (Function.update p (src e) ((logs (src e)).map (mk e)))).length
          ≤ fuel := by
        have := (pending_update_perm hlt hpe).length_eq
        rw [List.length_cons] at this
        omega
      cases hlog : logs (src e) with
      | nil =>
        have hholds := h.refill ht q' logs hpop (fun j _ => rfl)
          (by rw [hlog]; rfl) (by rw [hlog]; exact List.Perm.refl _)
        obtain ⟨out, hout, hm⟩ := ih _ _ _ hholds hlen'
        refine ⟨e :: out, ?_, .cons hlt hpe hmin hm⟩
        simp [mergeLoop, hpop, hlog, hout]
      | cons x r =>
        have hholds := h.refill ht (P.push q' (mk e x)) (Function.update logs (src e) r) hpop
          (fun j hj => Function.update_of_ne hj _ _) ?_ ?_
        · obtain ⟨out, hout, hm⟩ := ih _ _ _ hholds hlen'
          refine ⟨e :: out, ?_, .cons hlt hpe hmin hm⟩
          simp [mergeLoop, hpop, hlog, hout]
        · rw [Function.update_self, hlog]
          exact List.map_congr_left (fun y _ => (ht.mk_mk e x y).symm)
        · rw [hlog]
          exact P.elems_push q' (mk e x)

end Loop

/-! ## 5. The first entries

Before the loop the first entry of each source is put into the queue; then the invariant holds. -/

section First

variable {gt : α → α → Bool} {src : α → Nat} {mk : α → β → α}

/-- The sources below `k` have their heads in the queue, the others are as they were. -/
theorem enqueueAll_spec (P : PQueue α gt) (tag : Nat → β → α) (logs : Nat → List β) (k : Nat) :
    (P.elems (enqueueAll P tag k logs).1).Perm (heads k (fun i => (logs i).map (tag i))) ∧
      ∀ i, (enqueueAll P tag k logs).2 i = if i < k then (logs i).tail else logs i := by
  induction k with
  | zero => exact ⟨by simp [enqueueAll, heads, P.elems_empty], fun i => by simp [enqueueAll]⟩
  | succ k ih =>
    have hstep : enqueueAll P tag (k + 1) logs
        = enqueueFirst P tag (enqueueAll P tag k logs) k := by
      rw [enqueueAll, List.range_succ, List.foldl_append]
      rfl
    -- source `k` has not been touched yet: its head is the new one
    have hheads : heads (k + 1) (fun i => (logs i).map (tag i))
        = heads k (fun i => (logs i).map (tag i)) ++ ((logs k).map (tag k)).head?.toList := by
      simp [heads, List.range_succ]
    obtain ⟨ih1, ih2⟩ := ih
    have hk : (enqueueAll P tag k logs).2 k = logs k := by rw [ih2, if_neg (Nat.lt_irrefl k)]
    rw [hstep, hheads, enqueueFirst, hk]
    cases hl : logs k with
    | nil =>
      refine ⟨by simpa using ih1, ?_⟩
      intro i
      rw [ih2]
      by_cases hik : i = k
      · subst hik; simp [hl]
      · have : i < k + 1 ↔ i < k := by omega
        simp [this]
    | cons x rest =>
      constructor
      · refine (P.elems_push _ _).trans ((ih1.cons _).trans ?_)
        exact (List.perm_append_singleton _ _).symm
      · intro i
        by_cases hik : i = k
        · subst hik; simp [hl]
        · have : i < k + 1 ↔ i < k := by omega
          simp only [Function.update_of_ne hik]
          rw [ih2]
          simp [this]

/-- **The whole merge**: first entries and loop, with a turn for every entry. -/
theorem merge_merges (P : PQueue α gt) (ht : Tagging src mk) (tag : Nat → β → α)
    (logs : Nat → List β) (n : Nat) (htag : ∀ i x y, mk (tag i x) y = tag i y)
    (hsrc : ∀ i < n, ∀ x, src (tag i x) = i) :
    ∃ out, mergeLoop P src mk ((List.range n).flatMap logs).length (enqueueAll P tag n logs).1
        (enqueueAll P tag n logs).2 = some out ∧
      Merges gt n (fun i => (logs i).map (tag i)) out := by
  obtain ⟨h1, h2⟩ := enqueueAll_spec P tag logs n
  refine mergeLoop_merges ht _ _ _ _ ⟨h1, ?_, ?_⟩ ?_
  · intro i hi
    rw [h2, if_pos hi]
    cases hl : logs i with
    | nil => rfl
    | cons x rest => exact List.map_congr_left (fun y _ => (htag i x y).symm)
  · intro i hi e he
    obtain ⟨x, -, rfl⟩ := List.mem_map.mp he
    exact hsrc i hi x
  · rw [pending, List.length_flatMap, List.length_flatMap]
    simp

end First

/-! ## 6. What a merge gives

No queue and no code from here on: everything is an induction on `Merges`. -/

section Merges

variable {gt : α → α → Bool} {n : Nat} {p : Nat → List α} {out : List α}

/-- Only the logs of the sources below `n` matter. -/
theorem Merges.congr (h : Merges gt n p out) (p' : Nat → List α) (heq : ∀ i < n, p' i = p i) :
    Merges gt n p' out := by
  induction h generalizing p' with
  | nil hp => exact .nil (fun i hi => by rw [heq i hi, hp i hi])
  | @cons p k x rest out hk hp hmin _ ih =>
    refine .cons hk (by rw [heq k hk, hp]) ?_ (ih _ ?_)
    · intro j hj y hy
      rw [heq j hj] at hy
      exact hmin j hj y hy
    · intro i hi
      by_cases hik : i = k
      · subst hik; rw [Function.update_self, Function.update_self]
      · rw [Function.update_of_ne hik, Function.update_of_ne hik, heq i hi]

/-- Nothing is lost, duplicated or made up. -/
theorem Merges.perm (h : Merges gt n p out) : out.Perm (pending n p) := by
  induction h with
  | nil hp =>
    have : pending n _ = [] := List.flatMap_eq_nil_iff.mpr (fun i hi => hp i (List.mem_range.mp hi))
    rw [this]
  | cons hi hp _ _ ih => exact (ih.cons _).trans (pending_update_perm hi hp).symm

/-- **Every source keeps its own order.**  Elements of a source leave its row from the front, and no
other row has any. -/
theorem Merges.filter_eq (h : Merges gt n p out) (src : α → Nat) :
    (∀ i < n, ∀ x ∈ p i, src x = i) → ∀ i < n, out.filter (fun x => src x == i) = p i := by
  induction h with
  | nil hp =>
    intro _ i hi
    rw [hp i hi]
    rfl
  | @cons p k x rest out hk hp _ _ ih =>
    intro hsrc i hi
    have hx : src x = k := hsrc k hk x (by rw [hp]; exact List.mem_cons_self)
    have ih := ih (fun j hj y hy => by
      by_cases hjk : j = k
      · subst hjk
        rw [Function.update_self] at hy
        exact hsrc j hj y (by rw [hp]; exact List.mem_cons_of_mem _ hy)
      · rw [Function.update_of_ne hjk] at hy
        exact hsrc j hj y hy) i hi
    by_cases hik : i = k
    · subst hik
      rw [Function.update_self] at ih
      rw [List.filter_cons_of_pos (by simp [hx]), ih, hp]
    · rw [Function.update_of_ne hik] at ih
      rw [List.filter_cons_of_neg (by simpa [hx] using Ne.symm hik), ih]

/-- **Sorted logs give a sorted output.**  What comes after an element was pending when it was
taken; the head of its row was no smaller, and the row is sorted. -/
theorem Merges.sorted (h : Merges gt n p out)
    (htrans : ∀ a b c, gt a b = false → gt b c = false → gt a c = false) :
    (∀ i < n, (p i).Pairwise (fun a b => gt a b = false)) →
    out.Pairwise (fun a b => gt a b = false) := by
  induction h with
  | nil _ => exact fun _ => List.Pairwise.nil
  | @cons p k x rest out hk hp hmin hm ih =>
    intro hs
    have hk' := hs k hk
    rw [hp, List.pairwise_cons] at hk'
    refine List.Pairwise.cons ?_ (ih ?_)
    · intro y hy
      -- `y` is pending, and the head of its log is between
      obtain ⟨j, hj, hyj⟩ := mem_pending.mp (hm.perm.mem_iff.mp hy)
      by_cases hjk : j = k
      · subst hjk
        rw [Function.update_self] at hyj
        exact hk'.1 y hyj
      · rw [Function.update_of_ne hjk] at hyj
        obtain ⟨z, l, hz⟩ := List.exists_cons_of_ne_nil (List.ne_nil_of_mem hyj)
        have hxz := hmin j hj z (by rw [hz]; rfl)
        have hsj := hs j hj
        rw [hz] at hyj hsj
        rcases List.mem_cons.mp hyj with rfl | hyl
        · exact hxz
        · exact htrans _ z _ hxz ((List.pairwise_cons.mp hsj).1 y hyl)
    · intro i hi
      by_cases hik : i = k
      · subst hik; rw [Function.update_self]; exact hk'.2
      · rw [Function.update_of_ne hik]; exact hs i hi

end Merges

end MemOrder.KMerge
