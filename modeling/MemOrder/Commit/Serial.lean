/-
# Blocks executed one at a time

`mem-record-rtmcommit.c` records one thing: the order in which blocks of `RTM_BATCH_N` accesses take
effect.  This module says what such an order MEANS, without locks, transactions or time stamps:
`serial prog m₀ ts` is memory, and every thread's accesses with their results, after the threads
`ts` have each run one block, in that order.  A block ends after `RTM_BATCH_N` accesses or where the
program ends.

The recorder is shown to end in `serial` of the order of its stamps, and the replayer to compute
`serial` of the log it is given, a prefix at a time.

What both need of it is little.  Nothing that has been done is taken back (`serial_mono`); where a
block ends the thread is at a boundary, so that the remainder of its access number says whether it
is inside of a block (`boundary_serial`); and the number of a thread's blocks is that of its
accesses, divided and rounded up (`Opens.count`).
-/
import MemOrder.Mem

namespace MemOrder.Commit

variable {Addr : Type} [DecidableEq Addr]

/-- An access a thread has made, with what it returned. -/
structure Made (Addr : Type) where
  acc : Acc Addr
  res : Option Val
deriving DecidableEq, Repr

/-- `val = *addr` and `*addr = val`. -/
def doAcc (m : Addr → Val) : Acc Addr → (Addr → Val) × Option Val
  | .read a => (m, some (m a))
  | .write a x => (Function.update m a x, none)

/-- Memory and the accesses every thread has made. -/
structure Config (Addr : Type) where
  mem : Addr → Val
  done : Nat → List (Made Addr)

/-- What the program of thread `t` does next. -/
def Config.next (prog : Nat → Prog Addr) (c : Config Addr) (t : Nat) : Option (Acc Addr) :=
  prog t ((c.done t).map Made.res)

/-- Thread `t` makes an access. -/
def Config.access (c : Config Addr) (t : Nat) (acc : Acc Addr) : Config Addr :=
  ⟨(doAcc c.mem acc).1, Function.update c.done t (c.done t ++ [⟨acc, (doAcc c.mem acc).2⟩])⟩

/-- The next `j` accesses of thread `t`, or all it has left. -/
def runAccesses (prog : Nat → Prog Addr) (t : Nat) : Nat → Config Addr → Config Addr
  | 0, c => c
  | j + 1, c =>
    match (runAccesses prog t j c).next prog t with
    | none => runAccesses prog t j c
    | some acc => (runAccesses prog t j c).access t acc

/-- One block of thread `t`. -/
def runBlock (prog : Nat → Prog Addr) (c : Config Addr) (t : Nat) : Config Addr :=
  runAccesses prog t rtmBatchN c

/-- The blocks of the threads `ts`, in that order. -/
def serial (prog : Nat → Prog Addr) (m₀ : Addr → Val) (ts : List Nat) : Config Addr :=
  ts.foldl (runBlock prog) ⟨m₀, fun _ => []⟩

section Lemmas

variable {prog : Nat → Prog Addr} {m₀ : Addr → Val} {c : Config Addr} {t u : Nat} {acc : Acc Addr}

@[simp] theorem access_done_self :
    (c.access t acc).done t = c.done t ++ [⟨acc, (doAcc c.mem acc).2⟩] := by
  simp [Config.access]

@[simp] theorem access_done_ne (h : u ≠ t) : (c.access t acc).done u = c.done u := by
  simp [Config.access, Function.update_of_ne h]

/-- The accesses of a block are those of one thread. -/
theorem runAccesses_done_ne (h : u ≠ t) (j : Nat) :
    (runAccesses prog t j c).done u = c.done u := by
  induction j with
  | zero => rfl
  | succ j ih =>
    unfold runAccesses
    split
    · exact ih
    · rw [access_done_ne h, ih]

/-- Once the program has ended nothing more happens. -/
theorem runAccesses_of_next_none {j : Nat} (h : (runAccesses prog t j c).next prog t = none) :
    ∀ k, j ≤ k → runAccesses prog t k c = runAccesses prog t j c := by
  intro k hk
  induction k with
  | zero =>
    obtain rfl : j = 0 := by omega
    rfl
  | succ k ih =>
    rcases Nat.eq_or_lt_of_le hk with rfl | hlt
    · rfl
    · have := ih (by omega)
      rw [runAccesses, this, h]

/-- `j` accesses are made, unless the program has ended. -/
theorem runAccesses_length (prog : Nat → Prog Addr) (t : Nat) (c : Config Addr) (j : Nat) :
    ((runAccesses prog t j c).done t).length = (c.done t).length + j ∨
      (runAccesses prog t j c).next prog t = none := by
  induction j with
  | zero => exact Or.inl rfl
  | succ j ih =>
    unfold runAccesses
    cases hn : (runAccesses prog t j c).next prog t with
    | none => exact Or.inr hn
    | some acc =>
      rcases ih with ih | ih
      · refine Or.inl ?_
        simp only [access_done_self, List.length_append, ih, List.length_singleton]
        omega
      · rw [hn] at ih; cases ih

/-- At most `j` accesses are made. -/
theorem runAccesses_length_le (prog : Nat → Prog Addr) (t : Nat) (c : Config Addr) (j : Nat) :
    (c.done t).length ≤ ((runAccesses prog t j c).done t).length ∧
      ((runAccesses prog t j c).done t).length ≤ (c.done t).length + j := by
  induction j with
  | zero => exact ⟨Nat.le_refl _, Nat.le_refl _⟩
  | succ j ih =>
    unfold runAccesses
    split
    · omega
    · simp only [access_done_self, List.length_append, List.length_singleton]
      omega

/-- One access more keeps the others. -/
theorem runAccesses_mono_succ (j : Nat) (u : Nat) :
    (runAccesses prog t j c).done u <+: (runAccesses prog t (j + 1) c).done u := by
  rw [runAccesses.eq_def prog t (j + 1)]
  dsimp only
  split
  · exact List.prefix_refl _
  · by_cases hu : u = t
    · subst hu
      rw [access_done_self]
      exact List.prefix_append _ _
    · exact ⟨[], by rw [access_done_ne hu, List.append_nil]⟩

/-- More accesses only add to what a thread has done. -/
theorem runAccesses_mono {j k : Nat} (h : j ≤ k) (u : Nat) :
    (runAccesses prog t j c).done u <+: (runAccesses prog t k c).done u := by
  induction k with
  | zero =>
    obtain rfl : j = 0 := by omega
    exact List.prefix_refl _
  | succ k ih =>
    rcases Nat.eq_or_lt_of_le h with rfl | hlt
    · exact List.prefix_refl _
    · exact (ih (by omega)).trans (runAccesses_mono_succ k u)

@[simp] theorem serial_nil : serial prog m₀ [] = ⟨m₀, fun _ => []⟩ := rfl

/-- An order with one more block. -/
theorem serial_snoc (ts : List Nat) (t : Nat) :
    serial prog m₀ (ts ++ [t]) = runBlock prog (serial prog m₀ ts) t := by
  simp [serial]

/-- Thread `t` is between two blocks, or its program has ended. -/
def Boundary (prog : Nat → Prog Addr) (c : Config Addr) (t : Nat) : Prop :=
  (c.done t).length % rtmBatchN = 0 ∨ c.next prog t = none

omit [DecidableEq Addr] in
/-- Where a thread is depends on its own accesses. -/
theorem boundary_congr {c' : Config Addr} (h : c'.done t = c.done t) :
    Boundary prog c' t ↔ Boundary prog c t := by
  rw [Boundary, Boundary, Config.next, Config.next, h]

/-- A block that starts at a boundary ends at one: it has made `RTM_BATCH_N` accesses, or the
program has ended. -/
theorem boundary_runBlock (h : Boundary prog c t) : Boundary prog (runBlock prog c t) t := by
  unfold runBlock
  rcases h with h | h
  · rcases runAccesses_length prog t c rtmBatchN with hl | hl
    · refine Or.inl ?_
      rw [hl, Nat.add_mod_right]
      exact h
    · exact Or.inr hl
  · refine Or.inr ?_
    rw [runAccesses_of_next_none (j := 0) h _ (Nat.zero_le _)]
    exact h

/-- **Between blocks every thread is at a boundary.**  A block changes the position of its own
thread only. -/
theorem boundary_serial (ts : List Nat) (t : Nat) : Boundary prog (serial prog m₀ ts) t := by
  induction ts using List.reverseRecOn with
  | nil => exact Or.inl rfl
  | append_singleton ts u ih =>
    rw [serial_snoc]
    by_cases h : t = u
    · subst h; exact boundary_runBlock ih
    · exact (boundary_congr (runAccesses_done_ne h _)).mpr ih

/-- Later blocks only add accesses. -/
theorem serial_mono (ts us : List Nat) (t : Nat) :
    (serial prog m₀ ts).done t <+: (serial prog m₀ (ts ++ us)).done t := by
  induction us using List.reverseRecOn with
  | nil => exact ⟨[], by rw [List.append_nil, List.append_nil]⟩
  | append_singleton us u ih =>
    rw [← List.append_assoc, serial_snoc]
    exact ih.trans (runAccesses_mono (j := 0) (Nat.zero_le _) t)

/-- Every block of the order has an access to make. -/
def Opens (prog : Nat → Prog Addr) (m₀ : Addr → Val) (ts : List Nat) : Prop :=
  ∀ pre t post, ts = pre ++ t :: post → (serial prog m₀ pre).next prog t ≠ none

/-- An order goes on with a thread that has an access to make. -/
theorem Opens.snoc {ts : List Nat} (h : Opens prog m₀ ts)
    (ht : (serial prog m₀ ts).next prog t ≠ none) : Opens prog m₀ (ts ++ [t]) := by
  intro pre u post heq
  rcases Trace.snoc_split heq with ⟨rfl, rfl, -⟩ | ⟨post', -, h'⟩
  · exact ht
  · exact h pre u post' h'

/-- The order up to its last block. -/
theorem Opens.init {ts : List Nat} (h : Opens prog m₀ (ts ++ [u])) : Opens prog m₀ ts := by
  intro pre t post heq
  exact h pre t (post ++ [u]) (by rw [heq]; simp)

theorem Opens.last {ts : List Nat} (h : Opens prog m₀ (ts ++ [u])) :
    (serial prog m₀ ts).next prog u ≠ none := h ts u [] rfl

/-- A block with an access to make makes one. -/
theorem runBlock_length_lt (h : c.next prog t ≠ none) :
    (c.done t).length < ((runBlock prog c t).done t).length := by
  have h1 : ((runAccesses prog t 1 c).done t).length = (c.done t).length + 1 := by
    cases hn : c.next prog t with
    | none => exact absurd hn h
    | some acc => simp [runAccesses, hn]
  have hle : ((runAccesses prog t 1 c).done t).length ≤ ((runBlock prog c t).done t).length :=
    (runAccesses_mono (by decide) t).length_le
  omega

/-- **How many blocks a thread has**: its accesses divided by `RTM_BATCH_N`, rounded up.  All its
blocks but the last are full, and the last one has an access; while the program goes on the last one
is full too. -/
theorem Opens.count {ts : List Nat} (h : Opens prog m₀ ts) (t : Nat) :
    ((serial prog m₀ ts).next prog t ≠ none →
      ((serial prog m₀ ts).done t).length = ts.count t * rtmBatchN) ∧
    (((serial prog m₀ ts).done t).length + (rtmBatchN - 1)) / rtmBatchN = ts.count t := by
  induction ts using List.reverseRecOn with
  | nil => exact ⟨fun _ => by simp, by simp [rtmBatchN]⟩
  | append_singleton ts u ih =>
    have ih := ih h.init
    by_cases hu : t = u
    · subst hu
      have hlen := ih.1 h.last
      have hlt := runBlock_length_lt h.last
      have hle := runAccesses_length_le prog t (serial prog m₀ ts) rtmBatchN
      have hend := runAccesses_length prog t (serial prog m₀ ts) rtmBatchN
      rw [← runBlock, ← serial_snoc] at hle hend
      rw [← serial_snoc] at hlt
      have hcount : (ts ++ [t]).count t = ts.count t + 1 := by simp
      rw [hcount]
      simp only [rtmBatchN] at hlen hle hend ⊢
      refine ⟨?_, by omega⟩
      intro hn
      have := hend.resolve_right hn
      omega
    · have hcount : (ts ++ [u]).count t = ts.count t := by
        simp [List.count_append, Ne.symm hu]
      have hdone : (serial prog m₀ (ts ++ [u])).done t = (serial prog m₀ ts).done t := by
        rw [serial_snoc]
        exact runAccesses_done_ne hu _
      rw [hcount, Config.next, hdone]
      exact ih

/-! ## Programs of fixed length -/

/-- Thread `t` makes `n t` accesses, whatever they return. -/
def Counted (prog : Nat → Prog Addr) (n : Nat → Nat) : Prop :=
  ∀ t rs, prog t rs = none ↔ n t ≤ rs.length

omit [DecidableEq Addr] in
/-- Where the program of a thread ends. -/
theorem Counted.next_eq_none {n : Nat → Nat} (h : Counted prog n) :
    c.next prog t = none ↔ n t ≤ (c.done t).length := by
  rw [Config.next, h, List.length_map]

/-- A thread has made all accesses of its blocks, up to the length of its program. -/
theorem Counted.length_serial {n : Nat → Nat} (h : Counted prog n) (ts : List Nat) (t : Nat) :
    ((serial prog m₀ ts).done t).length = min (n t) (ts.count t * rtmBatchN) := by
  induction ts using List.reverseRecOn with
  | nil => simp
  | append_singleton ts u ih =>
    rw [serial_snoc, runBlock, List.count_append]
    by_cases hu : t = u
    · subst hu
      have hcap : ∀ j, ((runAccesses prog t j (serial prog m₀ ts)).done t).length ≤ n t := by
        intro j
        induction j with
        | zero => exact Nat.le_trans (Nat.le_of_eq ih) (Nat.min_le_left _ _)
        | succ j ihj =>
          unfold runAccesses
          cases hn : (runAccesses prog t j (serial prog m₀ ts)).next prog t with
          | none => exact ihj
          | some acc =>
            have hlt : ¬ n t ≤ ((runAccesses prog t j (serial prog m₀ ts)).done t).length := by
              rw [← h.next_eq_none, hn]
              simp
            simp only [access_done_self, List.length_append, List.length_singleton]
            omega
      have hle := runAccesses_length_le prog t (serial prog m₀ ts) rtmBatchN
      have hend := runAccesses_length prog t (serial prog m₀ ts) rtmBatchN
      rw [h.next_eq_none] at hend
      have hcap := hcap rtmBatchN
      simp only [List.count_singleton_self, rtmBatchN] at ih hle hend hcap ⊢
      omega
    · rw [runAccesses_done_ne hu, ih]
      simp [Ne.symm hu]

/-- **Which orders open every block**: those in which no thread has a block too many. -/
theorem Counted.opens {n : Nat → Nat} (h : Counted prog n) {ts : List Nat}
    (hts : ∀ t ∈ ts, (ts.count t - 1) * rtmBatchN < n t) : Opens prog m₀ ts := by
  intro pre t post heq
  rw [Ne, h.next_eq_none, h.length_serial]
  have ht := hts t (by rw [heq]; simp)
  have hcount : pre.count t ≤ ts.count t - 1 := by
    rw [heq, List.count_append, List.count_cons_self]
    omega
  have hmul := Nat.mul_le_mul_right rtmBatchN hcount
  omega

end Lemmas

end MemOrder.Commit
