/-
# What the merged logs say about the recorded run

The replayer sees a recorded run only through its logs.  This module turns the recorder's facts,
which are about one thread, into the two facts about the whole run that the replay proof uses:

* every entry of a merged log names a recorded read of that object (`Merged.sound`), so an entry
  at version `v` comes before the writer of `v` in the recorded order;
* every recorded read at the version of ANOTHER thread's write is covered by an entry of the
  reading thread (`Merged.covers`).
-/
import MemOrder.Replay.Model

namespace MemOrder

open Trace

variable {Addr : Type} [DecidableEq Addr] {L : Layout Addr} {nthr : Nat}
  {prog : Nat → Prog Addr} {m₀ : Addr → Val}

namespace Replay

variable {tr : List (Event Addr)} {logs : Nat → List ReplayWaitMemop}

omit [DecidableEq Addr] in
/-- An entry of a merged log is an entry of one thread. -/
theorem Merged.mem_iff (h : Merged L nthr tr logs) {o : Nat} {ent : ReplayWaitMemop} :
    ent ∈ logs o ↔ ent.tid < nthr ∧
      (⟨o, ent.version, ent.memop⟩ : WaitMemop) ∈ memopEntries L (thread ent.tid tr) := by
  rw [(h.perm o).mem_iff, objEntries, List.mem_flatMap]
  constructor
  · rintro ⟨t, ht, hm⟩
    obtain ⟨w, hw, rfl⟩ := List.mem_map.mp hm
    obtain ⟨hw, hwo⟩ := List.mem_filter.mp hw
    have hwo : w.objid = (o : Int) := by simpa using hwo
    rw [recordThr_waitMemop, List.mem_append] at hw
    refine ⟨List.mem_range.mp ht, ?_⟩
    rcases hw with hw | hw
    · rw [← hwo]; exact hw
    · -- the end marker has object -1
      rw [List.mem_singleton] at hw
      rw [hw] at hwo
      exact absurd hwo (by simp)
  · rintro ⟨ht, hm⟩
    refine ⟨ent.tid, List.mem_range.mpr ht, List.mem_map.mpr ⟨⟨o, ent.version, ent.memop⟩, ?_, rfl⟩⟩
    rw [recordThr_waitMemop]
    exact List.mem_filter.mpr ⟨List.mem_append_left _ hm, by simp⟩

/-- **An entry names a recorded read** of its object, at its version, by its thread. -/
theorem Merged.sound (h : Merged L nthr tr logs) (hl : Legal L m₀ tr) {o : Nat}
    {ent : ReplayWaitMemop} (hent : ent ∈ logs o) :
    ∃ e ∈ tr, e.op = .R ∧ L.obj e = o ∧ e.version = ent.version ∧ (e.memop : Int) = ent.memop ∧
      e.tid = ent.tid := by
  obtain ⟨-, hm⟩ := h.mem_iff.mp hent
  obtain ⟨e, he, h1, h2, h3, h4⟩ := memopEntries_sound (hl.numbered _) hm
  obtain ⟨he, ht⟩ := mem_thread.mp he
  refine ⟨e, he, h1, ?_, h3, h4, ht⟩
  exact Int.ofNat_inj.mp h2

/-- **A read at the version of another thread's write is covered** by an entry of the reading
thread: its own or a later access of that thread. -/
theorem Merged.covers (h : Merged L nthr tr logs) (hl : Legal L m₀ tr)
    (htid : ∀ e ∈ tr, e.tid < nthr) {e w : Event Addr} (he : e ∈ tr) (hr : e.op = .R)
    (hw : w ∈ tr) (hW : w.op = .W) (ho : L.obj w = L.obj e) (hv : w.version = e.version)
    (hne : w.tid ≠ e.tid) :
    ∃ ent ∈ logs (L.obj e), ent.tid = e.tid ∧ ent.version = e.version ∧
      (e.memop : Int) ≤ ent.memop := by
  have hth : e ∈ thread e.tid tr := mem_thread.mpr ⟨he, rfl⟩
  rcases memFinishThr_covers (L := L) (hl.numbered e.tid) hth hr with
    ⟨x, hx, h1, h2, h3⟩ | ⟨x, hx, h1, h2, h3⟩
  · refine ⟨⟨x.version, x.memop, e.tid⟩, h.mem_iff.mpr ⟨htid e he, ?_⟩, rfl, h2, h3⟩
    rw [← h1]
    exact hx
  · -- the version has one writer, and it is not the reading thread
    obtain ⟨hx, hxt⟩ := mem_thread.mp hx
    have := hl.write_unique hx hw (by rw [h2, ho]) h1 hW (by rw [h3, hv])
    rw [this] at hxt
    exact absurd hxt hne

omit [DecidableEq Addr] in
/-- Two entries of a merged log stand in version order. -/
theorem Merged.le_of_lt (h : Merged L nthr tr logs) {o i j : Nat} {a b : ReplayWaitMemop}
    (ha : (logs o)[i]? = some a) (hb : (logs o)[j]? = some b) (hij : i ≤ j) :
    a.version ≤ b.version := by
  obtain ⟨hi, rfl⟩ := List.getElem?_eq_some_iff.mp ha
  obtain ⟨hj, rfl⟩ := List.getElem?_eq_some_iff.mp hb
  rcases Nat.eq_or_lt_of_le hij with rfl | hlt
  · exact Int.le_refl _
  · exact List.pairwise_iff_getElem.mp (h.sorted o) i j hi hj hlt

end Replay

end MemOrder
