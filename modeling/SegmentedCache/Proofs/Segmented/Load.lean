import Mathlib
import SegmentedCache.Proofs.Policy.Counted
import SegmentedCache.Segmented.Cooling

/-!
# The load of a segmented cache

What bounds a cooling is how far objects may still fall. An object in segment
`i` weighs `2 i + 1` and a demotion that waits for segment `i` weighs `2 i + 2`.
So an eviction takes more off the load than the demotion of its victim adds to
the burden of those that wait, and a demotion that ends takes more off that
burden than its object adds to the load.
-/
namespace SegmentedCache.Segmented
open SegmentedCache.Action
variable {C : Type} {top : Nat} {s s' : Segmented C top} {st st' : Store} {i : Level top}

theorem yields_onSegment_iff {α : Type} {act : Action C α} {a : α} :
    (onSegment i act).Yields s st a s' st' ↔
      ∃ c, act.Yields (s.segment i) st a c st' ∧ s' = s.setSegment i c := by
  unfold Yields
  rw [onSegment_apply]
  cases hx : act (s.segment i) st with
  | ok x st₁ =>
    obtain ⟨b, c⟩ := x
    simp only [EStateM.Result.ok.injEq, Prod.mk.injEq]
    constructor
    · intro h
      obtain ⟨⟨hb, hs⟩, hst⟩ := h
      exact ⟨c, ⟨⟨hb, rfl⟩, hst⟩, hs.symm⟩
    · intro h
      obtain ⟨d, ⟨⟨hb, hc⟩, hst⟩, hs⟩ := h
      exact ⟨⟨hb, by rw [hs, hc]⟩, hst⟩
  | error e st₁ => simp

/-- Counting changes the counters only. -/
theorem yields_record_iff {f : SegmentedCounters → Except Fault SegmentedCounters} {u : Unit} :
    (record f).Yields s st u s' st' ↔
      ∃ counters, f s.counters = .ok counters ∧ s' = { s with counters } ∧ st' = st := by
  unfold record
  rw [yields_get_bind_iff]
  simp only [yields_bind_iff, yields_checked_iff, yields_set_iff]
  constructor
  · intro h
    obtain ⟨counters, s₁, st₁, ⟨hf, -, hst⟩, hs, hst'⟩ := h
    exact ⟨counters, hf, hs, hst'.trans hst⟩
  · intro h
    obtain ⟨counters, hf, hs, hst⟩ := h
    exact ⟨counters, s, st, ⟨hf, rfl, rfl⟩, hs, hst⟩

variable [Policy C]

/-- The weight of the objects in all segments. -/
def load (s : Segmented C top) : Nat :=
  ∑ i : Level top, (2 * i.val + 1) * Policy.count (s.segment i)

/-- The weight of the demotions under way. -/
def burden (pending : List (Demotion top)) : Nat := (pending.map fun d => 2 * d.1.val + 2).sum

@[simp] theorem burden_nil : burden ([] : List (Demotion top)) = 0 := rfl

@[simp] theorem burden_cons (d : Demotion top) (pending : List (Demotion top)) :
    burden (d :: pending) = 2 * d.1.val + 2 + burden pending := List.sum_cons

theorem coolingBound_eq (s : Segmented C top) : s.coolingBound = s.load + 1 := by
  unfold coolingBound load levels
  rw [← List.sum_ofFn, List.ofFn_eq_map]
  induction List.finRange (top + 1) with
  | nil => rfl
  | cons i l ih =>
    rw [List.foldr_cons, List.map_cons, List.sum_cons, ih]
    omega

theorem load_setSegment (s : Segmented C top) (i : Level top) (c : C) :
    (s.setSegment i c).load + (2 * i.val + 1) * Policy.count (s.segment i) =
      s.load + (2 * i.val + 1) * Policy.count c := by
  unfold load
  rw [← Finset.add_sum_erase _ _ (Finset.mem_univ i), ← Finset.add_sum_erase _ _ (Finset.mem_univ i),
    segment_setSegment, if_pos rfl]
  have hrest : ∑ j ∈ Finset.univ.erase i, (2 * j.val + 1) * Policy.count ((s.setSegment i c).segment j) =
      ∑ j ∈ Finset.univ.erase i, (2 * j.val + 1) * Policy.count (s.segment j) := by
    apply Finset.sum_congr rfl
    intro j hj
    rw [segment_setSegment, if_neg (Finset.ne_of_mem_erase hj)]
  rw [hrest]
  omega

variable [Policy.Counted C]

theorem load_evict {victim : Option CacheObject}
    (h : (onSegment i (Policy.evict : Action C _)).Yields s st victim s' st') :
    s'.load + (2 * i.val + 1) * victim.isSome.toNat ≤ s.load := by
  obtain ⟨c, hc, rfl⟩ := yields_onSegment_iff.mp h
  have hcount := Nat.mul_le_mul_left (2 * i.val + 1) (Policy.Counted.count_evict hc)
  rw [Nat.mul_add] at hcount
  have hload := load_setSegment s i c
  omega

theorem load_insert {r : Request} {o : Option CacheObject}
    (h : (onSegment i (Policy.insert r : Action C _)).Yields s st o s' st') :
    s'.load ≤ s.load + (2 * i.val + 1) := by
  obtain ⟨c, hc, rfl⟩ := yields_onSegment_iff.mp h
  have hcount := Nat.mul_le_mul_left (2 * i.val + 1) (Policy.Counted.count_insert hc)
  rw [Nat.mul_add, Nat.mul_one] at hcount
  have hload := load_setSegment s i c
  omega

end SegmentedCache.Segmented
