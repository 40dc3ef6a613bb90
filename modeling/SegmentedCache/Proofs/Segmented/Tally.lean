import SegmentedCache.Proofs.Segmented.Placement
import SegmentedCache.Proofs.Segmented.Working

/-!
# How many objects a segmented cache adds

The count of a segmented cache is the sum over its segments. So work on one
segment adds to the whole what it adds to the segment, and what evictions,
insertions and removals may add passes from the segments to the whole.
-/
namespace SegmentedCache.Segmented
open SegmentedCache.Action Policy
variable {C α : Type} {top n : Nat} [Policy C] {s s' : Segmented C top} {st st' : Store}

theorem count_eq (s : Segmented C top) (i : Level top) :
    s.count = Policy.count (s.segment i) +
      ((s.segments.toList.eraseIdx i).map Policy.count).sum := by
  have hperm := (List.getElem_cons_eraseIdx_perm (s.lt_length_toList i)).map Policy.count
  rw [getElem_toList, List.map_cons] at hperm
  rw [← List.sum_cons, hperm.sum_eq, List.sum_eq_foldr, List.foldr_map]
  rfl

theorem count_setSegment (s : Segmented C top) (i : Level top) (c : C) :
    (s.setSegment i c).count + Policy.count (s.segment i) = s.count + Policy.count c := by
  rw [count_eq s i, count_eq _ i, toList_setSegment, List.eraseIdx_set_eq, segment_setSegment,
    if_pos rfl]
  omega

/-- What is added to a segment is added to the whole. -/
theorem adds_onSegment {act : Action C α} (i : Level top) (h : Adds n act) :
    Adds n (onSegment i act) := by
  intro s st a s' st' hy
  obtain ⟨c, hc, rfl⟩ := yields_onSegment_iff.mp hy
  have hle : Policy.count c ≤ Policy.count (s.segment i) + n := h hc
  have hcount := count_setSegment s i c
  change (s.setSegment i c).count ≤ s.count + n
  omega

theorem adds_record (f : SegmentedCounters → Except Fault SegmentedCounters) :
    Adds 0 (record f : Action (Segmented C top) Unit) := by
  intro s st u s' st' h
  obtain ⟨counters, -, rfl, -⟩ := yields_record_iff.mp h
  exact Nat.le_refl s.count

theorem count_evict [Counted C] {victim : Option CacheObject}
    (h : (evict : Action (Segmented C top) _).Yields s st victim s' st') :
    s'.count + victim.isSome.toNat ≤ s.count := by
  obtain ⟨s₁, hevict, hafter⟩ := evict_cases h
  obtain ⟨c, hc, rfl⟩ := yields_onSegment_iff.mp hevict
  have hle := Counted.count_evict hc
  have hcount := count_setSegment s 0 c
  have hsum : (s.setSegment 0 c).count + victim.isSome.toNat ≤ s.count := by omega
  rcases hafter with ⟨-, rfl⟩ | ⟨v, counters, -, -, rfl⟩
  · exact hsum
  · exact hsum

variable [Tallied C]

/-- Of all the steps on segments, inserting alone adds an object. -/
theorem clearing_raises : Clearing (Raises 0 : Segmented C top → _) where
  toComposes := composes_raises
  emit _ := adds_lift _
  evictAt i := adds_onSegment i fun _ _ _ _ _ h =>
    (Nat.le_add_right _ _).trans (Counted.count_evict h)
  removeAt i id := adds_onSegment i (Tallied.adds_remove id)
  eviction := adds_record _
  insertion _ := adds_record _
  removal := adds_record _

theorem adds_insertAt (i : Level top) (r : Request) :
    Adds 1 (onSegment i (Policy.insert r : Action C (Option CacheObject))) :=
  adds_onSegment i fun _ _ _ _ _ h => Counted.count_insert h

instance : Tallied (Segmented C top) where
  count_evict h := count_evict h
  count_insert h := clearing_raises.insert absorbs_raises adds_insertAt _ h
  adds_remove := clearing_raises.remove

end SegmentedCache.Segmented
