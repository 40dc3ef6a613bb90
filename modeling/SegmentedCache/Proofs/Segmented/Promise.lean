import SegmentedCache.Proofs.Policy.Promise
import SegmentedCache.Proofs.Segmented.Lawful
import SegmentedCache.Proofs.Segmented.Placement

/-!
# Room that a segmented cache promises

A new object enters the first segment that says it has room, and the bytes that are
free in the others are of no use to it. So what a segmented cache says of its room can
be relied on if one of its segments says so too, reliably, and if the object is not
barred because of the coldest segment.
-/
namespace SegmentedCache.Segmented
open SegmentedCache.Action Policy
variable {C : Type} {top : Nat} [Policy C] {s : Segmented C top} {st : Store} {i : Level top}
variable {r : Request} {size : Bytes}

instance [Gauged C] : Gauged (Segmented C top) where
  Reliable s size := decide (s.charge size ≤ Policy.capacity s.coldest) &&
    match s.firstWithRoom size (levels top) with
    | .ok (some i) => Reliable (s.segment i) size
    | _ => false
  Spared M s := decide (s.counters.Spare M 1) && (levels top).all fun i => Spared M (s.segment i)

theorem displace_of_notMem [Lawful C] (hid : r.id ∉ held st s) :
    (displace r.id).Yields s st () s st := by
  unfold displace
  rw [yields_get_bind_iff, yields_getThe_bind_iff, segmentOf?_eq_none_iff.mpr hid]
  exact yields_pure_iff.mpr ⟨rfl, rfl, rfl⟩

theorem evictUntilRoom_of_room (h : s.hasRoomAt 0 size = .ok true) (fuel : Nat) :
    (evictUntilRoom size (fuel + 1)).Yields s st () s st := by
  unfold evictUntilRoom
  rw [yields_get_bind_iff]
  refine yields_bind_iff.mpr ⟨true, s, st, yields_checked_iff.mpr ⟨h, rfl, rfl⟩, ?_⟩
  exact yields_pure_iff.mpr ⟨rfl, rfl, rfl⟩

/-- Where a level has room, it is taken as it is. -/
theorem levelFor_of_room (h : s.firstWithRoom size (levels top) = .ok (some i)) :
    (levelFor size).Yields s st i s st := by
  unfold levelFor
  rw [yields_get_bind_iff]
  refine yields_bind_iff.mpr ⟨some i, s, st, yields_checked_iff.mpr ⟨h, rfl, rfl⟩, ?_⟩
  dsimp only [Option.getD_some]
  split
  next hzero =>
    have hroom := hasRoomAt_of_firstWithRoom h
    rw [hzero] at hroom
    exact yields_bind_iff.mpr ⟨(), s, st, evictUntilRoom_of_room hroom _,
      yields_pure_iff.mpr ⟨rfl, rfl, rfl⟩⟩
  next => exact yields_pure_iff.mpr ⟨rfl, rfl, rfl⟩

theorem neat_segment [Lawful C] (h : Neat st s) (i : Level top) : Neat st (s.segment i) where
  toSound := sound_segment h.toSound i
  tidy d hd := h.tidy d (mem_leaves_iff.mpr ⟨i, hd⟩)

/-- What a segment gains the whole gains. -/
theorem gains_setSegment [Lawful C] {o : CacheObject} {c : C}
    (h : Gains o (leaves (s.segment i)) (leaves c)) :
    Gains o (leaves s) (leaves (s.setSegment i c)) := by
  have hi := s.lt_length_toList i
  have hold : s.segments.toList = s.segments.toList.take i.val ++ s.segment i ::
      s.segments.toList.drop (i.val + 1) := by
    rw [← getElem_toList s i hi, ← List.drop_eq_getElem_cons hi, List.take_append_drop]
  have hnew : (s.setSegment i c).segments.toList = s.segments.toList.take i.val ++ c ::
      s.segments.toList.drop (i.val + 1) := by
    rw [toList_setSegment, List.set_eq_take_append_cons_drop, if_pos hi]
  change Gains o (s.segments.toList.flatMap leaves) ((s.setSegment i c).segments.toList.flatMap leaves)
  rw [hnew]
  nth_rewrite 1 [hold]
  simp only [List.flatMap_append, List.flatMap_cons, ← List.append_assoc]
  exact h.append _ _

theorem insertAt_of_room [Lawful C] [Promising C] (h : Neat st s) (hid : r.id ∉ held st s)
    (hroom : s.hasRoomAt i r.size = .ok true) (hreliable : Reliable (s.segment i) r.size = true)
    (hspared : Spared r.size.toNat (s.segment i) = true) :
    ∃ o c st', (onSegment i (Policy.insert r : Action C _)).Yields s st (some o)
      (s.setSegment i c) st' ∧ Lru.Made r o ∧ Gains o (leaves (s.segment i)) (leaves c) := by
  have hnot : r.id ∉ held st (s.segment i) := fun hm => hid (mem_held_iff.mpr ⟨i, hm⟩)
  obtain ⟨o, c, st', hy, hmade, hgains⟩ :=
    Promising.takes (neat_segment h i) hnot hroom hreliable hspared
  exact ⟨o, c, st', yields_onSegment_iff.mpr ⟨c, hy, rfl⟩, hmade, hgains⟩

theorem takes [Lawful C] [Promising C] (h : Neat st s) (hid : r.id ∉ held st s)
    (hreliable : Reliable s r.size = true) (hspared : Spared r.size.toNat s = true) :
    ∃ o s' st', (insert r).Yields s st (some o) s' st' ∧ Lru.Made r o ∧
      Gains o (leaves s) (leaves s') := by
  obtain ⟨hfits, hlevel⟩ := Bool.and_eq_true_iff.mp hreliable
  obtain ⟨hown, hsegments⟩ := Bool.and_eq_true_iff.mp hspared
  split at hlevel
  next i hfirst =>
    have hroom := hasRoomAt_of_firstWithRoom hfirst
    have hsegment := List.all_eq_true.mp hsegments i (List.mem_finRange i)
    obtain ⟨o, c, st₁, hinsert, hmade, hgains⟩ := insertAt_of_room h hid hroom hlevel hsegment
    have hbears : Bears (SegmentedCounters.Spare r.size.toNat)
        (SegmentedCounters.onCore (·.recordInsertion r.size)) :=
      SegmentedCounters.bears_onCore (Counters.bears_recordInsertion le_rfl)
    obtain ⟨counters, hcounters, -⟩ := hbears (n := 0) (of_decide_eq_true hown)
    refine ⟨o, { s.setSegment i c with counters }, st₁, ?_, hmade, gains_setSegment hgains⟩
    unfold insert
    rw [yields_get_bind_iff]
    dsimp only
    rw [← coldest_eq, if_neg (UInt64.not_lt.mpr (of_decide_eq_true hfits))]
    refine yields_bind_iff.mpr ⟨(), s, st, displace_of_notMem hid, ?_⟩
    refine yields_bind_iff.mpr ⟨i, s, st, levelFor_of_room hfirst, ?_⟩
    refine yields_bind_iff.mpr ⟨some o, _, _, hinsert, ?_⟩
    refine yields_bind_iff.mpr ⟨(), _, _, yields_record_iff.mpr ⟨counters, hcounters, rfl, rfl⟩, ?_⟩
    exact yields_pure_iff.mpr ⟨rfl, rfl, rfl⟩
  next => cases hlevel

instance [Lawful C] [Promising C] : Promising (Segmented C top) where
  takes h hid _ hreliable hspared := takes h hid hreliable hspared

end SegmentedCache.Segmented
