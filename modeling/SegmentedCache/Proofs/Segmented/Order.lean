import SegmentedCache.Proofs.Counting
import SegmentedCache.Proofs.Lru.Tidy
import SegmentedCache.Proofs.Policy.Calm
import SegmentedCache.Proofs.Segmented.Cascade
import SegmentedCache.Proofs.Segmented.Lawful

/-!
# The order of a segmented cache

The queues of all segments, the hottest first, make up one order. Chilling a
level moves nothing in it: the objects slide over the boundaries between the
segments, and what leaves does so at the cold end, where it is counted as
evicted. An object that enters a level comes in front of all that is there and
below.

This needs a calm cache. Then every object on its way down fits into every
segment, so none is ever dropped for want of room.
-/
namespace SegmentedCache.Segmented
open SegmentedCache.Action Policy
variable {top : Nat} {s s' s'' : Segmented Lru top} {st st' : Store} {i level dest : Level top}
variable {c : Lru} {v : CacheObject} {r : Request} {time : Time}
variable {entering entering' : List (ObjectId × Bytes)} {k : Nat}

/-- The keys of all segments, from the hottest to the coldest. -/
def order (s : Segmented Lru top) : List (ObjectId × Bytes) :=
  s.segments.toList.reverse.flatMap Lru.keys

/-- The part of the order that is at level `k` and above. -/
def orderFrom (s : Segmented Lru top) (k : Nat) : List (ObjectId × Bytes) :=
  (s.segments.toList.drop k).reverse.flatMap Lru.keys

/-- The part of the order that is below level `k`. -/
def orderBelow (s : Segmented Lru top) (k : Nat) : List (ObjectId × Bytes) :=
  (s.segments.toList.take k).reverse.flatMap Lru.keys

theorem order_eq_append (s : Segmented Lru top) (k : Nat) :
    s.order = s.orderFrom k ++ s.orderBelow k := by
  unfold order orderFrom orderBelow
  rw [← List.flatMap_append, ← List.reverse_append, List.take_append_drop]

@[simp] theorem orderBelow_zero (s : Segmented Lru top) : s.orderBelow 0 = [] := rfl

theorem orderBelow_succ (s : Segmented Lru top) (i : Level top) :
    s.orderBelow (i.val + 1) = (s.segment i).keys ++ s.orderBelow i.val := by
  unfold orderBelow
  rw [List.take_succ_eq_append_getElem (s.lt_length_toList i), getElem_toList, List.reverse_append,
    List.reverse_singleton, List.singleton_append, List.flatMap_cons]

theorem orderBelow_setSegment (h : k ≤ i.val) (c : Lru) :
    (s.setSegment i c).orderBelow k = s.orderBelow k := by
  unfold orderBelow
  rw [toList_setSegment, List.take_set_of_le h]

theorem orderFrom_congr (h : ∀ j : Level top, k ≤ j.val → s'.segment j = s.segment j) :
    s'.orderFrom k = s.orderFrom k := by
  unfold orderFrom
  congr 2
  apply List.ext_getElem
  · simp
  · intro n hn hn'
    rw [List.length_drop, Vector.length_toList] at hn
    have hj := h ⟨k + n, by omega⟩ (Nat.le_add_right k n)
    rw [List.getElem_drop, List.getElem_drop]
    have e := getElem_toList s ⟨k + n, by omega⟩ (s.lt_length_toList _)
    have e' := getElem_toList s' ⟨k + n, by omega⟩ (s'.lt_length_toList _)
    exact e'.trans (hj.trans e.symm)

/-! ## Sliding -/

/-- The keys in `entering` came in front of those below level `k`, and what they
pushed out at the cold end was counted as evicted. -/
structure Slides (k : Nat) (entering : List (ObjectId × Bytes)) (s s' : Segmented Lru top) :
    Prop where
  above : ∀ j : Level top, k ≤ j.val → s'.segment j = s.segment j
  below : ∃ lost, entering ++ s.orderBelow k = s'.orderBelow k ++ lost ∧
    s'.counters.core.evictions.toNat = s.counters.core.evictions.toNat + lost.length
  promotions : s'.counters.promotions = s.counters.promotions

theorem Slides.refl (k : Nat) (s : Segmented Lru top) : Slides k [] s s :=
  ⟨fun _ _ => rfl, ⟨[], by simp, rfl⟩, rfl⟩

theorem Slides.trans (h : Slides k entering s s') (h' : Slides k entering' s' s'') :
    Slides k (entering' ++ entering) s s'' := by
  obtain ⟨lost, hlost, hcount⟩ := h.below
  obtain ⟨lost', hlost', hcount'⟩ := h'.below
  refine ⟨fun j hj => (h'.above j hj).trans (h.above j hj), ⟨lost' ++ lost, ?_, ?_⟩,
    h'.promotions.trans h.promotions⟩
  · rw [List.append_assoc, hlost, ← List.append_assoc, hlost', List.append_assoc]
  · rw [hcount', hcount, List.length_append]
    omega

/-- A victim of the lowest level leaves the order. -/
theorem slides_leave {counters : SegmentedCounters} (x : ObjectId × Bytes)
    (h : s.counters.onCore Counters.recordEviction = .ok counters) :
    Slides 0 [x] s { s with counters } := by
  obtain ⟨core, hcore, rfl⟩ := SegmentedCounters.onCore_eq_ok h
  obtain ⟨n, hn, rfl⟩ := Counters.recordEviction_eq_ok hcore
  exact ⟨fun _ _ => rfl, ⟨[x], rfl, hn⟩, rfl⟩

/-- The last object of a level entered below it, so it stays where it is in the
order. -/
theorem Slides.of_demotion {counters : SegmentedCounters}
    (hv : (s.segment level).objects = c.objects ++ [v])
    (he : counters.core.evictions = s.counters.core.evictions)
    (hp : counters.promotions = s.counters.promotions)
    (h : Slides level.val [(v.id, v.size)] { s.setSegment level c with counters } s') :
    Slides (level.val + 1) [] s s' := by
  have hkeys : (s.segment level).keys = c.keys ++ [(v.id, v.size)] := by
    unfold Lru.keys
    rw [hv, List.map_append, List.map_singleton]
  have hlevel : s'.segment level = c := by
    refine (h.above level le_rfl).trans ?_
    change (s.setSegment level c).segment level = c
    rw [segment_setSegment, if_pos rfl]
  obtain ⟨lost, hlost, hcount⟩ := h.below
  have hbelow : [(v.id, v.size)] ++ s.orderBelow level.val = s'.orderBelow level.val ++ lost := by
    rw [← hlost]
    exact congrArg _ (orderBelow_setSegment le_rfl c).symm
  refine ⟨fun j hj => ?_, ⟨lost, ?_, ?_⟩, h.promotions.trans hp⟩
  · refine (h.above j (Nat.le_of_succ_le hj)).trans ?_
    change (s.setSegment level c).segment j = s.segment j
    rw [segment_setSegment, if_neg (Fin.ne_of_gt hj)]
  · rw [List.nil_append, orderBelow_succ, orderBelow_succ, hkeys, hlevel, List.append_assoc,
      List.append_assoc, hbelow]
  · rw [hcount]
    change counters.core.evictions.toNat + _ = _
    rw [he]

/-- An object that enters a level comes in front of it. -/
theorem slides_enter {x : ObjectId × Bytes} (hk : c.keys = x :: (s.segment dest).keys) :
    Slides (dest.val + 1) [x] s (s.setSegment dest c) := by
  refine ⟨fun j hj => ?_, ⟨[], ?_, rfl⟩, rfl⟩
  · rw [segment_setSegment, if_neg (Fin.ne_of_gt hj)]
  · rw [orderBelow_succ, orderBelow_succ, segment_setSegment, if_pos rfl, hk,
      orderBelow_setSegment le_rfl, List.append_nil, List.singleton_append, List.cons_append]

end SegmentedCache.Segmented
