import SegmentedCache.Proofs.Segmented.Ledger
import SegmentedCache.Proofs.Segmented.Promise
import SegmentedCache.Proofs.Segmented.Screening

/-!
# Insertions into least-recently-used segments

An insertion takes out the object that it replaces. The new object then comes to the
front of the coldest segment that has room beside what is left, and nothing else moves.
If no segment has room, the coldest gives up objects from its cold end, as few as make
room, and takes the new one; the other segments are left alone (`placed_insert`).

Whether the coldest segment can take the object at all is decided before anything is
touched, by the overhead of the whole. A segment may charge more than that. Then the
coldest may give up all that it has for an object it has to refuse in the end.
-/
namespace SegmentedCache

namespace Lru
open Policy
variable {st : Store} {c : Lru} {o : CacheObject} {id : ObjectId} {size : Bytes}

/-- The queued objects but for those with an id, most recently used first. -/
def without (c : Lru) (id : ObjectId) : List CacheObject := c.objects.filter fun o => o.id ≠ id

/-- An object of this size fits beside these objects. -/
def FitsBeside (c : Lru) (size : Bytes) (l : List CacheObject) : Prop :=
  c.bytes l + (c.charge size).toNat ≤ c.params.capacity.toNat

/-- A new object fits once the one that it replaces is out. -/
def RoomFor (r : Request) (c : Lru) : Prop := c.FitsBeside r.size (c.without r.id)

instance (r : Request) (c : Lru) : Decidable (c.RoomFor r) := inferInstanceAs (Decidable (_ ≤ _))

theorem fitsBeside_congr {c' : Lru} (h : c'.params = c.params) {l : List CacheObject} :
    c'.FitsBeside size l ↔ c.FitsBeside size l := by
  unfold FitsBeside bytes charge
  rw [h]

/-- What is kept for other ids is kept by a selection that has other ids only. -/
theorem filter_without {p : CacheObject → Bool} (hp : ∀ o, p o = true → o.id ≠ id) :
    (c.without id).filter p = c.objects.filter p := by
  unfold without
  rw [List.filter_filter]
  refine List.filter_congr fun o _ => ?_
  cases ho : p o with
  | true => rw [decide_eq_true (hp o ho), Bool.and_true]
  | false => rw [Bool.false_and]

/-- Where a segment says that it has no room, there is none. -/
theorem not_fitsBeside (h : c.Charged) (hroom : hasRoom c size = .ok false) :
    ¬ c.FitsBeside size c.objects := by
  rw [hasRoom_eq, Except.ok.injEq, decide_eq_false_iff_not, UInt64.not_le,
    UInt64.lt_iff_toNat_lt, Word.toNat_saturatingAdd] at hroom
  unfold FitsBeside
  rw [← h.occupied]
  omega

section
variable (h : c.Linked st) (ht : ∀ o ∈ c.objects, st.resident o = true)
include h ht

theorem without_of_notMem (hid : id ∉ Policy.held st c) : c.without id = c.objects := by
  refine List.filter_eq_self.mpr fun o ho => decide_eq_true fun e => hid ?_
  rw [← e]
  exact mem_held_of_mem h ht ho

/-- The object with the id is the only one that has it. -/
theorem without_eq (ho : o ∈ c.objects) : c.without o.id = c.objects.filter (· ∉ [o]) := by
  refine List.filter_congr fun p hp => ?_
  rw [decide_eq_decide, List.mem_singleton]
  constructor
  · intro hne e
    exact hne (by rw [e])
  · intro hne e
    exact hne (h.eq_of_id_eq hp ho (ht p hp) (ht o ho) e)

end

end Lru

namespace Segmented
open SegmentedCache.Action Policy
variable {top : Nat} {s s₁ s₂ s' : Segmented Lru top} {st st₁ st₂ st' : Store}
variable {i level : Level top} {l : Level top → List CacheObject} {c : Lru}
variable {r : Request} {res : Option CacheObject} {size : Bytes} {id : ObjectId}

/-- The segments queue these objects, all of them resident, and have the settings that
they have in `s`. -/
structure Queues (s : Segmented Lru top) (l : Level top → List CacheObject) (st' : Store)
    (s' : Segmented Lru top) : Prop extends Neat st' s' where
  whole : s'.params = s.params
  params : ∀ j, (s'.segment j).params = (s.segment j).params
  objects : ∀ j, (s'.segment j).objects = l j

namespace Queues

theorem refl (h : Neat st s) : Queues s (fun j => (s.segment j).objects) st s :=
  ⟨h, rfl, fun _ => rfl, fun _ => rfl⟩

theorem setSegment (h : Queues s l st₁ s₁) (k : Kept st₁ s₁ st' (s₁.setSegment i c))
    (hp : c.params = (s₁.segment i).params) :
    Queues s (Function.update l i c.objects) st' (s₁.setSegment i c) where
  toNeat := h.toNeat.of_kept k
  whole := h.whole
  params j := by
    rw [segment_setSegment]
    split
    next e => rw [hp, h.params, e]
    next => exact h.params j
  objects j := by
    rw [segment_setSegment]
    split
    next e =>
      subst e
      rw [Function.update_self]
    next e => rw [Function.update_of_ne e, h.objects]

theorem objects_self {q : List CacheObject} (h : Queues s (Function.update l i q) st' s') :
    (s'.segment i).objects = q := by
  rw [h.objects, Function.update_self]

theorem objects_of_ne {q : List CacheObject} {j : Level top}
    (h : Queues s (Function.update l i q) st' s') (hj : j ≠ i) : (s'.segment j).objects = l j := by
  rw [h.objects, Function.update_of_ne hj]

theorem counted (h : Queues s l st₁ s₁) (counters : SegmentedCounters) :
    Queues s l st₁ { s₁ with counters } where
  toNeat := h.toNeat.of_kept (shrinks_report h.toSound st₁.events counters).toKept
  whole := h.whole
  params := h.params
  objects := h.objects

theorem coherent (h : Queues s l st₁ s₁) (i : Level top) : (s₁.segment i).Coherent st₁ :=
  Lru.sound_iff.mp (sound_segment h.toSound i)

theorem resident (h : Queues s l st₁ s₁) (i : Level top) :
    ∀ o ∈ (s₁.segment i).objects, st₁.resident o = true :=
  Lru.tidy_iff.mp (neat_segment h.toNeat i).tidy

theorem not_fitsBeside (h : Queues s l st₁ s₁) (hroom : s₁.hasRoomAt i size = .ok false) :
    ¬ (s.segment i).FitsBeside size (l i) := by
  rw [← h.objects, ← Lru.fitsBeside_congr (h.params i)]
  exact Lru.not_fitsBeside (h.coherent i).toCharged hroom

end Queues

/-! ## The object that is replaced -/

theorem queues_of_notMem (h : Neat st s) (hid : id ∉ held st s) :
    Queues s (fun j => (s.segment j).without id) st s where
  toNeat := h
  whole := rfl
  params _ := rfl
  objects j := by
    have hq := Queues.refl h
    exact (Lru.without_of_notMem (hq.coherent j).toLinked (hq.resident j)
      fun hm => hid (mem_held_iff.mpr ⟨j, hm⟩)).symm

/-- One segment has the id, so nothing has it once that object is out. -/
theorem queues_of_sheds {o : CacheObject} (h : Neat st s)
    (hfound : (s.segment i).find? st id = some o) (hs : Lru.Sheds [o] st (s.segment i) st' c) :
    Queues s (fun j => (s.segment j).without id) st' (s.setSegment i c) := by
  have hq := Queues.refl h
  have hlinked := fun j => (hq.coherent j).toLinked
  obtain ⟨ho, rfl⟩ := (Lru.find?_eq_some_iff_of_tidy (hlinked i) (hq.resident i)).mp hfound
  have hi := (segmentOf?_eq_some_iff h.toSound).mpr
    (Lru.mem_held_of_mem (hlinked i) (hq.resident i) ho)
  have hq' := hq.setSegment (shrinks_setSegment h.toSound (hs.shrinks (hlinked i))).toKept hs.params
  refine ⟨hq'.toNeat, hq'.whole, hq'.params, fun j => ?_⟩
  by_cases e : j = i
  · subst e
    rw [hq'.objects_self, hs.objects, Lru.without_eq (hlinked j) (hq.resident j) ho]
  · rw [hq'.objects_of_ne e]
    refine (Lru.without_of_notMem (hlinked j) (hq.resident j) fun hm => e ?_).symm
    have hj := (segmentOf?_eq_some_iff h.toSound).mpr hm
    rw [hi] at hj
    exact (Option.some.inj hj).symm

theorem queues_displace (h : Neat st s) (hy : (displace id).Yields s st () s' st') :
    Queues s (fun j => (s.segment j).without id) st' s' ∧ s'.counters = s.counters ∧
      id ∉ held st' s' := by
  obtain ⟨-, hgone⟩ := (ensures_displace h.toSound id).apply hy
  unfold displace at hy
  rw [yields_get_bind_iff, yields_getThe_bind_iff] at hy
  cases hf : s.segmentOf? st id with
  | none =>
    rw [hf] at hy
    obtain ⟨-, rfl, rfl⟩ := yields_pure_iff.mp hy
    exact ⟨queues_of_notMem h hgone, rfl, hgone⟩
  | some level =>
    rw [hf] at hy
    obtain ⟨removed, hremove⟩ := yields_discard_iff.mp hy
    obtain ⟨c, hc, rfl⟩ := yields_onSegment_iff.mp hremove
    refine ⟨?_, rfl, hgone⟩
    cases (Lru.ensures_remove ((Queues.refl h).coherent level) id).apply hc with
    | absent hnone _ => exact absurd (mem_held_of_segmentOf? hf) (Lru.notMem_held_iff.mpr hnone)
    | taken hfound hs => exact queues_of_sheds h hfound hs

/-! ## Room -/

/-- The coldest segment gave up what is in `gone`, and no less would have made room. -/
structure Vacated (size : Bytes) (s : Segmented Lru top) (l : Level top → List CacheObject)
    (i : Level top) (kept gone : List CacheObject) (s₁ : Segmented Lru top) (st' : Store)
    (s' : Segmented Lru top) : Prop extends Queues s (Function.update l i kept) st' s' where
  split : l i = kept ++ gone
  enough : s'.hasRoomAt i size = .ok true ∨ kept = []
  least : ∀ kept' gone', l i = kept' ++ gone' → gone'.length < gone.length →
    ¬ (s.segment i).FitsBeside size kept'
  evictions : s'.counters.core.evictions.toNat = s₁.counters.core.evictions.toNat + gone.length
  insertions : s'.counters.core.insertions = s₁.counters.core.insertions

/-- An eviction takes the object at the cold end of the coldest segment. -/
theorem Queues.evict (h : Queues s l st₁ s₁)
    (hy : (evict : Action (Segmented Lru top) _).Yields s₁ st₁ res s₂ st₂) :
    (res = none ∧ l 0 = [] ∧ Queues s l st₂ s₂ ∧ s₂.counters = s₁.counters) ∨
      ∃ v rest, res = some v ∧ l 0 = rest ++ [v] ∧ Queues s (Function.update l 0 rest) st₂ s₂ ∧
        s₂.counters.core.evictions.toNat = s₁.counters.core.evictions.toNat + 1 ∧
        s₂.counters.core.insertions = s₁.counters.core.insertions := by
  obtain ⟨s₃, hevict, hafter⟩ := evict_cases hy
  have hkept := ((ensures_evictAt h.toSound 0).apply hevict).1.toKept
  obtain ⟨c, hc, rfl⟩ := yields_onSegment_iff.mp hevict
  have hevicted := (Lru.ensures_evict (h.coherent 0)).apply hc
  have hparams : c.params = (s₁.segment 0).params := by
    cases hevicted with
    | nothing _ hs => exact hs.params
    | victim _ _ _ hs => exact hs.params
  have hq := h.setSegment hkept hparams
  rcases hevicted.of_tidy (h.resident 0) (h.coherent 0).toLinked with
    ⟨rfl, hnil⟩ | ⟨v, rfl, hlast⟩
  · rcases hafter with ⟨-, rfl⟩ | ⟨_, counters, hv, -⟩
    · have hl : l 0 = [] := (h.objects 0).symm.trans hnil
      have hc' : c.objects = l 0 := by
        cases hevicted with
        | nothing _ hs => rw [hs.objects, hnil, hl, List.filter_nil]
      rw [hc', Function.update_eq_self] at hq
      exact .inl ⟨rfl, hl, hq, rfl⟩
    · cases hv
  · rcases hafter with ⟨hv, -⟩ | ⟨_, counters, -, hcounters, rfl⟩
    · cases hv
    · obtain ⟨core, hcore, rfl⟩ := SegmentedCounters.onCore_eq_ok hcounters
      obtain ⟨n, hn, rfl⟩ := Counters.recordEviction_eq_ok hcore
      exact .inr ⟨v, c.objects, rfl, (h.objects 0).symm.trans hlast, hq.counted _, hn, rfl⟩

theorem Queues.vacated_nil (h : Queues s l st₁ s₁)
    (henough : s₁.hasRoomAt i size = .ok true ∨ l i = []) :
    Vacated size s l i (l i) [] s₁ st₁ s₁ where
  toQueues := by rwa [Function.update_eq_self]
  split := (List.append_nil _).symm
  enough := henough
  least _ _ _ hlt := absurd hlt (Nat.not_lt_zero _)
  evictions := rfl
  insertions := rfl

/-- One object that had to leave is followed by others. -/
theorem Vacated.cons {rest kept gone : List CacheObject} {v : CacheObject}
    (hl : l i = rest ++ [v]) (hfull : ¬ (s.segment i).FitsBeside size (l i))
    (h : Vacated size s (Function.update l i rest) i kept gone s₂ st' s')
    (hevictions : s₂.counters.core.evictions.toNat = s₁.counters.core.evictions.toNat + 1)
    (hinsertions : s₂.counters.core.insertions = s₁.counters.core.insertions) :
    Vacated size s l i kept (gone ++ [v]) s₁ st' s' where
  toQueues := by
    have hq := h.toQueues
    rwa [Function.update_idem] at hq
  split := by
    have hsplit := h.split
    rw [Function.update_self] at hsplit
    rw [hl, hsplit, List.append_assoc]
  enough := h.enough
  least kept' gone' hsplit hlt := by
    rcases List.eq_nil_or_concat' gone' with rfl | ⟨shorter, w, rfl⟩
    · rw [hsplit, List.append_nil] at hfull
      exact hfull
    · rw [hl, ← List.append_assoc] at hsplit
      refine h.least kept' shorter ?_ ?_
      · rw [Function.update_self]
        exact List.append_inj_left' hsplit rfl
      · simpa using hlt
  evictions := by
    rw [h.evictions, hevictions, List.length_append, List.length_singleton]
    omega
  insertions := h.insertions.trans hinsertions

theorem Queues.evictUntilRoom (fuel : ℕ) (h : Queues s l st₁ s₁) (hf : (l 0).length < fuel)
    (hy : (evictUntilRoom size fuel).Yields s₁ st₁ () s' st') :
    ∃ kept gone, Vacated size s l 0 kept gone s₁ st' s' := by
  induction fuel generalizing l s₁ st₁ with
  | zero => cases hf
  | succ fuel ih =>
    rcases evictUntilRoom_cases hy with
      ⟨hroom, rfl, rfl⟩ | ⟨hroom, hevict | ⟨v, s₂, st₂, hevict, hrest⟩⟩
    · exact ⟨_, _, h.vacated_nil (.inl hroom)⟩
    · rcases h.evict hevict with ⟨-, hnil, hq, hcounters⟩ | ⟨_, _, hv, -⟩
      · have hv : Vacated size _ _ 0 _ _ _ _ _ := hq.vacated_nil (.inr hnil)
        refine ⟨_, _, hv.toQueues, hv.split, hv.enough, hv.least, ?_, ?_⟩
        · rw [hcounters]
          rfl
        · rw [hcounters]
      · cases hv
    · rcases h.evict hevict with ⟨hv, -⟩ | ⟨v, rest, -, hlast, hq, hmore⟩
      · cases hv
      · have hlength : rest.length < fuel := by
          rw [hlast, List.length_append, List.length_singleton] at hf
          omega
        obtain ⟨kept, gone, hv⟩ := ih hq (by rwa [Function.update_self]) hrest
        exact ⟨kept, _, hv.cons hlast (h.not_fitsBeside hroom) hmore.1 hmore.2⟩

/-! ## The level -/

theorem hasRoomAt_eq_false (h : s.hasRoomAt i size ≠ .ok true) :
    s.hasRoomAt i size = .ok false := by
  obtain ⟨room, hroom⟩ := s.exists_hasRoomAt i size
  cases room with
  | true => exact absurd hroom h
  | false => exact hroom

theorem firstWithRoom_eq (s : Segmented Lru top) (size : Bytes) (l : List (Level top)) :
    s.firstWithRoom size l = .ok (l.find? fun i => s.hasRoomAt i size = .ok true) := by
  induction l with
  | nil => rfl
  | cons i rest ih =>
    unfold firstWithRoom
    rw [List.find?_cons]
    by_cases hroom : s.hasRoomAt i size = .ok true
    · rw [decide_eq_true hroom, hroom]
      rfl
    · rw [decide_eq_false hroom, hasRoomAt_eq_false hroom]
      exact ih

/-- The levels come in order, so none below the first with room has it. -/
theorem find?_levels {p : Level top → Bool} (h : (levels top).find? p = some i) :
    p i = true ∧ ∀ j < i, p j = false := by
  obtain ⟨hi, k, hk, rfl, hbefore⟩ := List.find?_eq_some_iff_getElem.mp h
  refine ⟨hi, fun j hj => ?_⟩
  unfold levels at hj hbefore hk
  rw [List.getElem_finRange] at hj
  have hlt : j.val < k := hj
  have hj := hbefore j.val hlt
  rw [List.getElem_finRange, Bool.not_eq_true'] at hj
  exact hj

/-- A level is the first that has room, or no level has room and the coldest was vacated. -/
theorem Queues.levelFor (h : Queues s l st₁ s₁)
    (hy : (levelFor size).Yields s₁ st₁ level s' st') :
    (s₁.hasRoomAt level size = .ok true ∧ (∀ j < level, s₁.hasRoomAt j size = .ok false) ∧
      s' = s₁ ∧ st' = st₁) ∨
    ((∀ j, s₁.hasRoomAt j size = .ok false) ∧ level = 0 ∧
      ∃ kept gone, Vacated size s l 0 kept gone s₁ st' s') := by
  cases hfound : (levels top).find? fun i => s₁.hasRoomAt i size = .ok true with
  | some i =>
    have hok := (firstWithRoom_eq s₁ size (levels top)).trans (congrArg Except.ok hfound)
    obtain ⟨rfl, rfl, rfl⟩ := hy.unique (levelFor_of_room hok)
    obtain ⟨hroom, hbelow⟩ := find?_levels hfound
    exact .inl ⟨of_decide_eq_true hroom,
      fun j hj => hasRoomAt_eq_false (of_decide_eq_false (hbelow j hj)), rfl, rfl⟩
  | none =>
    have hfull : ∀ j, s₁.hasRoomAt j size = .ok false := fun j =>
      hasRoomAt_eq_false (by simpa using List.find?_eq_none.mp hfound j (List.mem_finRange j))
    unfold Segmented.levelFor at hy
    rw [yields_get_bind_iff] at hy
    obtain ⟨found, s₂, st₂, hfirst, hy⟩ := yields_bind_iff.mp hy
    obtain ⟨hok, rfl, rfl⟩ := yields_checked_iff.mp hfirst
    rw [firstWithRoom_eq, hfound, Except.ok.injEq] at hok
    subst hok
    dsimp only [Option.getD_none] at hy
    rw [if_pos rfl] at hy
    obtain ⟨_, s₃, st₃, hevict, hpure⟩ := yields_bind_iff.mp hy
    obtain ⟨rfl, rfl, rfl⟩ := yields_pure_iff.mp hpure
    refine .inr ⟨hfull, rfl, h.evictUntilRoom _ ?_ hevict⟩
    rw [← h.objects, (h.coherent 0).length_objects]
    exact Nat.lt_succ_self _

/-! ## The new object -/

/-- A new object comes to the front of a segment that has room for it. -/
theorem Queues.insertAt (h : Queues s l st₁ s₁) (hid : r.id ∉ held st₁ s₁)
    (hroom : s₁.hasRoomAt i r.size = .ok true)
    (hy : (onSegment i (Policy.insert r : Action Lru _)).Yields s₁ st₁ res s' st') :
    ∃ o, res = some o ∧ Lru.Made r o ∧ Queues s (Function.update l i (o :: l i)) st' s' ∧
      (s.segment i).FitsBeside r.size (l i) ∧ s'.counters = s₁.counters := by
  have hnot : r.id ∉ held st₁ (s₁.segment i) := fun hm => hid (mem_held_iff.mpr ⟨i, hm⟩)
  have hothers : r.id ∉ Lru.held st₁ (others s₁ i) :=
    fun hm => hid ((held_eq st₁ s₁ i).symm ▸ .inr hm)
  have hkept := ((ensures_insertAt h.toSound i hothers).apply hy).1
  obtain ⟨c, hc, rfl⟩ := yields_onSegment_iff.mp hy
  have hinserted := (Lru.ensures_insert (h.coherent i) r).apply hc
  obtain ⟨o, rfl, hmade, hobjects⟩ := hinserted.of_tidy (h.resident i) (h.coherent i).toLinked hnot
    (hasRoomAt_eq_true_iff.mp hroom)
  cases hinserted with
  | admitted _ _ hadmits =>
    have hq := h.setSegment hkept hadmits.params
    rw [hobjects, h.objects] at hq
    refine ⟨o, rfl, hmade, hq, ?_, rfl⟩
    have hbytes := hadmits.toCharged.occupied
    have hwithin := hadmits.toCharged.within
    have hparams := hadmits.params.trans (h.params i)
    rw [hobjects, h.objects, Lru.bytes_cons, hmade.size] at hbytes
    rw [← Lru.fitsBeside_congr hparams]
    unfold Lru.FitsBeside
    omega

/-- What an insertion returns, and where it leaves the objects. -/
inductive Placed (r : Request) (s : Segmented Lru top) :
    Option CacheObject → Segmented Lru top → Prop
  /-- The charge exceeds the capacity of the coldest segment, and nothing happens. -/
  | refused (large : s.coldest.params.capacity < s.charge r.size) : Placed r s none s
  /-- The coldest segment with room takes the new object. -/
  | roomy {s' : Segmented Lru top} {o : CacheObject} {i : Level top}
    (fits : s.charge r.size ≤ s.coldest.params.capacity) (made : Lru.Made r o)
    (room : (s.segment i).RoomFor r) (colder : ∀ j < i, ¬ (s.segment j).RoomFor r)
    (entered : (s'.segment i).objects = o :: (s.segment i).without r.id)
    (others : ∀ j ≠ i, (s'.segment j).objects = (s.segment j).without r.id)
    (insertions : s'.counters.core.insertions.toNat = s.counters.core.insertions.toNat + 1)
    (evictions : s'.counters.core.evictions = s.counters.core.evictions) : Placed r s (some o) s'
  /-- No segment has room. The coldest takes the new object and loses what is in `gone`. -/
  | crowded {s' : Segmented Lru top} {o : CacheObject} {kept gone : List CacheObject}
    (fits : s.charge r.size ≤ s.coldest.params.capacity) (made : Lru.Made r o)
    (full : ∀ j, ¬ (s.segment j).RoomFor r)
    (split : s.coldest.without r.id = kept ++ gone) (room : s.coldest.FitsBeside r.size kept)
    (least : ∀ kept' gone', s.coldest.without r.id = kept' ++ gone' →
      gone'.length < gone.length → ¬ s.coldest.FitsBeside r.size kept')
    (entered : s'.coldest.objects = o :: kept)
    (others : ∀ j : Level top, 0 < j.val → (s'.segment j).objects = (s.segment j).without r.id)
    (insertions : s'.counters.core.insertions.toNat = s.counters.core.insertions.toNat + 1)
    (evictions : s'.counters.core.evictions.toNat =
      s.counters.core.evictions.toNat + gone.length) : Placed r s (some o) s'
  /-- No segment has room, and the coldest charges too much for the object ever to fit. -/
  | barred {s' : Segmented Lru top} (fits : s.charge r.size ≤ s.coldest.params.capacity)
    (full : ∀ j, ¬ (s.segment j).RoomFor r)
    (large : s.coldest.params.capacity < s.coldest.charge r.size)
    (emptied : s'.coldest.objects = [])
    (others : ∀ j : Level top, 0 < j.val → (s'.segment j).objects = (s.segment j).without r.id)
    (insertions : s'.counters.core.insertions = s.counters.core.insertions)
    (evictions : s'.counters.core.evictions.toNat =
      s.counters.core.evictions.toNat + (s.coldest.without r.id).length) : Placed r s none s'

/-- The count of an insertion. -/
theorem counts_insertion {size : Bytes} {k k' : SegmentedCounters}
    (h : k.onCore (·.recordInsertion size) = .ok k') :
    k'.core.insertions.toNat = k.core.insertions.toNat + 1 ∧
      k'.core.evictions = k.core.evictions := by
  obtain ⟨core, hcore, rfl⟩ := SegmentedCounters.onCore_eq_ok h
  obtain ⟨insertions, hadd, h₁⟩ := bind_eq_ok_iff.mp hcore
  obtain ⟨bytesWritten, -, h₂⟩ := bind_eq_ok_iff.mp h₁
  rw [← Except.ok.inj h₂]
  exact ⟨(Word.add_eq_ok_iff.mp hadd).symm, rfl⟩

/-- The vacated segment has room unless it charges too much for the object. -/
theorem Vacated.room {kept gone : List CacheObject} (h : Vacated size s l i kept gone s₁ st' s')
    (hle : (s.segment i).charge size ≤ (s.segment i).params.capacity) :
    s'.hasRoomAt i size = .ok true := by
  rcases h.enough with hroom | rfl
  · exact hroom
  · have hobjects := h.objects i
    rw [Function.update_self] at hobjects
    refine Lru.hasRoom_of_nil (h.coherent i).toCharged hobjects ?_
    unfold Lru.charge at *
    rwa [h.params]

/-- Once there is a level, the object is inserted there and counted. -/
theorem insertion_parts (hfits : s.charge r.size ≤ s.coldest.params.capacity)
    (hy : (insert r).Yields s st res s' st') :
    ∃ s₁ st₁ level s₂ st₂ s₃ st₃, (displace r.id).Yields s st () s₁ st₁ ∧
      (levelFor r.size).Yields s₁ st₁ level s₂ st₂ ∧
      (onSegment level (Policy.insert r : Action Lru _)).Yields s₂ st₂ res s₃ st₃ ∧
      (∀ j, s'.segment j = s₃.segment j) ∧
      s'.counters.core.insertions.toNat =
        s₃.counters.core.insertions.toNat + res.isSome.toNat ∧
      s'.counters.core.evictions = s₃.counters.core.evictions := by
  unfold insert at hy
  rw [yields_get_bind_iff] at hy
  dsimp only at hy
  rw [if_neg (show ¬ Policy.capacity (s.segment 0) < _ from UInt64.not_lt.mpr hfits)] at hy
  obtain ⟨_, s₁, st₁, hdisplace, hy⟩ := yields_bind_iff.mp hy
  obtain ⟨level, s₂, st₂, hlevel, hy⟩ := yields_bind_iff.mp hy
  obtain ⟨res₁, s₃, st₃, hinsert, hy⟩ := yields_bind_iff.mp hy
  refine ⟨s₁, st₁, level, s₂, st₂, s₃, st₃, hdisplace, hlevel, ?_⟩
  cases res₁ with
  | none =>
    obtain ⟨rfl, rfl, rfl⟩ := yields_pure_iff.mp hy
    exact ⟨hinsert, fun _ => rfl, rfl, rfl⟩
  | some o =>
    obtain ⟨_, s₄, st₄, hrecord, hpure⟩ := yields_bind_iff.mp hy
    obtain ⟨counters, hcounters, rfl, rfl⟩ := yields_record_iff.mp hrecord
    obtain ⟨rfl, rfl, rfl⟩ := yields_pure_iff.mp hpure
    obtain ⟨hinsertions, hevictions⟩ := counts_insertion hcounters
    exact ⟨hinsert, fun _ => rfl, hinsertions, hevictions⟩

theorem placed_insert (h : Neat st s) (hy : (insert r).Yields s st res s' st') :
    Placed r s res s' := by
  rcases UInt64.lt_or_le s.coldest.params.capacity (s.charge r.size) with hlarge | hfits
  · obtain ⟨rfl, rfl, -⟩ := refuses hlarge hy
    exact .refused hlarge
  obtain ⟨s₁, st₁, level, s₂, st₂, s₃, st₃, hdisplace, hlevel, hinsert, hsegments, hinsertions,
    hevictions⟩ := insertion_parts hfits hy
  obtain ⟨hq, hcounters, hgone⟩ := queues_displace h hdisplace
  have hnot : r.id ∉ held st₂ s₂ :=
    fun hm => hgone (((ensures_levelFor hq.toSound r.size).apply hlevel).held_subset hm)
  rcases hq.levelFor hlevel with ⟨hroom, hbelow, rfl, rfl⟩ | ⟨hfull, rfl, kept, gone, hv⟩
  · obtain ⟨o, rfl, hmade, hq₃, hbeside, hsame⟩ := hq.insertAt hnot hroom hinsert
    rw [hsame, hcounters] at hinsertions hevictions
    exact .roomy hfits hmade hbeside (fun j hj => hq.not_fitsBeside (hbelow j hj))
      ((congrArg Lru.objects (hsegments level)).trans hq₃.objects_self)
      (fun j hj => (congrArg Lru.objects (hsegments j)).trans (hq₃.objects_of_ne hj))
      hinsertions hevictions
  · have hfull : ∀ j, ¬ (s.segment j).RoomFor r := fun j => hq.not_fitsBeside (hfull j)
    have hne : ∀ j : Level top, 0 < j.val → j ≠ 0 := fun j hj => Fin.pos_iff_ne_zero.mp hj
    obtain ⟨room, hroom⟩ := s₂.exists_hasRoomAt 0 r.size
    cases room with
    | true =>
      obtain ⟨o, rfl, hmade, hq₃, hbeside, hsame⟩ := hv.insertAt hnot hroom hinsert
      rw [Function.update_idem, Function.update_self] at hq₃
      rw [Function.update_self] at hbeside
      rw [hsame] at hinsertions hevictions
      rw [hv.insertions, hcounters] at hinsertions
      refine .crowded hfits hmade hfull hv.split hbeside hv.least
        ((congrArg Lru.objects (hsegments 0)).trans hq₃.objects_self)
        (fun j hj => (congrArg Lru.objects (hsegments j)).trans (hq₃.objects_of_ne (hne j hj)))
        hinsertions ?_
      rw [hevictions, hv.evictions, hcounters]
    | false =>
      have hbars : s.coldest.params.capacity < s.coldest.charge r.size := by
        refine UInt64.not_le.mp fun hle => ?_
        rw [hv.room hle] at hroom
        cases hroom
      have hnil : kept = [] := hv.enough.resolve_left fun h => by
        rw [h] at hroom
        cases hroom
      have hsplit := hv.split
      rw [hnil, List.nil_append] at hsplit
      obtain ⟨c, hc, rfl⟩ := yields_onSegment_iff.mp hinsert
      have hlarge : (s₂.segment 0).params.capacity < (s₂.segment 0).charge r.size := by
        unfold Lru.charge
        rw [hv.params]
        exact hbars
      obtain ⟨rfl, rfl, -⟩ := Lru.refuses hlarge hc
      rw [setSegment_segment] at hsegments hinsertions hevictions
      refine .barred hfits hfull hbars
        ((congrArg Lru.objects (hsegments 0)).trans (hv.objects_self.trans hnil))
        (fun j hj => (congrArg Lru.objects (hsegments j)).trans (hv.objects_of_ne (hne j hj)))
        ?_ ?_
      · rw [← UInt64.toNat_inj, hinsertions, hv.insertions, hcounters]
        rfl
      · rw [hevictions, hv.evictions, hcounters, coldest_eq, hsplit]

/-- Nothing is returned if the object is too large for the coldest segment, by the charge
of the whole or, where no segment has room for it, by the segment's own. -/
theorem Placed.eq_none_iff (h : Placed r s res s') : res = none ↔
    s.coldest.params.capacity < s.charge r.size ∨
      (∀ j, ¬ (s.segment j).RoomFor r) ∧ s.coldest.params.capacity < s.coldest.charge r.size := by
  cases h with
  | refused large => exact iff_of_true rfl (.inl large)
  | roomy fits _ room _ _ _ _ _ =>
    refine iff_of_false (Option.some_ne_none _) ?_
    rintro (hlarge | ⟨hfull, -⟩)
    · exact UInt64.not_lt.mpr fits hlarge
    · exact hfull _ room
  | crowded fits _ _ _ room _ _ _ _ _ =>
    refine iff_of_false (Option.some_ne_none _) ?_
    rintro (hlarge | ⟨-, hlarge⟩)
    · exact UInt64.not_lt.mpr fits hlarge
    · have hlarge := UInt64.lt_iff_toNat_lt.mp hlarge
      unfold Lru.FitsBeside at room
      omega
  | barred _ full large _ _ _ _ => exact iff_of_true rfl (.inr ⟨full, large⟩)

/-- What is queued in a tidy segment is found there. -/
theorem segmentOf?_of_mem {o : CacheObject} (h : Neat st s) (ho : o ∈ (s.segment i).objects) :
    s.segmentOf? st o.id = some i := by
  have hq := Queues.refl h
  exact (segmentOf?_eq_some_iff h.toSound).mpr
    (Lru.mem_held_of_mem (hq.coherent i).toLinked (hq.resident i) ho)

theorem segmentOf?_eq_none (h : Neat st s) (hnone : ∀ j, ∀ o ∈ (s.segment j).objects, o.id ≠ id) :
    s.segmentOf? st id = none := by
  rw [segmentOf?_eq_none_iff, mem_held_iff]
  rintro ⟨j, hj⟩
  have hq := Queues.refl h
  rw [Lru.held_eq, Lru.mem_ids_iff] at hj
  obtain ⟨o, ho⟩ := hj
  obtain ⟨hmem, hid⟩ :=
    (Lru.find?_eq_some_iff_of_tidy (hq.coherent j).toLinked (hq.resident j)).mp ho
  exact hnone j o hmem hid

/-- The id of an object that is not refused at once is found in the coldest segment that
had room, and in the coldest of all if none had, provided that it can hold the object. -/
theorem Placed.segmentOf?_eq (h : Placed r s res s') (hn : Neat st' s')
    (hfits : s.charge r.size ≤ s.coldest.params.capacity) :
    (∀ i, (s.segment i).RoomFor r → (∀ j < i, ¬ (s.segment j).RoomFor r) →
      s'.segmentOf? st' r.id = some i) ∧
    ((∀ j, ¬ (s.segment j).RoomFor r) → s'.segmentOf? st' r.id =
      if s.coldest.charge r.size ≤ s.coldest.params.capacity then some ⟨0, top.succ_pos⟩
      else none) := by
  cases h with
  | refused large => exact absurd hfits (UInt64.not_le.mpr large)
  | @roomy _ o k _ made room colder entered _ _ _ =>
    have hfound := segmentOf?_of_mem (i := k) hn (entered ▸ List.mem_cons_self)
    rw [made.id] at hfound
    refine ⟨fun i hi hcolder => ?_, fun hfull => absurd room (hfull k)⟩
    rcases lt_trichotomy i k with hlt | rfl | hgt
    · exact absurd hi (colder i hlt)
    · exact hfound
    · exact absurd room (hcolder k hgt)
  | @crowded _ o _ _ _ made full _ room _ entered _ _ _ =>
    have hfound := segmentOf?_of_mem (i := ⟨0, top.succ_pos⟩) hn (entered ▸ List.mem_cons_self)
    rw [made.id] at hfound
    have hle : s.coldest.charge r.size ≤ s.coldest.params.capacity := by
      unfold Lru.FitsBeside at room
      exact UInt64.le_iff_toNat_le.mpr (by omega)
    refine ⟨fun i hi _ => absurd hi (full i), fun _ => ?_⟩
    rw [if_pos hle, hfound]
  | barred _ full large emptied others _ _ =>
    refine ⟨fun i hi _ => absurd hi (full i), fun _ => ?_⟩
    rw [if_neg (UInt64.not_le.mpr large)]
    refine segmentOf?_eq_none hn fun j o ho => ?_
    rcases Nat.eq_zero_or_pos j.val with hzero | hpos
    · obtain rfl : j = ⟨0, top.succ_pos⟩ := Fin.ext hzero
      have hnil : (s'.segment ⟨0, top.succ_pos⟩).objects = [] := emptied
      rw [hnil] at ho
      cases ho
    · rw [others j hpos] at ho
      exact of_decide_eq_true (List.mem_filter.mp ho).2

end Segmented
end SegmentedCache
