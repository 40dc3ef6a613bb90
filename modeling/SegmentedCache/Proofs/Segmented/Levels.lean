import SegmentedCache.Proofs.Policy.Lawful
import SegmentedCache.Segmented.Operations

/-!
# The levels of a segmented cache

The leaves of a segmented cache are those of its segments together. Work on one
segment is work on the whole: the leaves of the other segments are outside, so
they stay as they were (`kept_setSegment`). From the laws of the segments this
gives a guarantee of each operation at one level, in terms of the whole.
-/
namespace SegmentedCache.Segmented
open SegmentedCache.Action Policy
variable {C : Type} {top : Nat} [Policy C] [Lawful C]
variable {st st' : Store} {s s' : Segmented C top} {i : Level top} {c : C} {id : ObjectId}

instance : Composed (Segmented C top) where
  leaves s := s.segments.toList.flatMap leaves
  Fits s := (s.segments.toList.map fun c => (Policy.capacity c).toNat).sum ≤ s.params.capacity.toNat ∧
    ∀ c ∈ s.segments.toList, Fits c
  Roomy s := ∀ i, Policy.overhead (s.segment i) ≤ s.params.overhead ∧
    s.limit ≤ Policy.admissionLimit (s.segment i) ∧ Roomy (s.segment i)

/-- The leaves of the segments other than `i`. -/
def others (s : Segmented C top) (i : Level top) : List Lru :=
  (s.segments.toList.eraseIdx i).flatMap leaves

omit [Policy C] [Lawful C] in
theorem lt_length_toList (s : Segmented C top) (i : Level top) :
    i.val < s.segments.toList.length := by
  rw [Vector.length_toList]
  exact i.isLt

omit [Policy C] [Lawful C] in
theorem getElem_toList (s : Segmented C top) (i : Level top)
    (hi : i.val < s.segments.toList.length) : s.segments.toList[i.val] = s.segment i := by
  simp [segment, Vector.get]

omit [Policy C] [Lawful C] in
theorem toList_setSegment (s : Segmented C top) (i : Level top) (c : C) :
    (s.setSegment i c).segments.toList = s.segments.toList.set i c := by
  unfold setSegment
  rw [← Vector.toList_toArray, Vector.toArray_set, Array.toList_set, Vector.toList_toArray]

omit [Policy C] [Lawful C] in
theorem setSegment_segment (s : Segmented C top) (i : Level top) :
    s.setSegment i (s.segment i) = s := by
  unfold setSegment segment
  have h : s.segments.set i (s.segments.get i) i.isLt = s.segments := Vector.set_getElem_self _
  rw [h]

omit [Policy C] [Lawful C] in
theorem mem_toList_iff : c ∈ s.segments.toList ↔ ∃ i, s.segment i = c := by
  rw [List.mem_iff_getElem]
  constructor
  · intro ⟨k, hk, e⟩
    exact ⟨⟨k, by simpa using hk⟩, (getElem_toList s ⟨k, _⟩ hk).symm.trans e⟩
  · intro ⟨i, e⟩
    exact ⟨i, s.lt_length_toList i, (getElem_toList s i _).trans e⟩

omit [Policy C] [Lawful C] in
/-- The coldest segment comes first. -/
theorem toList_eq_cons (s : Segmented C top) :
    s.segments.toList = s.segment 0 :: s.segments.toList.tail := by
  rw [← getElem_toList s 0 (s.lt_length_toList 0), ← List.drop_one]
  exact (List.cons_getElem_drop_succ (h := s.lt_length_toList 0)).symm

theorem leaves_perm (s : Segmented C top) (i : Level top) :
    (leaves s).Perm (leaves (s.segment i) ++ others s i) := by
  have h := List.getElem_cons_eraseIdx_perm (s.lt_length_toList i)
  rw [getElem_toList] at h
  exact (h.flatMap_right leaves).symm

@[simp] theorem others_setSegment (s : Segmented C top) (i : Level top) (c : C) :
    others (s.setSegment i c) i = others s i := by
  unfold others
  rw [toList_setSegment, List.eraseIdx_set_eq]

theorem held_eq (st : Store) (s : Segmented C top) (i : Level top) :
    held st s = held st (s.segment i) ∪ Lru.held st (others s i) := by
  unfold held
  rw [Lru.held_perm (leaves_perm s i), Lru.held_append]

theorem stock_eq (st : Store) (s : Segmented C top) (i : Level top) :
    stock st s = stock st (s.segment i) ∪ Lru.stock st (others s i) := by
  unfold stock
  rw [Lru.stock_perm (leaves_perm s i), Lru.stock_append]

theorem mem_leaves_iff {d : Lru} : d ∈ leaves s ↔ ∃ i, d ∈ leaves (s.segment i) := by
  change d ∈ s.segments.toList.flatMap leaves ↔ _
  rw [List.mem_flatMap]
  constructor
  · intro ⟨c, hc, hd⟩
    obtain ⟨i, rfl⟩ := mem_toList_iff.mp hc
    exact ⟨i, hd⟩
  · intro ⟨i, hd⟩
    exact ⟨s.segment i, mem_toList_iff.mpr ⟨i, rfl⟩, hd⟩

theorem mem_others {d : Lru} {j : Level top} (hij : j ≠ i) (hd : d ∈ leaves (s.segment j)) :
    d ∈ others s i := by
  refine List.mem_flatMap.mpr ⟨s.segment j, ?_, hd⟩
  rw [List.mem_eraseIdx_iff_getElem?]
  refine ⟨j.val, fun e => hij (Fin.ext e), ?_⟩
  rw [List.getElem?_eq_getElem (s.lt_length_toList j), getElem_toList]

theorem mem_held_iff : id ∈ held st s ↔ ∃ i, id ∈ held st (s.segment i) := by
  constructor
  · intro ⟨d, hd, hid⟩
    obtain ⟨i, hi⟩ := mem_leaves_iff.mp hd
    exact ⟨i, d, hi, hid⟩
  · intro ⟨i, d, hd, hid⟩
    exact ⟨d, mem_leaves_iff.mpr ⟨i, hd⟩, hid⟩

theorem sound_append (h : Sound st s) (i : Level top) :
    Lru.Together st (leaves (s.segment i) ++ others s i) ∧
      Lru.Sole st (leaves (s.segment i) ++ others s i) :=
  ⟨h.together.perm (leaves_perm s i), h.sole.perm (leaves_perm s i)⟩

theorem sound_segment (h : Sound st s) (i : Level top) : Sound st (s.segment i) where
  together := (sound_append h i).1.left
  charged d hd := h.charged d ((leaves_perm s i).mem_iff.mpr (List.mem_append_left _ hd))
  sole := (sound_append h i).2.left

/-- An id that a segment holds is held by no other. -/
theorem notMem_others (h : Sound st s) (hid : id ∈ held st (s.segment i)) :
    id ∉ Lru.held st (others s i) :=
  Set.disjoint_left.mp (Lru.sole_append_iff.mp (sound_append h i).2).2.2 hid

omit [Policy C] [Lawful C] in
theorem map_set_segment {β : Type} (f : C → β) (hf : f c = f (s.segment i)) :
    (s.segments.toList.set i c).map f = s.segments.toList.map f := by
  have hi : i.val < (s.segments.toList.map f).length := by
    rw [List.length_map]
    exact s.lt_length_toList i
  have hfi : f (s.segment i) = (s.segments.toList.map f)[i.val] := by
    rw [List.getElem_map, getElem_toList]
  rw [List.map_set, hf, hfi, List.set_getElem_self]

/-- The other segments find what they found before. -/
theorem stock_setSegment (h : Sound st s)
    (k : Lru.Confined st (leaves (s.segment i)) st' (leaves c)) :
    stock st' (s.setSegment i c) = stock st' c ∪ Lru.stock st (others s i) := by
  rw [stock_eq st' _ i, segment_setSegment, if_pos rfl, others_setSegment,
    Lru.stock_of_confined (sound_append h i).1 k]

theorem held_setSegment (h : Sound st s)
    (k : Lru.Confined st (leaves (s.segment i)) st' (leaves c)) :
    held st' (s.setSegment i c) = held st' c ∪ Lru.held st (others s i) := by
  rw [held_eq st' _ i, segment_setSegment, if_pos rfl, others_setSegment,
    Lru.held_of_confined (sound_append h i).1 k]

theorem held_segment_of_ne (h : Sound st s)
    (k : Lru.Confined st (leaves (s.segment i)) st' (leaves c)) {j : Level top} (hij : j ≠ i) :
    held st' ((s.setSegment i c).segment j) = held st (s.segment j) := by
  have ht := (sound_append h i).1
  rw [segment_setSegment, if_neg hij]
  ext id
  refine exists_congr fun d => and_congr_right fun hd => ?_
  have hd := mem_others hij hd
  rw [k.ids_eq (ht.right.linked d hd) (ht.apart_of_mem hd)]

/-- The other segments stay tidy. -/
theorem tidy_setSegment (h : Sound st s) (k : Kept st (s.segment i) st' c) (ht : Tidy st s) :
    Tidy st' (s.setSegment i c) := by
  have hperm := leaves_perm (s.setSegment i c) i
  rw [segment_setSegment, if_pos rfl, others_setSegment] at hperm
  have hleaf : ∀ d ∈ leaves (s.segment i) ++ others s i, ∀ o ∈ d.objects, st.resident o = true :=
    fun d hd => ht d ((leaves_perm s i).mem_iff.mpr hd)
  intro d hd o ho
  rcases List.mem_append.mp (hperm.mem_iff.mp hd) with hd | hd
  · exact k.tidy (fun d hd => hleaf d (List.mem_append_left _ hd)) d hd o ho
  · have hall := (sound_append h i).1
    have hrow := k.confined.row o ((hall.right.linked d hd).issued ho)
      fun e he hm => (hall.apart_of_mem hd e he).objects o hm ho
    exact hrow.1.trans (hleaf d (List.mem_append_right _ hd) o ho)

/-- Work on one segment that does not meet the ids of the others. -/
theorem kept_setSegment (h : Sound st s) (k : Kept st (s.segment i) st' c)
    (hd : Disjoint (held st' c) (Lru.held st (others s i))) : Kept st s st' (s.setSegment i c) := by
  have hperm := leaves_perm (s.setSegment i c) i
  rw [segment_setSegment, if_pos rfl, others_setSegment] at hperm
  have ht := (sound_append h i).1
  constructor
  case toSound =>
    refine ⟨(ht.append_of_confined k.confined k.together).perm hperm.symm, fun d hd => ?_, ?_⟩
    · rcases List.mem_append.mp (hperm.mem_iff.mp hd) with hd | hd
      · exact k.charged d hd
      · exact h.charged d ((leaves_perm s i).mem_iff.mpr (List.mem_append_right _ hd))
    · exact (Lru.Sole.append_of_confined ht (sound_append h i).2 k.confined k.sole hd).perm hperm.symm
  case confined => exact (k.confined.append (others s i)).perm (leaves_perm s i).symm hperm.symm
  case capacity => rfl
  case overhead => rfl
  case limit => rfl
  case fits =>
    intro hf
    have hcap : (Policy.capacity c).toNat = (Policy.capacity (s.segment i)).toNat := by
      rw [k.capacity]
    refine ⟨?_, fun d hd => ?_⟩
    · rw [toList_setSegment, map_set_segment (fun c => (Policy.capacity c).toNat) hcap]
      exact hf.1
    · rw [toList_setSegment] at hd
      rcases List.mem_or_eq_of_mem_set hd with hd | rfl
      · exact hf.2 d hd
      · exact k.fits (hf.2 _ (mem_toList_iff.mpr ⟨i, rfl⟩))
  case roomy =>
    intro hr j
    rw [segment_setSegment]
    split
    · rw [k.overhead, k.limit]
      exact ⟨(hr i).1, (hr i).2.1, k.roomy (hr i).2.2⟩
    · exact hr j
  case tidy => exact tidy_setSegment h k

omit [Policy C] [Lawful C] in
theorem ensures_onSegment {α : Type} {act : Action C α} {Q : α → C → Store → Prop}
    {R : α → Segmented C top → Store → Prop} (h : act.Ensures (s.segment i) st Q)
    (hR : ∀ a c st', Q a c st' → R a (s.setSegment i c) st') :
    (onSegment i act).Ensures s st R := by
  unfold Ensures at *
  rw [onSegment_apply]
  cases hx : act (s.segment i) st with
  | ok x st' =>
    rw [hx] at h
    exact hR _ _ _ h
  | error e st' =>
    rw [hx] at h
    exact h

theorem shrinks_setSegment (h : Sound st s) (k : Shrinks st (s.segment i) st' c) :
    Shrinks st s st' (s.setSegment i c) := by
  have hd : Disjoint (held st' c) (Lru.held st (others s i)) :=
    (Lru.sole_append_iff.mp (sound_append h i).2).2.2.mono_left k.held_subset
  refine ⟨kept_setSegment h k.toKept hd, ?_⟩
  rw [stock_setSegment h k.confined, stock_eq st s i]
  exact Set.union_subset_union_left _ k.stock_subset

/-- Reporting an event and counting keep everything. -/
theorem shrinks_report (h : Sound st s) (es : Array Event) (counters : SegmentedCounters) :
    Shrinks st s { st with events := es } { s with counters } := by
  have k := Shrinks.events h es
  exact ⟨⟨⟨k.together, k.charged, k.sole⟩, k.confined, rfl, rfl, rfl, fun hf => hf, fun hr => hr,
    fun ht => ht⟩, subset_rfl⟩

/-! ## Operations at one level -/

section
variable (h : Sound st s) (i : Level top)
include h

theorem ensures_checkAt (r : Request) (update : Bool) :
    (onSegment i (Policy.check r update)).Ensures s st fun found s' st' => Shrinks st s st' s' ∧
      (found = .hit → r.id ∈ held st s ∧ r.id ∉ Lru.held st' (others s' i)) := by
  apply ensures_onSegment (Lawful.ensures_check (sound_segment h i) r update)
  intro found c st' hQ
  obtain ⟨hk, hit⟩ := hQ
  refine ⟨shrinks_setSegment h hk, fun hf => ⟨mem_held_iff.mpr ⟨i, hit hf⟩, ?_⟩⟩
  rw [others_setSegment, Lru.held_of_confined (sound_append h i).1 hk.confined]
  exact notMem_others h (hit hf)

theorem ensures_evictAt :
    (onSegment i (Policy.evict : Action C _)).Ensures s st fun victim s' st' =>
      Shrinks st s st' s' ∧
      ∀ o, victim = some o → (o.id, o.size) ∈ stock st s ∧ o.id ∉ held st' s' := by
  apply ensures_onSegment (Lawful.ensures_evict (sound_segment h i))
  intro victim c st' hQ
  obtain ⟨hk, hv⟩ := hQ
  refine ⟨shrinks_setSegment h hk, fun o ho => ?_⟩
  obtain ⟨hin, hout⟩ := hv o ho
  rw [stock_eq st s i, held_setSegment h hk.confined]
  exact ⟨.inl hin, fun hm => hm.elim hout (notMem_others h (mem_held_of_stock hin))⟩

/-- An id that no other segment holds is removed from the whole. -/
theorem ensures_removeAt (hid : id ∉ Lru.held st (others s i)) :
    (onSegment i (Policy.remove id : Action C _)).Ensures s st fun removed s' st' =>
      Shrinks st s st' s' ∧ id ∉ held st' s' ∧
      ∀ o, removed = some o → o.id = id ∧ (o.id, o.size) ∈ stock st s := by
  apply ensures_onSegment (Lawful.ensures_remove (sound_segment h i) id)
  intro removed c st' hQ
  obtain ⟨hk, hgone, ho⟩ := hQ
  refine ⟨shrinks_setSegment h hk, ?_, fun o hr => ⟨(ho o hr).1, ?_⟩⟩
  · rw [held_setSegment h hk.confined]
    exact fun hm => hm.elim hgone hid
  · rw [stock_eq st s i]
    exact .inl (ho o hr).2

/-- An id that no other segment holds may be inserted. -/
theorem ensures_insertAt {r : Request} (hid : r.id ∉ Lru.held st (others s i)) :
    (onSegment i (Policy.insert r : Action C _)).Ensures s st fun _ s' st' => Kept st s st' s' ∧
      stock st' s' ⊆ stock st s ∪ {(r.id, r.size)} := by
  apply ensures_onSegment (Lawful.ensures_insert (sound_segment h i) r)
  intro res c st' hQ
  obtain ⟨hk, hsub⟩ := hQ
  have hd : Disjoint (held st' c) (Lru.held st (others s i)) := by
    refine Disjoint.mono_left (held_subset_union hsub)
      (Set.disjoint_union_left.mpr ⟨?_, Set.disjoint_singleton_left.mpr hid⟩)
    exact (Lru.sole_append_iff.mp (sound_append h i).2).2.2
  refine ⟨kept_setSegment h hk hd, ?_⟩
  rw [stock_setSegment h hk.confined, stock_eq st s i, Set.union_right_comm]
  exact Set.union_subset_union_left _ hsub

end

theorem ensures_releaseAt (h : Lru.Together st (leaves s)) (i : Level top) :
    (onSegment i (Policy.release : Action C _)).Ensures s st fun _ s' st' =>
      Lru.Together st' (leaves s') ∧ Lru.Confined st (leaves s) st' (leaves s') := by
  have ht := h.perm (leaves_perm s i)
  apply ensures_onSegment (Lawful.ensures_release ht.left)
  intro _ c st' hQ
  obtain ⟨htog, hconf⟩ := hQ
  have hperm := leaves_perm (s.setSegment i c) i
  rw [segment_setSegment, if_pos rfl, others_setSegment] at hperm
  exact ⟨(ht.append_of_confined hconf htog).perm hperm.symm,
    (hconf.append (others s i)).perm (leaves_perm s i).symm hperm.symm⟩

end SegmentedCache.Segmented
