import SegmentedCache.Proofs.Segmented.Sliding

/-!
# A promotion keeps the order

A hit below the hottest level takes the object out and lets it enter one level
up. All other objects keep their places in the order, save those that leave at
the cold end.
-/
namespace SegmentedCache.Segmented
open SegmentedCache.Action Policy
variable {top : Nat} {s s' s'' : Segmented Lru top} {st st' : Store} {i level dest : Level top}
variable {c : Lru} {o : CacheObject} {r : Request} {x : ObjectId × Bytes} {k : Nat}

theorem mem_order_iff : x ∈ s.order ↔ ∃ i, x ∈ (s.segment i).keys := by
  unfold order
  rw [List.mem_flatMap]
  constructor
  · intro ⟨c, hc, hx⟩
    obtain ⟨i, rfl⟩ := mem_toList_iff.mp (List.mem_reverse.mp hc)
    exact ⟨i, hx⟩
  · intro ⟨i, hx⟩
    exact ⟨s.segment i, List.mem_reverse.mpr (mem_toList_iff.mpr ⟨i, rfl⟩), hx⟩

theorem mem_held_of_mem_keys (h : Calm st s) (hx : x ∈ (s.segment i).keys) :
    x.1 ∈ held st (s.segment i) := by
  obtain ⟨o, ho, rfl⟩ := List.mem_map.mp hx
  exact Lru.mem_held_of_mem (coherent_segment h i).toLinked (tidy_segment h i) ho

/-- What is kept of every queue is kept of the order. -/
theorem order_filter_congr {p : ObjectId × Bytes → Bool}
    (h : ∀ j, (s'.segment j).keys.filter p = (s.segment j).keys.filter p) :
    s'.order.filter p = s.order.filter p := by
  have hmap : s'.segments.toList.map (fun c => c.keys.filter p) =
      s.segments.toList.map fun c => c.keys.filter p := by
    apply List.ext_getElem
    · simp
    · intro n hn hn'
      rw [List.length_map, Vector.length_toList] at hn
      rw [List.getElem_map, List.getElem_map]
      have e := getElem_toList s ⟨n, hn⟩ (s.lt_length_toList _)
      have e' := getElem_toList s' ⟨n, hn⟩ (s'.lt_length_toList _)
      dsimp only at e e'
      rw [e, e', h]
  unfold order
  rw [List.filter_flatMap, List.filter_flatMap, List.flatMap_def, List.flatMap_def,
    List.map_reverse, List.map_reverse, hmap]

/-- The order without what came in, and what it lost. -/
theorem Slides.order_eq (h : Slides k [x] s s') (hk : s'.orderBelow k ≠ [])
    (hx : ∀ y ∈ s.order, y.1 ≠ x.1) :
    ∃ cut, s.order = (s'.order.filter fun y => y.1 ≠ x.1) ++ cut ∧
      s'.counters.core.evictions.toNat = s.counters.core.evictions.toNat + cut.length := by
  obtain ⟨lost, hlost, hcount⟩ := h.below
  obtain ⟨y, rest, hrest⟩ := List.exists_cons_of_ne_nil hk
  rw [hrest, List.singleton_append, List.cons_append, List.cons.injEq] at hlost
  obtain ⟨rfl, hbelow⟩ := hlost
  have horder : s.order = s.orderFrom k ++ (rest ++ lost) := by
    rw [order_eq_append s k, hbelow]
  have horder' : s'.order = s.orderFrom k ++ x :: rest := by
    rw [order_eq_append s' k, hrest, orderFrom_congr h.above]
  have hkeep : ∀ l : List (ObjectId × Bytes), (∀ y ∈ l, y ∈ s.order) →
      (l.filter fun y => y.1 ≠ x.1) = l := by
    intro l hl
    apply List.filter_eq_self.mpr
    intro y hy
    exact decide_eq_true (hx y (hl y hy))
  have hfrom := hkeep (s.orderFrom k) fun y hy => by
    rw [horder]
    exact List.mem_append_left _ hy
  have hrest := hkeep rest fun y hy => by
    rw [horder]
    exact List.mem_append_right _ (List.mem_append_left _ hy)
  refine ⟨lost, ?_, hcount⟩
  rw [horder', List.filter_append, List.filter_cons_of_neg (by simp), hfrom, hrest, horder,
    List.append_assoc]

/-! ## Taking the object out -/

theorem removeAt_of_calm {removed : Option CacheObject} (h : Calm st s)
    (ho : o ∈ (s.segment i).objects)
    (hy : (onSegment i (Policy.remove o.id : Action Lru _)).Yields s st removed s' st') :
    removed = some o ∧
      ∃ c, s' = s.setSegment i c ∧ c.keys = (s.segment i).keys.filter fun x => x.1 ≠ o.id := by
  obtain ⟨c, hc, rfl⟩ := yields_onSegment_iff.mp hy
  have hcoh := coherent_segment h i
  have ht := tidy_segment h i
  have hfound : (s.segment i).find? st o.id = some o :=
    (Lru.find?_eq_some_iff_of_tidy hcoh.toLinked ht).mpr ⟨ho, rfl⟩
  cases (Lru.ensures_remove hcoh o.id).apply hc with
  | absent habsent _ =>
    rw [hfound] at habsent
    cases habsent
  | taken htaken hs =>
    rw [hfound] at htaken
    obtain rfl := Option.some.inj htaken
    refine ⟨rfl, c, rfl, ?_⟩
    rw [← Lru.keys_filter hcoh.toLinked ht ho, ← hs.objects]
    rfl

/-! ## The promotion -/

/-- The object `o` came to the front of the segment `dest`. The others kept their
order, and those at its cold end that had to go were counted as evicted. -/
structure Promoted (o : CacheObject) (dest : Level top) (s s' : Segmented Lru top) : Prop where
  front : (s'.segment dest).keys.head? = some (o.id, o.size)
  above : ∀ j, dest < j → s'.segment j = s.segment j
  order : ∃ cut, (s.order.filter fun x => x.1 ≠ o.id) =
      (s'.order.filter fun x => x.1 ≠ o.id) ++ cut ∧
    s'.counters.core.evictions.toNat = s.counters.core.evictions.toNat + cut.length
  promotions : s'.counters.promotions.toNat = s.counters.promotions.toNat + 1

/-- Where the object was in its segment before does not matter. -/
theorem Promoted.of_setSegment (h : Promoted o dest (s.setSegment level c) s')
    (hd : level < dest) (hc : (c.keys.filter fun x => x.1 ≠ o.id) =
      (s.segment level).keys.filter fun x => x.1 ≠ o.id) : Promoted o dest s s' where
  front := h.front
  above j hj := by
    rw [h.above j hj, segment_setSegment, if_neg (Fin.ne_of_gt (hd.trans hj))]
  order := by
    have horder : ((s.setSegment level c).order.filter fun x => x.1 ≠ o.id) =
        s.order.filter fun x => x.1 ≠ o.id := by
      apply order_filter_congr
      intro j
      rw [segment_setSegment]
      split
      next e => rw [hc, e]
      next => rfl
    rw [← horder]
    exact h.order
  promotions := h.promotions

theorem promoted_of_slides {counters : SegmentedCounters}
    (h : Slides (dest.val + 1) [(o.id, o.size)] s s') (hgone : ∀ x ∈ s.order, x.1 ≠ o.id)
    (hfront : (s'.segment dest).keys.head? = some (o.id, o.size))
    (hcounters : s'.counters.recordPromotion = .ok counters) :
    Promoted o dest s { s' with counters } := by
  obtain ⟨n, hn, rfl⟩ := SegmentedCounters.recordPromotion_eq_ok hcounters
  have hne : s'.orderBelow (dest.val + 1) ≠ [] := by
    rw [orderBelow_succ]
    intro hnil
    rw [List.append_eq_nil_iff] at hnil
    rw [hnil.1] at hfront
    cases hfront
  obtain ⟨cut, hcut, hcount⟩ := h.order_eq hne hgone
  have hself : (s.order.filter fun x => x.1 ≠ o.id) = s.order :=
    List.filter_eq_self.mpr fun x hx => decide_eq_true (hgone x hx)
  refine ⟨hfront, fun j hj => h.above j hj, ⟨cut, ?_, hcount⟩, ?_⟩
  · rw [hself]
    exact hcut
  · change n.toNat = _
    rw [hn, h.promotions]

theorem notMem_order (h : Calm st s) {id : ObjectId} (hid : id ∉ held st s) :
    ∀ x ∈ s.order, x.1 ≠ id := by
  intro x hx e
  obtain ⟨i, hi⟩ := mem_order_iff.mp hx
  exact hid (mem_held_iff.mpr ⟨i, e ▸ mem_held_of_mem_keys h hi⟩)

theorem promote_of_calm (h : Calm st s) (ho : o ∈ (s.segment level).objects) (hid : o.id = r.id)
    (hy : (promote r level dest).Yields s st () s' st') (hd : level < dest) :
    Promoted o dest s s' := by
  have hstock := Lru.mem_stock_of_mem (coherent_segment h level).toLinked (tidy_segment h level) ho
  have hothers : r.id ∉ Lru.held st (others s level) :=
    hid ▸ notMem_others h.toSound (mem_held_of_stock hstock)
  unfold promote at hy
  obtain ⟨removed, s₁, st₁, hremove, h₁⟩ := yields_bind_iff.mp hy
  obtain ⟨hshrinks, hgone, -⟩ := (ensures_removeAt h.toSound level hothers).apply hremove
  rw [← hid] at hremove hgone
  obtain ⟨rfl, c, rfl, hc⟩ := removeAt_of_calm h ho hremove
  have hcalm := h.shrinks hshrinks
  have hsmall : canAdmit s o.size = true := by
    refine h.small (o.id, o.size) ?_
    rw [stock_eq st s level]
    exact .inl hstock
  have hadmit : canAdmit (s.setSegment level c) o.size = true :=
    (hshrinks.canAdmit_eq o.size).trans hsmall
  obtain ⟨_, s₂, st₂, hroom, h₂⟩ := yields_bind_iff.mp h₁
  obtain ⟨hslides, hok⟩ := slides_makeRoom hcalm hadmit hroom
  have hshrinks₂ := (ensures_makeRoom hcalm.toSound dest o.size).apply hroom
  rw [yields_get_bind_iff] at h₂
  obtain ⟨room, s₃, st₃, hchecked, h₃⟩ := yields_bind_iff.mp h₂
  obtain ⟨hroom₃, rfl, rfl⟩ := yields_checked_iff.mp hchecked
  obtain rfl : room = true := Except.ok.inj (hroom₃.symm.trans hok)
  rw [if_pos rfl] at h₃
  obtain ⟨_, s₄, st₄, hinsert, h₄⟩ := yields_bind_iff.mp h₃
  obtain ⟨res, hinserted⟩ := yields_discard_iff.mp hinsert
  have hid₃ : o.id ∉ held st₃ s₃ := fun hm => hgone (hshrinks₂.held_subset hm)
  obtain ⟨d, rfl, hd₃⟩ := insertAt_of_calm (r := Request.readmitting o r.time)
    (hcalm.shrinks hshrinks₂) hid₃ hok hinserted
  obtain ⟨_, s₅, st₅, hrecord, h₅⟩ := yields_bind_iff.mp h₄
  obtain ⟨counters, hcounters, rfl, -⟩ := yields_record_iff.mp hrecord
  obtain ⟨rfl, -⟩ := yields_emit_iff.mp h₅
  have hall := hslides.trans (slides_enter hd₃)
  have hfront : ((s₃.setSegment dest d).segment dest).keys.head? = some (o.id, o.size) := by
    rw [segment_setSegment, if_pos rfl, hd₃]
    rfl
  have hpromoted := promoted_of_slides hall (notMem_order hcalm hgone) hfront hcounters
  refine hpromoted.of_setSegment hd ?_
  rw [hc, List.filter_filter]
  simp only [Bool.and_self]

/-! ## Hits -/

/-- A lookup that hits has passed by the colder segments without a trace. -/
theorem probe_eq_hit {l : List (Level top)} (h : Sound st s)
    (hy : (probe r true l).Yields s st (some (i, .hit)) s' st') :
    ∃ o c, (s.segment i).find? st r.id = some o ∧ Lru.Touches o st (s.segment i) c ∧
      (promoteFrom r i).Yields (s.setSegment i c) st () s' st' := by
  induction l with
  | nil =>
    have hnone := (yields_pure_iff.mp hy).1
    cases hnone
  | cons level rest ih =>
    unfold probe at hy
    obtain ⟨found, s₁, st₁, hcheck, h₁⟩ := yields_bind_iff.mp hy
    obtain ⟨c, hc, rfl⟩ := yields_onSegment_iff.mp hcheck
    have hchecked := (Lru.ensures_check (Lru.sound_iff.mp (sound_segment h level)) r true).apply hc
    cases hchecked with
    | miss _ =>
      rw [setSegment_segment] at h₁
      exact ih h₁
    | expired _ _ _ =>
      have hexpired := (yields_pure_iff.mp h₁).1
      cases hexpired
    | hit hfound _ htouched =>
      dsimp only at h₁
      rw [if_pos rfl] at h₁
      obtain ⟨_, s₂, st₂, hpromote, h₂⟩ := yields_bind_iff.mp h₁
      obtain ⟨hi, rfl, rfl⟩ := yields_pure_iff.mp h₂
      obtain rfl := (Prod.mk.inj (Option.some.inj hi)).1
      exact ⟨_, c, hfound, htouched, hpromote⟩

/-- A request that hits has hit in some segment; what is counted for it are no
evictions and no promotions. -/
theorem probed_of_serve (hy : (serve r).Yields s st .hit s' st') :
    ∃ i s₁ counters, (probe r true (levels top)).Yields s st (some (i, .hit)) s₁ st' ∧
      s' = { s₁ with counters } ∧ counters.core.evictions = s₁.counters.core.evictions ∧
      counters.promotions = s₁.counters.promotions := by
  rw [serve_eq] at hy
  obtain ⟨found, s₁, st₁, hprobe, h₁⟩ := yields_bind_iff.mp hy
  obtain ⟨_, s₂, st₂, hrecord, h₂⟩ := yields_bind_iff.mp h₁
  obtain ⟨counters, hcounters, rfl, rfl⟩ := yields_record_iff.mp hrecord
  have hhit : outcome found = .hit := (answer_admission h₂).symm
  unfold admission at h₂
  rw [hhit, if_neg (not_not_intro rfl)] at h₂
  obtain ⟨-, rfl, rfl⟩ := yields_pure_iff.mp h₂
  match found with
  | none => cases hhit
  | some (i, lookup) =>
    obtain rfl : lookup = .hit := hhit
    obtain ⟨core, segmentHits, hcore, rfl⟩ := SegmentedCounters.recordSegmentHit_eq_ok hcounters
    exact ⟨i, s₁, _, hprobe, rfl, Counters.evictions_recordHit hcore, rfl⟩

theorem probed_of_check (hy : (check r true).Yields s st .hit s' st') :
    ∃ i, (probe r true (levels top)).Yields s st (some (i, .hit)) s' st' := by
  rw [check_eq, yields_map_iff] at hy
  obtain ⟨found, hprobe, hhit⟩ := hy
  match found with
  | none => cases hhit
  | some (i, lookup) =>
    obtain rfl : lookup = .hit := hhit.symm
    exact ⟨i, hprobe⟩

theorem probed_of_hit {op : Operation} (hop : op = .serve r ∨ op = .check r true)
    (hy : (perform op).Yields s st (.found .hit) s' st') :
    ∃ i s₁ counters, (probe r true (levels top)).Yields s st (some (i, .hit)) s₁ st' ∧
      s' = { s₁ with counters } ∧ counters.core.evictions = s₁.counters.core.evictions ∧
      counters.promotions = s₁.counters.promotions := by
  rcases hop with rfl | rfl
  · obtain ⟨found, hserve, hfound⟩ := yields_map_iff.mp hy
    obtain rfl := Response.found.inj hfound
    exact probed_of_serve hserve
  · obtain ⟨found, hcheck, hfound⟩ := yields_map_iff.mp hy
    obtain rfl := Response.found.inj hfound
    obtain ⟨i, hprobe⟩ := probed_of_check hcheck
    exact ⟨i, s', s'.counters, hprobe, rfl, rfl, rfl⟩

theorem promoted_of_hit {op : Operation} (h : Calm st s)
    (hop : op = .serve r ∨ op = .check r true)
    (hy : (perform op).Yields s st (.found .hit) s' st') (hi : s.segmentOf? st r.id = some i)
    (ht : i.val + 1 < top + 1) :
    ∃ o, (s.segment i).find? st r.id = some o ∧ Promoted o ⟨i.val + 1, ht⟩ s s' := by
  obtain ⟨j, s₁, counters, hprobe, rfl, hev, hpr⟩ := probed_of_hit hop hy
  obtain ⟨o, c, hfound, htouched, hpromote⟩ := probe_eq_hit h.toSound hprobe
  have hcoh := coherent_segment h j
  have htidy := tidy_segment h j
  obtain ⟨ho, hid⟩ := (Lru.find?_eq_some_iff_of_tidy hcoh.toLinked htidy).mp hfound
  have hheld : r.id ∈ held st (s.segment j) := hid ▸ Lru.mem_held_of_mem hcoh.toLinked htidy ho
  obtain rfl : j = i := by
    have hj := (segmentOf?_eq_some_iff h.toSound).mpr hheld
    exact Option.some.inj (hj.symm.trans hi)
  refine ⟨o, hfound, ?_⟩
  have hcalm := h.shrinks (shrinks_setSegment h.toSound htouched.shrinks)
  have ho' : o ∈ ((s.setSegment j c).segment j).objects := by
    rw [segment_setSegment, if_pos rfl]
    exact htouched.mem_objects_iff.mpr ho
  unfold promoteFrom at hpromote
  rw [dif_pos ht] at hpromote
  have hlt : j < ⟨j.val + 1, ht⟩ := Nat.lt_succ_self j.val
  have hmoved := (promote_of_calm hcalm ho' hid hpromote hlt).of_setSegment hlt
    (Lru.Touches.keys_filter hcoh.toLinked htidy htouched)
  obtain ⟨cut, hcut, hcount⟩ := hmoved.order
  refine ⟨hmoved.front, hmoved.above, ⟨cut, hcut, ?_⟩, ?_⟩
  · change counters.core.evictions.toNat = _
    rw [hev, hcount]
  · change counters.promotions.toNat = _
    rw [hpr, hmoved.promotions]

end SegmentedCache.Segmented
