import SegmentedCache.Proofs.Segmented.Descent
import SegmentedCache.Proofs.Segmented.Tally

/-!
# Segmented policies of conserving segments are conserving

A promotion takes the object out of its segment, and then there is room for it
one segment up, or room can be made. An insertion needs no room: the segment it
leads to makes its own. So what a lookup hits, and what a request may admit, is
held afterwards.

A segmented cache has no victim if its coldest segment has none. The room that is
spare there is spare in the whole, since no other segment holds more than its own
capacity.
-/
namespace SegmentedCache.Segmented
open SegmentedCache.Action Policy
variable {C : Type} {top : Nat} [Policy C] [Lawful C] {st st' : Store} {s s' : Segmented C top}
variable {i level dest : Level top} {r : Request} {size : Bytes} {id : ObjectId}

/-- Reports and counters are not what finds an object. -/
theorem held_report (st : Store) (s : Segmented C top) (es : Array Event)
    (counters : SegmentedCounters) :
    held { st with events := es } { s with counters } = held st s := rfl

/-- In a sound cache no two segments hold the same id. -/
theorem eq_of_mem_held (h : Sound st s) {j : Level top} (hi : id ∈ held st (s.segment i))
    (hj : id ∈ held st (s.segment j)) : i = j :=
  Option.some.inj (((segmentOf?_eq_some_iff h).mpr hi).symm.trans ((segmentOf?_eq_some_iff h).mpr hj))

variable [Conserving C]

theorem conserves_removeAt {removed : Option CacheObject} (h : Steady st s)
    (hy : (onSegment i (Policy.remove id : Action C _)).Yields s st removed s' st') :
    Conserves st s st' s' ∧ (id ∈ held st (s.segment i) → removed ≠ none) := by
  obtain ⟨c, hc, rfl⟩ := yields_onSegment_iff.mp hy
  obtain ⟨k, hsome⟩ := Conserving.conserves_remove (steady_segment h i) hc
  exact ⟨conserves_setSegment k, hsome⟩

/-! ## Promotion -/

section
variable [Policy.Counted C]

theorem conserves_promote (h : Steady st s) (hid : r.id ∈ held st (s.segment level))
    (hy : (promote r level dest).Yields s st () s' st') :
    Conserves st s st' s' ∧ r.id ∈ held st' s' := by
  unfold promote at hy
  obtain ⟨removed, s₁, st₁, hremove, h₁⟩ := yields_bind_iff.mp hy
  obtain ⟨hshrinks, hgone, ho⟩ :=
    (ensures_removeAt h.toSound level (notMem_others h.toSound hid)).apply hremove
  obtain ⟨k₁, hsome⟩ := conserves_removeAt h hremove
  obtain ⟨o, rfl⟩ := Option.ne_none_iff_exists'.mp (hsome hid)
  obtain ⟨hoid, hstock⟩ := ho o rfl
  have hsteady := h.shrinks hshrinks
  have ha := h.small (o.id, o.size) hstock
  rw [← hshrinks.canAdmit_eq] at ha
  obtain ⟨_, s₂, st₂, hroom, h₂⟩ := yields_bind_iff.mp h₁
  obtain ⟨k₂, hok⟩ := conserves_makeRoom hsteady ha hroom
  have hshrinks₂ := (ensures_makeRoom hsteady.toSound dest o.size).apply hroom
  rw [yields_get_bind_iff] at h₂
  obtain ⟨room, s₃, st₃, hchecked, h₃⟩ := yields_bind_iff.mp h₂
  obtain ⟨hroom₃, rfl, rfl⟩ := yields_checked_iff.mp hchecked
  obtain rfl : room = true := Except.ok.inj (hroom₃.symm.trans hok)
  rw [if_pos rfl] at h₃
  obtain ⟨_, s₄, st₄, hdiscard, h₄⟩ := yields_bind_iff.mp h₃
  obtain ⟨res, hinsert⟩ := yields_discard_iff.mp hdiscard
  have hgone' : o.id ∉ held st₃ s₃ := fun hm => hgone (hoid ▸ hshrinks₂.held_subset hm)
  have ha' : canAdmit s₃ o.size := by rwa [hshrinks₂.canAdmit_eq]
  obtain ⟨k₃, hin⟩ := conserves_insertAt (r := Request.readmitting o r.time)
    (hsteady.shrinks hshrinks₂) hgone' ha' hinsert
  obtain ⟨_, s₅, st₅, hrecord, h₅⟩ := yields_bind_iff.mp h₄
  have k₄ := conserves_record SegmentedCounters.sparing_recordPromotion hrecord
  obtain ⟨counters, -, rfl, rfl⟩ := yields_record_iff.mp hrecord
  obtain ⟨rfl, rfl⟩ := yields_emit_iff.mp h₅
  refine ⟨((k₁.trans k₂).trans (k₃.trans k₄)).trans (Conserves.report _ _ rfl), ?_⟩
  rw [held_report, ← hoid]
  exact hin

theorem conserves_promoteFrom (h : Steady st s) (hid : r.id ∈ held st (s.segment level))
    (hy : (promoteFrom r level).Yields s st () s' st') :
    Conserves st s st' s' ∧ r.id ∈ held st' s' := by
  unfold promoteFrom at hy
  split at hy
  · exact conserves_promote h hid hy
  · obtain ⟨-, rfl, rfl⟩ := yields_pure_iff.mp hy
    exact ⟨Conserves.refl _ _, mem_held_iff.mpr ⟨level, hid⟩⟩

/-! ## Lookups -/

/-- A lookup in the levels that may hold the id. -/
theorem conserves_probe {update : Bool} {l : List (Level top)}
    {found : Option (Level top × Lookup)} (h : Steady st s)
    (hl : ∀ i, r.id ∈ held st (s.segment i) → i ∈ l)
    (hy : (probe r update l).Yields s st found s' st') :
    Conserves st s st' s' ∧ (outcome found = .miss ↔ r.id ∉ held st s) ∧
      (update = true → (outcome found = .hit ↔ r.id ∈ held st' s')) := by
  induction l generalizing s st with
  | nil =>
    obtain ⟨rfl, rfl, rfl⟩ := yields_pure_iff.mp hy
    have hnot : r.id ∉ held st' s' := by
      intro hid
      obtain ⟨i, hi⟩ := mem_held_iff.mp hid
      exact List.not_mem_nil (hl i hi)
    exact ⟨Conserves.refl _ _, by simp [outcome, hnot], by simp [outcome, hnot]⟩
  | cons level rest ih =>
    unfold probe at hy
    obtain ⟨found', s₁, st₁, hcheck, h₁⟩ := yields_bind_iff.mp hy
    obtain ⟨c, hc, rfl⟩ := yields_onSegment_iff.mp hcheck
    obtain ⟨k, hmiss, hhit⟩ := Conserving.conserves_check (steady_segment h level) hc
    have k₁ := conserves_setSegment (s := s) k
    have hshrinks := ((Lawful.ensures_check (sound_segment h.toSound level) r update).apply hc).1
    have hsteady := h.shrinks (shrinks_setSegment h.toSound hshrinks)
    have hself : held st₁ ((s.setSegment level c).segment level) = held st₁ c := by
      rw [segment_setSegment, if_pos rfl]
    have hothers := fun (j : Level top) (hj : j ≠ level) =>
      held_segment_of_ne h.toSound hshrinks.confined hj
    cases found' with
    | miss =>
      have hnot := hmiss.mp rfl
      have hnot₁ : r.id ∉ held st₁ c := fun hm => hnot (hshrinks.held_subset hm)
      have hsame : ∀ j, r.id ∈ held st₁ ((s.setSegment level c).segment j) ↔
          r.id ∈ held st (s.segment j) := by
        intro j
        by_cases hj : j = level
        · rw [hj, hself]
          exact iff_of_false hnot₁ hnot
        · rw [hothers j hj]
      have hrest : ∀ j, r.id ∈ held st₁ ((s.setSegment level c).segment j) → j ∈ rest := by
        intro j hj
        rw [hsame] at hj
        exact (List.mem_cons.mp (hl j hj)).resolve_left fun e => hnot (e ▸ hj)
      obtain ⟨k₂, hmiss₂, hhit₂⟩ := ih hsteady hrest h₁
      refine ⟨k₁.trans k₂, hmiss₂.trans (not_congr ?_), hhit₂⟩
      rw [mem_held_iff, mem_held_iff]
      exact exists_congr hsame
    | expired =>
      obtain ⟨rfl, rfl, rfl⟩ := yields_pure_iff.mp h₁
      have hin : r.id ∈ held st (s.segment level) := by simpa using hmiss
      refine ⟨k₁, by simp [outcome, mem_held_iff.mpr ⟨level, hin⟩], fun hu => ?_⟩
      have hnot : r.id ∉ held st' (s.setSegment level c) := by
        intro hid
        obtain ⟨j, hj⟩ := mem_held_iff.mp hid
        by_cases e : j = level
        · rw [e, hself, ← hhit hu] at hj
          cases hj
        · rw [hothers j e] at hj
          exact e (eq_of_mem_held h.toSound hj hin)
      simp [outcome, hnot]
    | hit =>
      have hin : r.id ∈ held st (s.segment level) := by simpa using hmiss
      have hheld := mem_held_iff.mpr ⟨level, hin⟩
      cases update with
      | false =>
        obtain ⟨rfl, rfl, rfl⟩ := yields_pure_iff.mp h₁
        exact ⟨k₁, by simp [outcome, hheld], by simp⟩
      | true =>
        obtain ⟨_, s₂, st₂, hpromote, h₂⟩ := yields_bind_iff.mp h₁
        obtain ⟨rfl, rfl, rfl⟩ := yields_pure_iff.mp h₂
        have hin₁ := (hhit rfl).mp rfl
        rw [← hself] at hin₁
        obtain ⟨k₂, hheld₂⟩ := conserves_promoteFrom hsteady hin₁ hpromote
        exact ⟨k₁.trans k₂, by simp [outcome, hheld], by simp [outcome, hheld₂]⟩

theorem conserves_check {update : Bool} {found : Lookup} (h : Steady st s)
    (hy : (check r update).Yields s st found s' st') :
    Conserves st s st' s' ∧ (found = .miss ↔ r.id ∉ held st s) ∧
      (update = true → (found = .hit ↔ r.id ∈ held st' s')) := by
  rw [check_eq, yields_map_iff] at hy
  obtain ⟨found', hprobe, rfl⟩ := hy
  exact conserves_probe h (fun i _ => List.mem_finRange i) hprobe

end

/-! ## Evictions and insertions -/

theorem conserves_evict {victim : Option CacheObject} (h : Steady st s)
    (hy : (evict : Action (Segmented C top) _).Yields s st victim s' st') :
    Conserves st s st' s' ∧ victim = Policy.victim? (s.segment 0) := by
  obtain ⟨s₁, hevict, hafter⟩ := evict_cases hy
  obtain ⟨k, hv⟩ := conserves_evictAt h hevict
  rcases hafter with ⟨-, rfl⟩ | ⟨v, counters, -, hcounters, rfl⟩
  · exact ⟨k, hv⟩
  · exact ⟨k.trans (conserves_counters (SegmentedCounters.sparing_onCore _) hcounters), hv⟩

theorem conserves_evictUntilRoom {fuel : Nat} (h : Steady st s)
    (hy : (evictUntilRoom size fuel).Yields s st () s' st') : Conserves st s st' s' := by
  induction fuel generalizing s st with
  | zero =>
    obtain ⟨-, rfl, rfl⟩ := yields_pure_iff.mp hy
    exact Conserves.refl _ _
  | succ fuel ih =>
    rcases evictUntilRoom_cases hy with
      ⟨-, rfl, rfl⟩ | ⟨-, hevict | ⟨v, s₁, st₁, hevict, hrest⟩⟩
    · exact Conserves.refl _ _
    · exact (conserves_evict h hevict).1
    · have hs := h.shrinks ((ensures_evict h.toSound).apply hevict).1
      exact (conserves_evict h hevict).1.trans (ih hs hrest)

theorem conserves_levelFor (h : Steady st s)
    (hy : (levelFor size).Yields s st level s' st') : Conserves st s st' s' := by
  rcases levelFor_cases hy with ⟨-, rfl, rfl⟩ | ⟨-, hevict⟩
  · exact Conserves.refl _ _
  · exact conserves_evictUntilRoom h hevict

/-- What the cache admits is not refused by its coldest segment. -/
theorem charge_le_coldest (h : Steady st s) (ha : canAdmit s size) :
    s.charge size ≤ Policy.capacity (s.segment 0) := by
  have h₀ := steady_segment h 0
  refine UInt64.le_trans (of_decide_eq_true ha) (UInt64.le_trans (h.roomy 0).2.1 ?_)
  exact Conserving.limit_le h₀.fits h₀.roomy

theorem conserves_insert {o : Option CacheObject} (h : Steady st s) (hid : r.id ∉ held st s)
    (ha : canAdmit s r.size) (hy : (insert r).Yields s st o s' st') :
    Conserves st s st' s' ∧ r.id ∈ held st' s' := by
  unfold insert at hy
  rw [yields_get_bind_iff] at hy
  dsimp only at hy
  rw [if_neg (UInt64.not_lt.mpr (charge_le_coldest h ha))] at hy
  obtain ⟨_, s₁, st₁, hdisplace, h₁⟩ := yields_bind_iff.mp hy
  -- No segment holds the id, so there is nothing to displace.
  unfold displace at hdisplace
  rw [yields_get_bind_iff, yields_getThe_bind_iff, segmentOf?_eq_none_iff.mpr hid] at hdisplace
  obtain ⟨-, rfl, rfl⟩ := yields_pure_iff.mp hdisplace
  obtain ⟨level, s₂, st₂, hlevel, h₂⟩ := yields_bind_iff.mp h₁
  have k₁ := conserves_levelFor h hlevel
  have hshrinks := (ensures_levelFor h.toSound r.size).apply hlevel
  have hid' : r.id ∉ held st₂ s₂ := fun hm => hid (hshrinks.held_subset hm)
  have ha' : canAdmit s₂ r.size := by rwa [hshrinks.canAdmit_eq]
  obtain ⟨res, s₃, st₃, hinsert, h₃⟩ := yields_bind_iff.mp h₂
  obtain ⟨k₂, hin⟩ := conserves_insertAt (h.shrinks hshrinks) hid' ha' hinsert
  cases res with
  | none =>
    obtain ⟨-, rfl, rfl⟩ := yields_pure_iff.mp h₃
    exact ⟨k₁.trans k₂, hin⟩
  | some o =>
    obtain ⟨_, s₄, st₄, hrecord, h₄⟩ := yields_bind_iff.mp h₃
    have k₃ := conserves_record (SegmentedCounters.sparing_onCore _) hrecord
    obtain ⟨counters, -, rfl, rfl⟩ := yields_record_iff.mp hrecord
    obtain ⟨-, rfl, rfl⟩ := yields_pure_iff.mp h₄
    exact ⟨(k₁.trans k₂).trans k₃, hin⟩

theorem conserves_remove {removed : Option CacheObject} (h : Steady st s)
    (hy : (remove id).Yields s st removed s' st') :
    Conserves st s st' s' ∧ (id ∈ held st s → removed ≠ none) := by
  unfold remove at hy
  rw [yields_get_bind_iff, yields_getThe_bind_iff] at hy
  cases hf : s.segmentOf? st id with
  | none =>
    rw [hf] at hy
    obtain ⟨_, s₁, st₁, hemit, h₁⟩ := yields_bind_iff.mp hy
    obtain ⟨rfl, rfl⟩ := yields_emit_iff.mp hemit
    obtain ⟨-, rfl, rfl⟩ := yields_pure_iff.mp h₁
    exact ⟨Conserves.report st _ rfl, fun hid => absurd hid (segmentOf?_eq_none_iff.mp hf)⟩
  | some level =>
    rw [hf] at hy
    obtain ⟨removed', s₁, st₁, hremove, h₁⟩ := yields_bind_iff.mp hy
    obtain ⟨k, hsome⟩ := conserves_removeAt h hremove
    obtain ⟨_, s₂, st₂, hrecord, h₂⟩ := yields_bind_iff.mp h₁
    obtain ⟨rfl, rfl, rfl⟩ := yields_pure_iff.mp h₂
    exact ⟨k.trans (conserves_record SegmentedCounters.sparing_recordRemoval hrecord),
      fun _ => hsome (mem_held_of_segmentOf? hf)⟩

/-! ## Requests -/

theorem sparing_tally (found : Option (Level top × Lookup)) (size : Bytes) :
    SegmentedCounters.Sparing (tally found size) := by
  intro k k' hk
  unfold tally at hk
  split at hk
  · exact SegmentedCounters.sparing_recordSegmentHit _ _ hk
  · exact SegmentedCounters.sparing_onCore _ hk
  · exact SegmentedCounters.sparing_onCore _ hk

theorem conserves_admission {answer found : Lookup} (h : Steady st s)
    (hanswer : answer = .hit ↔ r.id ∈ held st s)
    (hy : (admission r answer).Yields s st found s' st') :
    Conserves st s st' s' ∧ (r.id ∈ held st' s' ↔ found = .hit ∨ canAdmit s r.size) := by
  unfold admission at hy
  split at hy
  next hmiss =>
    rw [yields_get_bind_iff] at hy
    have hid : r.id ∉ held st s := fun hid => hmiss (hanswer.mpr hid)
    split at hy
    next hle =>
      have ha : canAdmit s r.size := decide_eq_true hle
      obtain ⟨_, s₁, st₁, hdiscard, h₁⟩ := yields_bind_iff.mp hy
      obtain ⟨o, hinsert⟩ := yields_discard_iff.mp hdiscard
      obtain ⟨rfl, rfl, rfl⟩ := yields_pure_iff.mp h₁
      obtain ⟨k, hin⟩ := conserves_insert h hid ha hinsert
      exact ⟨k, iff_of_true hin (.inr ha)⟩
    next hgt =>
      have ha : canAdmit s r.size = false := decide_eq_false hgt
      obtain ⟨_, s₁, st₁, hemit, h₁⟩ := yields_bind_iff.mp hy
      obtain ⟨rfl, rfl⟩ := yields_emit_iff.mp hemit
      obtain ⟨rfl, rfl, rfl⟩ := yields_pure_iff.mp h₁
      refine ⟨Conserves.report st _ rfl, iff_of_false hid ?_⟩
      simp [hmiss, ha]
  next hhit =>
    have hhit := not_ne_iff.mp hhit
    obtain ⟨rfl, rfl, rfl⟩ := yields_pure_iff.mp hy
    exact ⟨Conserves.refl _ _, iff_of_true (hanswer.mp hhit) (.inl hhit)⟩

theorem conserves_serve [Policy.Counted C] {found : Lookup} (h : Steady st s)
    (hy : (serve r).Yields s st found s' st') :
    Conserves st s st' s' ∧ (r.id ∈ held st' s' ↔ found = .hit ∨ canAdmit s r.size) := by
  rw [serve_eq] at hy
  obtain ⟨probed, s₁, st₁, hprobe, h₁⟩ := yields_bind_iff.mp hy
  obtain ⟨k₁, -, hhit⟩ := conserves_probe h (fun i _ => List.mem_finRange i) hprobe
  have hshrinks := ((ensures_probe h.toSound r true _).apply hprobe).1
  obtain ⟨_, s₂, st₂, hrecord, h₂⟩ := yields_bind_iff.mp h₁
  have k₂ := conserves_record (sparing_tally probed r.size) hrecord
  -- What is counted changes neither the leaves nor what they hold.
  obtain ⟨counters, -, rfl, rfl⟩ := yields_record_iff.mp hrecord
  have hall := hshrinks.trans (shrinks_report hshrinks.toSound st₂.events counters)
  obtain ⟨k₃, hheld⟩ := conserves_admission (h.shrinks hall) (hhit rfl) h₂
  rw [hall.canAdmit_eq] at hheld
  exact ⟨(k₁.trans k₂).trans k₃, hheld⟩

/-! ## Spare room -/

omit [Conserving C] in
theorem sum_capacity_le (h : Fits s) :
    (Policy.capacity (s.segment 0)).toNat +
      (s.segments.toList.tail.map fun c => (Policy.capacity c).toNat).sum ≤
        s.params.capacity.toNat := by
  have hsum := h.1
  rwa [toList_eq_cons, List.map_cons, List.sum_cons] at hsum

theorem limit_le (hf : Fits s) (hr : Roomy s) : s.limit ≤ s.params.capacity := by
  have hcold := Conserving.limit_le (hf.2 _ (mem_toList_iff.mpr ⟨0, rfl⟩)) (hr 0).2.2
  have hsum := sum_capacity_le hf
  refine UInt64.le_trans (hr 0).2.1 (UInt64.le_trans hcold (UInt64.le_iff_toNat_le.mpr ?_))
  omega

/-- Room that is spare in the coldest segment is spare in the whole. -/
theorem spare (h : Steady st s) (hv : Policy.victim? (s.segment 0) = none) :
    ∃ bytes, s.occupied = .ok bytes ∧ bytes.toNat + s.limit.toNat ≤ s.params.capacity.toNat := by
  obtain ⟨cold, hcold, hspare⟩ := Conserving.spare (steady_segment h 0) hv
  have hsum := sum_capacity_le h.fits
  have hlimit := UInt64.le_iff_toNat_le.mp (h.roomy 0).2.1
  have hsize := s.params.capacity.toNat_lt_size
  obtain ⟨bytes, hbytes, hle⟩ := occupiedFrom_le (l := s.segments.toList.tail) cold
    (fun c hc => by
      obtain ⟨i, rfl⟩ := mem_toList_iff.mp (List.mem_of_mem_tail hc)
      exact Lawful.occupied_le (steady_segment h i).charged (steady_segment h i).fits)
    (by omega)
  have hadd : Word.add 0 cold = .ok cold := Word.add_eq_ok_iff.mpr (Nat.zero_add _)
  refine ⟨bytes, ?_, by omega⟩
  unfold occupied
  rw [toList_eq_cons, List.foldlM_cons, hcold]
  change (Word.add 0 cold >>= _) = _
  rw [hadd]
  exact hbytes

/-- Where nothing is held, the coldest segment has no victim. -/
theorem victim?_of_count (h : Steady st s) (hc : s.count = 0) :
    Policy.victim? (s.segment 0) = none := by
  apply Conserving.victim?_eq_none (steady_segment h 0)
  have hcount := count_eq s 0
  omega

instance conserving [Policy.Counted C] : Conserving (Segmented C top) where
  victim?_eq_none := victim?_of_count
  limit_le := limit_le
  spare := spare
  conserves_check := conserves_check
  conserves_serve := conserves_serve
  conserves_insert := conserves_insert
  conserves_evict := conserves_evict
  conserves_remove := conserves_remove

end SegmentedCache.Segmented
