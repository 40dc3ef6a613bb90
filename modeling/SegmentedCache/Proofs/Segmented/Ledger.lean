import SegmentedCache.Proofs.Segmented.Credit
import SegmentedCache.Proofs.Segmented.Descent
import SegmentedCache.Proofs.Segmented.Placement
import SegmentedCache.Proofs.Segmented.Promotion
import SegmentedCache.Proofs.Segmented.Tally

/-!
# The ledger of a segmented cache

Every object that entered a segmented cache is in a segment or was counted on its way
out: as evicted, whether from the coldest segment or on a move, as removed, or as
expired by the segment that found it so. While an object is on the move it is in no
segment and not yet counted, so taking it out adds one to the surplus, and letting it
in again or giving it up takes that one off.

The credits that an operation needs are those in the load and a number that depends
on the height of the cache only.
-/
namespace SegmentedCache.Segmented
open SegmentedCache.Action Policy
variable {M : ℕ} {top : Nat} {st st' : Store} {s s' : Segmented Lru top}
variable {i level dest : Level top} {r : Request} {size : Bytes} {time : Time} {id : ObjectId}

/-- Whether there is room in a least-recently-used segment is always told. -/
theorem exists_hasRoomAt (s : Segmented Lru top) (i : Level top) (size : Bytes) :
    ∃ room, s.hasRoomAt i size = .ok room := ⟨_, Lru.hasRoom_eq (s.segment i) size⟩

theorem count_eq_sum (s : Segmented Lru top) :
    s.count = ∑ i : Level top, Policy.count (s.segment i) := by
  have hlist : s.segments.toList = List.ofFn s.segment := by
    refine List.ext_getElem (by simp) fun k hk hk' => ?_
    rw [List.getElem_ofFn]
    exact getElem_toList s ⟨k, by simpa using hk⟩ hk
  have hcounts : s.segments.toList.map Policy.count =
      List.ofFn fun i => Policy.count (s.segment i) := by
    rw [hlist]
    exact List.map_ofFn
  rw [← List.sum_ofFn, ← hcounts, List.sum_eq_foldr, List.foldr_map]
  rfl

/-- There is no surplus if every object that entered is accounted for. -/
theorem surplus_eq_zero_iff {s : Segmented Lru top} : s.surplus = 0 ↔
    s.counters.core.insertions.toNat = s.count + s.counters.core.evictions.toNat +
      s.counters.removals.toNat +
      ∑ i : Level top, (s.segment i).counters.expiredRemovals.toNat := by
  have hstanding : ∑ i : Level top, (s.segment i).standing =
      s.count + ∑ i : Level top, (s.segment i).counters.expiredRemovals.toNat := by
    rw [count_eq_sum, ← Finset.sum_add_distrib]
    rfl
  unfold surplus SegmentedCounters.net Counters.net
  rw [← Nat.cast_sum, hstanding]
  omega

theorem surplus_of_new {s : Segmented Lru top}
    (h : s.counters = .ofCapacity s.params.capacity (top + 1))
    (hs : ∀ i, (s.segment i).queue = .empty ∧
      (s.segment i).counters = .ofCapacity (s.segment i).params.capacity) : s.surplus = 0 := by
  have hstanding : ∀ i, (s.segment i).standing = 0 := by
    intro i
    unfold Lru.standing
    rw [(hs i).1, (hs i).2]
    rfl
  unfold surplus
  rw [h, Finset.sum_eq_zero fun i _ => congrArg Nat.cast (hstanding i)]
  rfl

/-! ## Cooling -/

/-- Chilling a level pays for itself and counts every object that it drops. -/
def ChillPays (M : ℕ) (time : Time) (level : Level top) : Prop :=
  ∀ {s : Segmented Lru top} {st : Store}, Modest M st s →
    Costs M 0 (chill time level) s st (fun _ => 0) fun _ => 0

theorem costs_coolingDrop :
    Costs M 1 (record SegmentedCounters.recordCoolingDrop : Action (Segmented Lru top) Unit) s st
      (fun _ => 0) fun _ => -1 :=
  costs_record SegmentedCounters.bears_recordCoolingDrop SegmentedCounters.shifts_recordCoolingDrop

theorem costs_eviction :
    Costs M 1 (recordCore Counters.recordEviction : Action (Segmented Lru top) Unit) s st
      (fun _ => 0) fun _ => -1 :=
  costs_record (SegmentedCounters.bears_onCore Counters.bears_recordEviction)
    (SegmentedCounters.shifts_onCore Counters.shifts_recordEviction)

/-- An object on its way is let in where there is room for it. -/
theorem costs_admitAt (h : Sound st s) (hid : r.id ∉ held st s) (hM : r.size.toNat ≤ M)
    (hroom : s.hasRoomAt dest r.size = .ok true) :
    Costs M (4 * dest.val + 3) (discard <| onSegment dest (Policy.insert r)) s st (fun _ => 0)
      fun _ => -1 := by
  refine costs_discard ((costs_insertAt h hid hM (.inl hroom)).mono le_rfl (fun _ => le_rfl)
    fun res s' _ hy => ?_)
  obtain ⟨o, rfl⟩ := Option.ne_none_iff_exists'.mp (accepts_of_hasRoomAt hroom hy)
  rfl

/-- An object on its way down is let in at the cost of its fall from there, or is
dropped and counted. -/
theorem ChillPays.reenter (hc : ChillPays M time dest) (h : Modest M st s) (hid : r.id ∉ held st s)
    (hM : r.size.toNat ≤ M) :
    Costs M (4 * dest.val + 3) (reenter time dest r) s st (fun _ => 0) fun _ => -1 := by
  induction hn : Policy.count (s.segment dest) using Nat.strong_induction_on generalizing s st with
  | _ n ih =>
    obtain ⟨room, hroom⟩ := s.exists_hasRoomAt dest r.size
    rw [reenter_eq]
    unfold reenterRound
    rw [costs_get_bind, costs_checked_bind hroom]
    cases room with
    | true =>
      rw [if_pos rfl]
      exact costs_admitAt h.toSound hid hM hroom
    | false =>
      rw [if_neg Bool.false_ne_true]
      split
      · rw [costs_emit_bind]
        exact costs_coolingDrop.mono (by omega) (fun _ => by omega) fun _ _ _ _ => rfl
      · refine (hc h).bind (4 * dest.val + 3) (by omega) fun cooled s₁ st₁ hy => ?_
        have hshrinks := shrinks_chill h.toSound hy
        have hcount := count_chill hy
        rw [Nat.zero_add]
        cases cooled with
        | true =>
          rw [if_pos rfl]
          rw [Bool.toNat_true] at hcount
          exact ih _ (by omega) (h.shrinks hshrinks) (fun hm => hid (hshrinks.held_subset hm)) rfl
        | false =>
          rw [if_neg Bool.false_ne_true]
          unfold abandon
          rw [costs_emit_bind]
          exact costs_coolingDrop.mono (by omega) (fun _ => by omega) fun _ _ _ _ => rfl

theorem chillPays_zero (time : Time) : ChillPays M time (0 : Level top) := by
  intro s st h
  rw [chill_zero]
  refine (costs_evictAt h.toSound 0).bind 0 le_rfl fun victim s₁ st₁ _ => ?_
  cases victim with
  | none => exact costs_pure (Nat.zero_le _) rfl
  | some v => exact costs_eviction.bind 0 (by simp) fun _ s₂ st₂ _ => costs_pure le_rfl rfl

theorem chillPays_succ {below : ℕ} (hb : below + 1 < top + 1)
    (ih : ChillPays M time (⟨below, Nat.lt_of_succ_lt hb⟩ : Level top)) :
    ChillPays M time (⟨below + 1, hb⟩ : Level top) := by
  intro s st h
  rw [chill_succ]
  refine (costs_evictAt h.toSound _).bind 0 le_rfl fun victim s₁ st₁ hy => ?_
  obtain ⟨hshrinks, hout⟩ := (ensures_evictAt h.toSound _).apply hy
  cases victim with
  | none => exact costs_pure (Nat.zero_le _) rfl
  | some v =>
    obtain ⟨hstock, hgone⟩ := hout v rfl
    have hweight : (some v).isSome.toNat * (4 * (below + 1) + 1) = 4 * below + 5 := by
      rw [Option.isSome_some, Bool.toNat_true]
      omega
    refine (costs_record SegmentedCounters.bears_recordDemotion
      SegmentedCounters.shifts_recordDemotion).bind (4 * below + 4) (by dsimp only; omega)
        fun _ s₂ st₂ hrecord => ?_
    obtain ⟨counters, -, rfl, rfl⟩ := yields_record_iff.mp hrecord
    have hreport := shrinks_report hshrinks.toSound (st₂.events.push (.demoted v.id below)) counters
    have hmodest := h.shrinks (hshrinks.trans hreport)
    have hid : (Request.readmitting v time).id ∉ held _ _ := fun hm => hgone (hreport.held_subset hm)
    rw [costs_emit_bind]
    exact (ih.reenter hmodest hid (h.small _ hstock)).bind 0 (by dsimp only; omega)
      fun _ s₃ st₃ _ => costs_pure (Nat.zero_le _) rfl

/-- By recursion on the level: the weight that the victim had above its new level pays
for the demotion and for what that sets off below. -/
theorem chillPays (time : Time) (level : Level top) : ChillPays M time level := by
  obtain ⟨i, hi⟩ := level
  induction i with
  | zero => exact chillPays_zero time
  | succ below ih => exact chillPays_succ hi (ih _)

theorem costs_cool (h : Modest M st s) :
    Costs M 0 (cool time dest) s st (fun _ => 0) fun _ => 0 := by
  rw [cool_eq]
  exact costs_discard (chillPays time dest h)

theorem costs_makeRoomWithin (fuel : ℕ) (h : Modest M st s) :
    Costs M 0 (makeRoomWithin time dest size fuel) s st (fun _ => 0) fun _ => 0 := by
  induction fuel generalizing s st with
  | zero => exact costs_pure le_rfl rfl
  | succ fuel ih =>
    obtain ⟨room, hroom⟩ := s.exists_hasRoomAt dest size
    unfold makeRoomWithin
    rw [costs_get_bind, costs_checked_bind hroom]
    split
    · exact costs_pure le_rfl rfl
    · dsimp only
      split
      · exact costs_pure le_rfl rfl
      · refine (costs_cool h).bind 0 le_rfl fun _ s₁ st₁ hy => ?_
        rw [costs_get_bind]
        split
        · exact costs_pure le_rfl rfl
        · exact ih (h.shrinks ((ensures_cool h.toSound dest).apply hy))

theorem costs_makeRoom (h : Modest M st s) :
    Costs M 0 (makeRoom time dest size) s st (fun _ => 0) fun _ => 0 := by
  unfold makeRoom
  rw [costs_get_bind]
  exact costs_makeRoomWithin _ h

/-! ## Promotion and lookups -/

/-- The credits freed above pay for letting the object in one level up, but for
seven. -/
theorem costs_promote (h : Modest M st s) (hid : r.id ∉ Lru.held st (others s level))
    (hdest : dest.val = level.val + 1) :
    Costs M 7 (promote r level dest) s st (fun _ => 0) fun _ => 0 := by
  unfold promote
  refine (costs_removeAt h.toSound level r.id).bind 7 le_rfl fun removed s₁ st₁ hy => ?_
  obtain ⟨hshrinks, hgone, ho⟩ := (ensures_removeAt h.toSound level hid).apply hy
  cases removed with
  | none => exact costs_pure (Nat.zero_le _) rfl
  | some o =>
    obtain ⟨hoid, hstock⟩ := ho o rfl
    have hweight : (some o).isSome.toNat * (4 * level.val + 1) + 7 = 4 * dest.val + 4 := by
      rw [Option.isSome_some, Bool.toNat_true]
      omega
    have hmodest := h.shrinks hshrinks
    dsimp only
    rw [hweight]
    refine (costs_makeRoom hmodest).bind (4 * dest.val + 4) (by omega) fun _ s₂ st₂ hroom => ?_
    have hshrinks₂ := (ensures_makeRoom hmodest.toSound dest o.size).apply hroom
    obtain ⟨room, hok⟩ := s₂.exists_hasRoomAt dest (Request.readmitting o r.time).size
    rw [costs_get_bind, costs_checked_bind hok, Nat.zero_add]
    cases room with
    | true =>
      have hnot : (Request.readmitting o r.time).id ∉ held st₂ s₂ := by
        change o.id ∉ _
        rw [hoid]
        exact fun hm => hgone (hshrinks₂.held_subset hm)
      rw [if_pos rfl]
      refine (costs_admitAt hshrinks₂.toSound hnot (h.small _ hstock) hok).bind 1 le_rfl
        fun _ s₃ st₃ _ => ?_
      refine (costs_record SegmentedCounters.bears_recordPromotion
        SegmentedCounters.shifts_recordPromotion).bind 0 le_rfl fun _ s₄ st₄ _ => ?_
      exact costs_emit le_rfl rfl
    | false =>
      rw [if_neg Bool.false_ne_true, costs_emit_bind]
      exact costs_eviction.mono (by omega) (fun _ => by omega) fun _ _ _ _ => rfl

theorem costs_promoteFrom (h : Modest M st s) (hid : r.id ∉ Lru.held st (others s level)) :
    Costs M 7 (promoteFrom r level) s st (fun _ => 0) fun _ => 0 := by
  unfold promoteFrom
  split
  · exact costs_promote h hid rfl
  · exact costs_pure (Nat.zero_le _) rfl

theorem costs_probe (h : Modest M st s) (r : Request) (update : Bool) (l : List (Level top)) :
    Costs M 7 (probe r update l) s st (fun _ => 0) fun _ => 0 := by
  induction l generalizing s st with
  | nil => exact costs_pure (Nat.zero_le _) rfl
  | cons level rest ih =>
    unfold probe
    refine (costs_checkAt h.toSound level r update).bind 7 le_rfl fun found s₁ st₁ hy => ?_
    obtain ⟨hshrinks, hhit⟩ := (ensures_checkAt h.toSound level r update).apply hy
    have hmodest := h.shrinks hshrinks
    rw [Nat.zero_add]
    cases found with
    | miss => exact ih hmodest
    | expired => exact costs_pure (Nat.zero_le _) rfl
    | hit =>
      dsimp only
      split
      · exact (costs_promoteFrom hmodest (hhit rfl).2).bind 0 le_rfl
          fun _ s₂ st₂ _ => costs_pure le_rfl rfl
      · exact costs_pure (Nat.zero_le _) rfl

/-- A lookup that updates and does not hit leaves nothing under its id. -/
theorem notMem_of_probe {l : List (Level top)} {found : Option (Level top × Lookup)}
    (h : Sound st s) (hl : ∀ i ∉ l, r.id ∉ held st (s.segment i))
    (hy : (probe r true l).Yields s st found s' st') (hmiss : outcome found ≠ .hit) :
    r.id ∉ held st' s' := by
  induction l generalizing s st with
  | nil =>
    obtain ⟨-, rfl, rfl⟩ := yields_pure_iff.mp hy
    intro hm
    obtain ⟨i, hi⟩ := mem_held_iff.mp hm
    exact hl i List.not_mem_nil hi
  | cons level rest ih =>
    obtain ⟨answer, s₁, st₁, hcheck, hy⟩ := yields_bind_iff.mp hy
    obtain ⟨c, hc, rfl⟩ := yields_onSegment_iff.mp hcheck
    have hcoh := Lru.sound_iff.mp (sound_segment h level)
    have hchecked := (Lru.ensures_check hcoh r true).apply hc
    cases answer with
    | miss =>
      have hlevel := hchecked.miss_iff.mp rfl
      cases hchecked with
      | miss _ =>
        rw [setSegment_segment] at hy
        refine ih h (fun i hi => ?_) hy
        by_cases hlevel' : i = level
        · rwa [hlevel']
        · exact hl i (by simp [hlevel', hi])
    | expired =>
      obtain ⟨-, rfl, rfl⟩ := yields_pure_iff.mp hy
      have hheld : r.id ∈ held st (s.segment level) := by
        by_contra hnot
        cases hchecked.miss_iff.mpr hnot
      rw [held_setSegment h (hchecked.shrinks hcoh).confined]
      rintro (hm | hm)
      · cases (Lru.held_of_checked hcoh hchecked).mpr hm
      · exact notMem_others h hheld hm
    | hit =>
      dsimp only at hy
      obtain ⟨_, s₂, st₂, -, hpure⟩ := yields_bind_iff.mp hy
      obtain ⟨rfl, -, -⟩ := yields_pure_iff.mp hpure
      exact absurd rfl hmiss

/-! ## Insertion, eviction, removal -/

/-- What is replaced leaves uncounted. -/
theorem costs_displace (h : Sound st s) (id : ObjectId) :
    ∃ k, Costs M 0 (displace id) s st (fun _ => 0) (fun _ => k) ∧ (id ∉ held st s → k = 0) := by
  unfold displace
  simp only [costs_get_bind, costs_getThe_bind]
  cases hf : s.segmentOf? st id with
  | none => exact ⟨0, costs_pure le_rfl rfl, fun _ => rfl⟩
  | some level =>
    have hheld := mem_held_of_segmentOf? hf
    refine ⟨1, costs_discard ((costs_removeAt h level id).mono le_rfl (fun _ => Nat.zero_le _)
      fun removed _ _ hy => ?_), fun hnot => absurd (mem_held_iff.mpr ⟨level, hheld⟩) hnot⟩
    obtain ⟨c, hc, -⟩ := yields_onSegment_iff.mp hy
    cases (Lru.ensures_remove (Lru.sound_iff.mp (sound_segment h level)) id).apply hc with
    | absent hnone _ => exact absurd hheld (Lru.notMem_held_iff.mpr hnone)
    | taken _ _ => rfl

theorem costs_evict (h : Sound st s) :
    Costs M 0 (evict : Action (Segmented Lru top) _) s st (fun _ => 0) fun _ => 0 := by
  unfold evict
  refine (costs_evictAt h 0).bind 0 le_rfl fun victim s₁ st₁ _ => ?_
  cases victim with
  | none => exact costs_pure le_rfl rfl
  | some v => exact costs_eviction.bind 0 (by simp) fun _ s₂ st₂ _ => costs_pure le_rfl rfl

theorem costs_evictUntilRoom (fuel : ℕ) (h : Sound st s) :
    Costs M 0 (evictUntilRoom size fuel) s st (fun _ => 0) fun _ => 0 := by
  induction fuel generalizing s st with
  | zero => exact costs_pure le_rfl rfl
  | succ fuel ih =>
    obtain ⟨room, hroom⟩ := s.exists_hasRoomAt 0 size
    unfold evictUntilRoom
    rw [costs_get_bind, costs_checked_bind hroom]
    split
    · exact costs_pure le_rfl rfl
    · refine (costs_evict h).bind 0 le_rfl fun victim s₁ st₁ hy => ?_
      cases victim with
      | none => exact costs_pure le_rfl rfl
      | some v => exact ih ((ensures_evict h).apply hy).1.toSound

/-- An eviction without a victim leaves the coldest level empty. -/
theorem count_zero_of_evict_none (h : Sound st s)
    (hy : (evict : Action (Segmented Lru top) _).Yields s st none s' st') :
    Policy.count (s'.segment 0) = 0 := by
  obtain ⟨s₁, hevict, ⟨-, rfl⟩ | ⟨v, counters, hv, -⟩⟩ := evict_cases hy
  · obtain ⟨c, hc, rfl⟩ := yields_onSegment_iff.mp hevict
    have hcoh := Lru.sound_iff.mp (sound_segment h 0)
    cases (Lru.ensures_evict hcoh).apply hc with
    | nothing _ hs =>
      rw [segment_setSegment, if_pos rfl]
      change c.queue.length = 0
      rw [← hs.linked.length_objects, hs.objects]
      simp
  · cases hv

/-- A victim leaves the coldest level shorter. -/
theorem count_zero_lt_of_evict {v : CacheObject}
    (hy : (evict : Action (Segmented Lru top) _).Yields s st (some v) s' st') :
    Policy.count (s'.segment 0) < Policy.count (s.segment 0) := by
  obtain ⟨s₁, hevict, ⟨hv, -⟩ | ⟨_, counters, -, -, rfl⟩⟩ := evict_cases hy
  · cases hv
  · obtain ⟨c, hc, rfl⟩ := yields_onSegment_iff.mp hevict
    have hle := Counted.count_evict hc
    rw [Option.isSome_some, Bool.toNat_true] at hle
    change Policy.count ((s.setSegment 0 c).segment 0) < Policy.count (s.segment 0)
    rw [segment_setSegment, if_pos rfl]
    omega

/-- Evictions from the coldest level end with room there or with nothing left. -/
theorem hasRoomAt_of_evictUntilRoom {fuel : ℕ} (h : Sound st s)
    (hf : Policy.count (s.segment 0) < fuel)
    (hy : (evictUntilRoom size fuel).Yields s st () s' st') :
    s'.hasRoomAt 0 size = .ok true ∨ Policy.count (s'.segment 0) = 0 := by
  induction fuel generalizing s st with
  | zero => omega
  | succ fuel ih =>
    rcases evictUntilRoom_cases hy with
      ⟨hok, rfl, rfl⟩ | ⟨-, hevict | ⟨v, s₁, st₁, hevict, hrest⟩⟩
    · exact .inl hok
    · exact .inr (count_zero_of_evict_none h hevict)
    · exact ih ((ensures_evict h).apply hevict).1.toSound
        (Nat.lt_of_lt_of_le (count_zero_lt_of_evict hevict) (Nat.le_of_lt_succ hf)) hrest

theorem exists_firstWithRoom (s : Segmented Lru top) (size : Bytes) (l : List (Level top)) :
    ∃ found, s.firstWithRoom size l = .ok found := by
  induction l with
  | nil => exact ⟨none, rfl⟩
  | cons i rest ih =>
    obtain ⟨room, hroom⟩ := s.exists_hasRoomAt i size
    unfold firstWithRoom
    rw [hroom]
    cases room with
    | true => exact ⟨some i, rfl⟩
    | false => exact ih

theorem costs_levelFor (h : Sound st s) (size : Bytes) :
    Costs M 0 (levelFor size) s st (fun _ => 0) fun _ => 0 := by
  obtain ⟨found, hfound⟩ := s.exists_firstWithRoom size (levels top)
  unfold levelFor
  rw [costs_get_bind, costs_checked_bind hfound]
  dsimp only
  split
  · exact (costs_evictUntilRoom _ h).bind 0 le_rfl fun _ s₁ st₁ _ => costs_pure le_rfl rfl
  · exact costs_pure le_rfl rfl

theorem hasRoomAt_of_levelFor (h : Sound st s) (hy : (levelFor size).Yields s st level s' st') :
    s'.hasRoomAt level size = .ok true ∨ Policy.count (s'.segment level) = 0 := by
  rcases levelFor_cases hy with ⟨hok, rfl, rfl⟩ | ⟨rfl, hevicts⟩
  · exact .inl hok
  · exact hasRoomAt_of_evictUntilRoom h (Nat.lt_succ_self _) hevicts

theorem costs_insert (h : Sound st s) (hM : r.size.toNat ≤ M) :
    ∃ k, Costs M (4 * top + 4) (insert r) s st (fun _ => 0) (fun _ => k) ∧
      (r.id ∉ held st s → k = 0) := by
  unfold insert
  simp only [costs_get_bind]
  split
  · exact ⟨0, costs_emit_bind.mpr (costs_pure (Nat.zero_le _) rfl), fun _ => rfl⟩
  · obtain ⟨k, hdisplace, hk⟩ := costs_displace (M := M) h r.id
    refine ⟨k, hdisplace.bind (4 * top + 4) (by omega) fun _ s₁ st₁ hy₁ => ?_, hk⟩
    obtain ⟨hshrinks₁, hnot₁⟩ := (ensures_displace h r.id).apply hy₁
    refine (costs_levelFor hshrinks₁.toSound r.size).bind (4 * top + 4) (by omega)
      fun level s₂ st₂ hy₂ => ?_
    have hshrinks₂ := (ensures_levelFor hshrinks₁.toSound r.size).apply hy₂
    have hroom := hasRoomAt_of_levelFor hshrinks₁.toSound hy₂
    have hlevel := level.isLt
    refine (costs_insertAt hshrinks₂.toSound (fun hm => hnot₁ (hshrinks₂.held_subset hm)) hM
      hroom).bind 1 (by omega) fun res s₃ st₃ _ => ?_
    cases res with
    | none => exact costs_pure (Nat.zero_le _) (by simp)
    | some o =>
      exact (costs_record (SegmentedCounters.bears_onCore (Counters.bears_recordInsertion hM))
        (SegmentedCounters.shifts_onCore Counters.shifts_recordInsertion)).bind 0 (by omega)
          fun _ s₄ st₄ _ => costs_pure le_rfl (by simp)

theorem costs_remove (h : Sound st s) (id : ObjectId) :
    Costs M 1 (remove id) s st (fun _ => 0) fun _ => 0 := by
  unfold remove
  rw [costs_get_bind, costs_getThe_bind]
  cases hf : s.segmentOf? st id with
  | none =>
    dsimp only
    rw [costs_emit_bind]
    exact costs_pure (Nat.zero_le _) rfl
  | some level =>
    refine (costs_removeAt h level id).bind 1 le_rfl fun removed s₁ st₁ hy => ?_
    obtain ⟨c, hc, -⟩ := yields_onSegment_iff.mp hy
    have hsome : removed.isSome = true := by
      cases (Lru.ensures_remove (Lru.sound_iff.mp (sound_segment h level)) id).apply hc with
      | absent hnone _ => exact absurd (mem_held_of_segmentOf? hf) (Lru.notMem_held_iff.mpr hnone)
      | taken _ _ => rfl
    refine (costs_record SegmentedCounters.bears_recordRemoval
      SegmentedCounters.shifts_recordRemoval).bind 0 (by omega) fun _ s₂ st₂ _ => ?_
    exact costs_pure le_rfl (by rw [hsome]; rfl)

/-! ## Requests -/

theorem bears_tally (hM : size.toNat ≤ M) (found : Option (Level top × Lookup)) :
    Bears (SegmentedCounters.Spare M) (tally found size) := by
  unfold tally
  split
  · exact SegmentedCounters.bears_recordSegmentHit hM _
  · exact SegmentedCounters.bears_onCore (Counters.bears_recordExpired hM)
  · exact SegmentedCounters.bears_onCore (Counters.bears_recordMiss hM)

theorem shifts_tally (found : Option (Level top × Lookup)) :
    Shifts SegmentedCounters.net 0 (tally found size) := by
  unfold tally
  split
  · exact SegmentedCounters.shifts_recordSegmentHit
  · exact SegmentedCounters.shifts_onCore Counters.shifts_recordExpired
  · exact SegmentedCounters.shifts_onCore Counters.shifts_recordMiss

theorem costs_serve (h : Modest M st s) (hM : r.size.toNat ≤ M) :
    Costs M (4 * top + 12) (serve r) s st (fun _ => 0) fun _ => 0 := by
  rw [serve_eq]
  refine (costs_probe h r true (levels top)).bind (4 * top + 5) (by omega)
    fun found s₁ st₁ hprobe => ?_
  have hshrinks := ((ensures_probe h.toSound r true (levels top)).apply hprobe).1
  refine (costs_record (bears_tally hM found) (shifts_tally found)).bind (4 * top + 4) (by omega)
    fun _ s₂ st₂ hrecord => ?_
  obtain ⟨counters, -, rfl, rfl⟩ := yields_record_iff.mp hrecord
  have hsound := (shrinks_report hshrinks.toSound st₂.events counters).toSound
  unfold admission
  split
  next hmiss =>
    have hnot : r.id ∉ held st₂ s₁ :=
      notMem_of_probe h.toSound (fun i hi => absurd (List.mem_finRange i) hi) hprobe hmiss
    obtain ⟨k, hinsert, hk⟩ := costs_insert (r := r) hsound hM
    obtain rfl := hk hnot
    rw [costs_get_bind]
    split
    · exact (costs_discard hinsert).bind 0 (by omega) fun _ s₃ st₃ _ => costs_pure le_rfl rfl
    · rw [costs_emit_bind]
      exact costs_pure (Nat.zero_le _) rfl
  next => exact costs_pure (Nat.zero_le _) rfl

theorem costs_check (h : Modest M st s) (r : Request) (update : Bool) :
    Costs M 7 (check r update) s st (fun _ => 0) fun _ => 0 := by
  rw [check_eq]
  exact costs_map (costs_probe h r update (levels top))

/-- Every operation has credits enough in the load and in `4 * top + 12`, and moves
the surplus only by replacing an object. -/
theorem costs_perform {op : Operation} (h : Modest M st s) (hM : op.bytes ≤ M) :
    ∃ k, Costs M (4 * top + 12) (perform op : Action (Segmented Lru top) Response) s st
        (fun _ => 0) (fun _ => k) ∧
      ((∀ r, op = .insert r → r.id ∉ held st s) → k = 0) := by
  cases op with
  | serve r => exact ⟨0, costs_map (costs_serve h hM), fun _ => rfl⟩
  | check r update =>
    exact ⟨0, costs_map ((costs_check h r update).mono (by omega) (fun _ => by omega)
      fun _ _ _ _ => rfl), fun _ => rfl⟩
  | insert r =>
    obtain ⟨k, hinsert, hk⟩ := costs_insert (r := r) h.toSound hM
    exact ⟨k, costs_map (hinsert.mono (by omega) (fun _ => by omega) fun _ _ _ _ => rfl),
      fun hnot => hk (hnot r rfl)⟩
  | evict =>
    exact ⟨0, costs_map ((costs_evict h.toSound).mono (Nat.zero_le _) (fun _ => Nat.zero_le _)
      fun _ _ _ _ => rfl), fun _ => rfl⟩
  | remove id =>
    exact ⟨0, costs_map ((costs_remove h.toSound id).mono (by omega) (fun _ => by omega)
      fun _ _ _ _ => rfl), fun _ => rfl⟩

end SegmentedCache.Segmented
