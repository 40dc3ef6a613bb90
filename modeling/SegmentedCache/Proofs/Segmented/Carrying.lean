import SegmentedCache.Proofs.Policy.Carrying
import SegmentedCache.Proofs.Segmented.Lawful
import SegmentedCache.Proofs.Segmented.Placement

/-!
# Objects on the move in a segmented cache

The finds of a segmented cache are those of its segments together. While levels are
cooled, an object on its way down is one that the request of its demotion would be made
for. Every pass carries the objects held and those on their way, taken together, at the
time of the request that started the cooling. So a segmented cache of carrying segments is
carrying, however far its objects were moved.
-/
namespace SegmentedCache.Segmented
open SegmentedCache.Action Policy
variable {C : Type} {top : Nat} [Policy C] [Lawful C]
variable {st st' : Store} {s s' : Segmented C top} {i level dest : Level top} {c : C}
variable {pending pending' : List (Demotion top)} {time : Time} {r : Request}

theorem finds_eq (st : Store) (s : Segmented C top) (i : Level top) :
    finds st s = finds st (s.segment i) ∪ Lru.finds st (others s i) := by
  unfold finds
  rw [Lru.finds_perm (leaves_perm s i), Lru.finds_append]

/-- The other segments keep their finds. -/
theorem finds_setSegment (h : Sound st s)
    (k : Lru.Confined st (leaves (s.segment i)) st' (leaves c)) :
    finds st' (s.setSegment i c) = finds st' c ∪ Lru.finds st (others s i) := by
  rw [finds_eq st' _ i, segment_setSegment, if_pos rfl, others_setSegment,
    Lru.finds_of_confined (sound_append h i).1 k]

theorem mem_finds_of_segment {o : CacheObject} (ho : o ∈ finds st (s.segment i)) :
    o ∈ finds st s := by
  rw [finds_eq st s i]
  exact .inl ho

theorem carries_setSegment (h : Sound st s)
    (k : Lru.Confined st (leaves (s.segment i)) st' (leaves c))
    (hr : Carries time (finds st (s.segment i)) (finds st' c)) :
    Carries time (finds st s) (finds st' (s.setSegment i c)) := by
  rw [finds_setSegment h k, finds_eq st s i]
  exact (hr.widen Set.subset_union_left).union (.of_subset Set.subset_union_right)

/-! ## Operations at one level -/

section
variable [Carrying C]

theorem finds_evictAt (h : Sound st s) {victim : Option CacheObject}
    (hy : (onSegment i (Policy.evict : Action C _)).Yields s st victim s' st') :
    finds st' s' ⊆ finds st s ∧ ∀ o, victim = some o → o ∈ finds st s := by
  obtain ⟨c, hc, rfl⟩ := yields_onSegment_iff.mp hy
  obtain ⟨k, -⟩ := (Lawful.ensures_evict (sound_segment h i)).apply hc
  obtain ⟨hsub, hv⟩ := Carrying.finds_evict (sound_segment h i) hc
  rw [finds_setSegment h k.confined, finds_eq st s i]
  exact ⟨Set.union_subset_union_left _ hsub, fun o ho => .inl (hv o ho)⟩

theorem finds_removeAt (h : Sound st s) {id : ObjectId} {removed : Option CacheObject}
    (hy : (onSegment i (Policy.remove id : Action C _)).Yields s st removed s' st') :
    finds st' s' ⊆ finds st s ∧ ∀ o, removed = some o → o ∈ finds st s := by
  obtain ⟨c, hc, rfl⟩ := yields_onSegment_iff.mp hy
  obtain ⟨k, -⟩ := (Lawful.ensures_remove (sound_segment h i) id).apply hc
  obtain ⟨hsub, ho⟩ := Carrying.finds_remove (sound_segment h i) hc
  rw [finds_setSegment h k.confined, finds_eq st s i]
  exact ⟨Set.union_subset_union_left _ hsub, fun o hr => .inl (ho o hr)⟩

theorem finds_insertAt (h : Sound st s) {res : Option CacheObject}
    (hy : (onSegment i (Policy.insert r : Action C _)).Yields s st res s' st') :
    finds st' s' ⊆ finds st s ∪ madeFor r ∧ (res = none → finds st' s' ⊆ finds st s) := by
  obtain ⟨c, hc, rfl⟩ := yields_onSegment_iff.mp hy
  obtain ⟨k, -⟩ := (Lawful.ensures_insert (sound_segment h i) r).apply hc
  have he := Carrying.lodged_insert (sound_segment h i) hc
  rw [finds_setSegment h k.confined, finds_eq st s i, Set.union_right_comm]
  refine ⟨Set.union_subset_union_left _ he.subset_union, fun hnone => ?_⟩
  subst hnone
  cases he with
  | refused hsub => exact Set.union_subset_union_left _ hsub

end

/-! ## Cooling -/

/-- The objects that the demotions on their way down would be made into. -/
def awaited (pending : List (Demotion top)) : Set CacheObject :=
  {o | ∃ d ∈ pending, o ∈ madeFor d.2}

@[simp] theorem awaited_nil : awaited ([] : List (Demotion top)) = ∅ := by
  ext o
  simp [awaited]

theorem awaited_cons (d : Demotion top) (pending : List (Demotion top)) :
    awaited (d :: pending) = madeFor d.2 ∪ awaited pending := by
  ext o
  simp [awaited]

variable [Carrying C]

theorem carries_demote (h : Sound st s)
    (hy : (demote time level pending).Yields s st pending' s' st') :
    Carries time (finds st s ∪ awaited pending) (finds st' s' ∪ awaited pending') := by
  unfold demote at hy
  obtain ⟨victim, s₁, st₁, hevict, h₁⟩ := yields_bind_iff.mp hy
  obtain ⟨hsub, hv⟩ := finds_evictAt h hevict
  cases victim with
  | none =>
    cases pending with
    | nil =>
      obtain ⟨rfl, rfl, rfl⟩ := yields_pure_iff.mp h₁
      exact .of_subset (Set.union_subset_union_left _ hsub)
    | cons d rest =>
      obtain ⟨_, s₂, st₂, hemit, h₂⟩ := yields_bind_iff.mp h₁
      obtain ⟨rfl, rfl⟩ := yields_emit_iff.mp hemit
      obtain ⟨_, s₃, st₃, hrecord, h₃⟩ := yields_bind_iff.mp h₂
      obtain ⟨counters, -, rfl, rfl⟩ := yields_record_iff.mp hrecord
      obtain ⟨rfl, rfl, rfl⟩ := yields_pure_iff.mp h₃
      rw [awaited_cons]
      exact .of_subset (Set.union_subset_union hsub Set.subset_union_right)
  | some v =>
    obtain ⟨level, hlevel⟩ := level
    cases level with
    | zero =>
      obtain ⟨_, s₂, st₂, hrecord, h₂⟩ := yields_bind_iff.mp h₁
      obtain ⟨counters, -, rfl, rfl⟩ := yields_record_iff.mp hrecord
      obtain ⟨rfl, rfl, rfl⟩ := yields_pure_iff.mp h₂
      exact .of_subset (Set.union_subset_union_left _ hsub)
    | succ below =>
      obtain ⟨_, s₂, st₂, hrecord, h₂⟩ := yields_bind_iff.mp h₁
      obtain ⟨counters, -, rfl, rfl⟩ := yields_record_iff.mp hrecord
      obtain ⟨_, s₃, st₃, hemit, h₃⟩ := yields_bind_iff.mp h₂
      obtain ⟨rfl, rfl⟩ := yields_emit_iff.mp hemit
      obtain ⟨rfl, rfl, rfl⟩ := yields_pure_iff.mp h₃
      have hmoved := carries_readmitting (hv v rfl) time
      rw [awaited_cons]
      exact .union (.of_subset (hsub.trans Set.subset_union_left))
        (.union (hmoved.widen Set.subset_union_left) (.of_subset Set.subset_union_right))

theorem finds_settle (h : Sound st s) (hw : Waits st s pending)
    (hy : (settle pending).Yields s st pending' s' st') :
    finds st' s' ∪ awaited pending' ⊆ finds st s ∪ awaited pending := by
  induction pending generalizing s st with
  | nil =>
    obtain ⟨rfl, rfl, rfl⟩ := yields_pure_iff.mp hy
    exact subset_rfl
  | cons d rest ih =>
    obtain ⟨dest, r⟩ := d
    unfold settle at hy
    rw [yields_get_bind_iff] at hy
    obtain ⟨room, s₁, st₁, hroom, h₁⟩ := yields_bind_iff.mp hy
    obtain ⟨-, rfl, rfl⟩ := yields_checked_iff.mp hroom
    rw [awaited_cons, ← Set.union_assoc]
    split at h₁
    · obtain ⟨_, s₂, st₂, hinsert, h₂⟩ := yields_bind_iff.mp h₁
      obtain ⟨res, hinsert⟩ := yields_discard_iff.mp hinsert
      have hm := (ensures_insert_top h hw).apply hinsert
      exact (ih hm.toSound hm.toWaits h₂).trans
        (Set.union_subset_union_left _ (finds_insertAt h hinsert).1)
    · split at h₁
      · obtain ⟨_, s₂, st₂, hemit, h₂⟩ := yields_bind_iff.mp h₁
        obtain ⟨rfl, rfl⟩ := yields_emit_iff.mp hemit
        obtain ⟨_, s₃, st₃, hrecord, h₃⟩ := yields_bind_iff.mp h₂
        obtain ⟨counters, -, rfl, rfl⟩ := yields_record_iff.mp hrecord
        have hs := shrinks_report h (st₁.events.push (.demotionDropped r.id dest)) counters
        have hm := Moves.of_shrinks hs hw (List.sublist_cons_self _ _)
        exact (ih hm.toSound hm.toWaits h₃).trans
          (Set.union_subset_union_left _ Set.subset_union_left)
      · obtain ⟨rfl, rfl, rfl⟩ := yields_pure_iff.mp h₁
        rw [awaited_cons, ← Set.union_assoc]

theorem carries_coolWithin (fuel : Nat) (h : Sound st s) (hw : Waits st s pending)
    (hy : (coolWithin time fuel level pending).Yields s st () s' st') :
    Carries time (finds st s ∪ awaited pending) (finds st' s') := by
  induction fuel generalizing s st level pending with
  | zero =>
    obtain ⟨-, rfl, rfl⟩ := yields_pure_iff.mp hy
    exact .of_subset Set.subset_union_left
  | succ fuel ih =>
    unfold coolWithin at hy
    obtain ⟨pending₁, s₁, st₁, hdemote, h₁⟩ := yields_bind_iff.mp hy
    obtain ⟨pending₂, s₂, st₂, hsettle, h₂⟩ := yields_bind_iff.mp h₁
    have hm₁ := (ensures_demote h hw level).apply hdemote
    have hm₂ := (ensures_settle hm₁.toSound hm₁.toWaits).apply hsettle
    have hpass : Carries time (finds st s ∪ awaited pending) (finds st₂ s₂ ∪ awaited pending₂) :=
      (carries_demote h hdemote).trans (.of_subset (finds_settle hm₁.toSound hm₁.toWaits hsettle))
    cases pending₂ with
    | nil =>
      obtain ⟨-, rfl, rfl⟩ := yields_pure_iff.mp h₂
      exact hpass.trans (.of_subset Set.subset_union_left)
    | cons d rest => exact hpass.trans (ih hm₂.toSound hm₂.toWaits h₂)

theorem carries_cool (h : Sound st s) (hy : (cool time level).Yields s st () s' st') :
    Carries time (finds st s) (finds st' s') := by
  unfold cool at hy
  have hcool := carries_coolWithin _ h (Waits.nil st s) (yields_get_bind_iff.mp hy)
  rwa [awaited_nil, Set.union_empty] at hcool

theorem carries_makeRoomWithin {size : Bytes} (fuel : Nat) (h : Sound st s)
    (hy : (makeRoomWithin time dest size fuel).Yields s st () s' st') :
    Carries time (finds st s) (finds st' s') := by
  induction fuel generalizing s st with
  | zero =>
    obtain ⟨-, rfl, rfl⟩ := yields_pure_iff.mp hy
    exact .of_subset subset_rfl
  | succ fuel ih =>
    rcases makeRoomWithin_cases hy with
      ⟨-, rfl, rfl⟩ | ⟨-, ⟨-, rfl, rfl⟩ | ⟨-, s₁, st₁, hcool, hafter⟩⟩
    · exact .of_subset subset_rfl
    · exact .of_subset subset_rfl
    · have hs := (ensures_cool h dest).apply hcool
      rcases hafter with ⟨-, rfl, rfl⟩ | hrest
      · exact carries_cool h hcool
      · exact (carries_cool h hcool).trans (ih hs.toSound hrest)

/-! ## Promotion and lookups -/

theorem carries_promote (h : Sound st s) (hid : r.id ∉ Lru.held st (others s level))
    (hy : (promote r level dest).Yields s st () s' st') :
    Carries r.time (finds st s) (finds st' s') := by
  unfold promote at hy
  obtain ⟨removed, s₁, st₁, hremove, h₁⟩ := yields_bind_iff.mp hy
  obtain ⟨hs₁, -⟩ := (ensures_removeAt h level hid).apply hremove
  obtain ⟨hsub, ho⟩ := finds_removeAt h hremove
  cases removed with
  | none =>
    obtain ⟨-, rfl, rfl⟩ := yields_pure_iff.mp h₁
    exact .of_subset hsub
  | some o =>
    obtain ⟨_, s₂, st₂, hmake, h₂⟩ := yields_bind_iff.mp h₁
    have hs₂ := (ensures_makeRoom hs₁.toSound dest _).apply hmake
    have hroom : Carries r.time (finds st s) (finds st₂ s₂) :=
      (carries_makeRoomWithin _ hs₁.toSound (yields_get_bind_iff.mp hmake)).widen hsub
    rw [yields_get_bind_iff] at h₂
    obtain ⟨room, s₃, st₃, hcheck, h₃⟩ := yields_bind_iff.mp h₂
    obtain ⟨-, rfl, rfl⟩ := yields_checked_iff.mp hcheck
    split at h₃
    · obtain ⟨_, s₄, st₄, hinsert, h₄⟩ := yields_bind_iff.mp h₃
      obtain ⟨res, hinsert⟩ := yields_discard_iff.mp hinsert
      obtain ⟨_, s₅, st₅, hrecord, h₅⟩ := yields_bind_iff.mp h₄
      obtain ⟨counters, -, rfl, rfl⟩ := yields_record_iff.mp hrecord
      obtain ⟨rfl, rfl⟩ := yields_emit_iff.mp h₅
      have hmoved := carries_readmitting (ho o rfl) r.time
      exact (hroom.union hmoved).trans (.of_subset (finds_insertAt hs₂.toSound hinsert).1)
    · obtain ⟨_, s₄, st₄, hemit, h₄⟩ := yields_bind_iff.mp h₃
      obtain ⟨rfl, rfl⟩ := yields_emit_iff.mp hemit
      obtain ⟨counters, -, rfl, rfl⟩ := yields_record_iff.mp h₄
      exact hroom

theorem carries_promoteFrom (h : Sound st s) (hid : r.id ∉ Lru.held st (others s level))
    (hy : (promoteFrom r level).Yields s st () s' st') :
    Carries r.time (finds st s) (finds st' s') := by
  unfold promoteFrom at hy
  split at hy
  · exact carries_promote h hid hy
  · obtain ⟨-, rfl, rfl⟩ := yields_pure_iff.mp hy
    exact .of_subset subset_rfl

/-- The segments are asked from the coldest on. One that does not know the id is left
as it was. -/
theorem looked_probe {update : Bool} {found : Option (Level top × Lookup)} {l : List (Level top)}
    (h : Sound st s) (hl : ∀ i ∉ l, r.id ∉ held st (s.segment i))
    (hy : (probe r update l).Yields s st found s' st') :
    Looked r update st s (outcome found) s' st' := by
  induction l generalizing s st with
  | nil =>
    obtain ⟨rfl, rfl, rfl⟩ := yields_pure_iff.mp hy
    refine .unknown fun hid => ?_
    obtain ⟨i, hi⟩ := mem_held_iff.mp hid
    exact hl i List.not_mem_nil hi
  | cons level rest ih =>
    unfold probe at hy
    obtain ⟨found₁, s₁, st₁, hcheck, h₁⟩ := yields_bind_iff.mp hy
    obtain ⟨hs, hhit⟩ := (ensures_checkAt h level r update).apply hcheck
    obtain ⟨c, hc, rfl⟩ := yields_onSegment_iff.mp hcheck
    have hk := ((Lawful.ensures_check (sound_segment h level) r update).apply hc).1.confined
    cases Carrying.looked_check (sound_segment h level) hc with
    | unknown absent =>
      rw [setSegment_segment] at h₁
      refine ih h (fun i hi => ?_) h₁
      by_cases hil : i = level
      · rwa [hil]
      · exact hl i (fun hm => (List.mem_cons.mp hm).elim hil hi)
    | expired hfound hid stale carries gone =>
      obtain ⟨rfl, rfl, rfl⟩ := yields_pure_iff.mp h₁
      refine .expired (mem_finds_of_segment hfound) hid stale (carries_setSegment h hk carries)
        fun hu => ?_
      rw [held_setSegment h hk]
      exact fun hm => hm.elim (gone hu)
        (notMem_others h (mem_held_iff_finds.mpr ⟨_, hfound, hid⟩))
    | hit hfound hid alive carries =>
      have hheld := mem_finds_of_segment hfound
      have hr := carries_setSegment h hk carries
      dsimp only at h₁
      split at h₁
      · obtain ⟨_, s₂, st₂, hpromote, h₂⟩ := yields_bind_iff.mp h₁
        obtain ⟨rfl, rfl, rfl⟩ := yields_pure_iff.mp h₂
        exact .hit hheld hid alive (hr.trans (carries_promoteFrom hs.toSound (hhit rfl).2 hpromote))
      · obtain ⟨rfl, rfl, rfl⟩ := yields_pure_iff.mp h₁
        exact .hit hheld hid alive hr

/-! ## The whole cache -/

theorem looked_check {update : Bool} {found : Lookup} (h : Sound st s)
    (hy : (check r update).Yields s st found s' st') : Looked r update st s found s' st' := by
  rw [check_eq, yields_map_iff] at hy
  obtain ⟨found', hprobe, rfl⟩ := hy
  exact looked_probe h (fun i hi => absurd (List.mem_finRange i) hi) hprobe

theorem finds_evict (h : Sound st s) {victim : Option CacheObject}
    (hy : (evict : Action (Segmented C top) _).Yields s st victim s' st') :
    finds st' s' ⊆ finds st s ∧ ∀ o, victim = some o → o ∈ finds st s := by
  obtain ⟨s₁, hevict, hafter⟩ := evict_cases hy
  have hv := finds_evictAt h hevict
  rcases hafter with ⟨-, rfl⟩ | ⟨v, counters, -, -, rfl⟩
  · exact hv
  · exact hv

theorem finds_remove (h : Sound st s) {id : ObjectId} {removed : Option CacheObject}
    (hy : (remove id : Action (Segmented C top) _).Yields s st removed s' st') :
    finds st' s' ⊆ finds st s ∧ ∀ o, removed = some o → o ∈ finds st s := by
  unfold remove at hy
  rw [yields_get_bind_iff, yields_getThe_bind_iff] at hy
  split at hy
  · obtain ⟨_, s₁, st₁, hemit, h₁⟩ := yields_bind_iff.mp hy
    obtain ⟨rfl, rfl⟩ := yields_emit_iff.mp hemit
    obtain ⟨rfl, rfl, rfl⟩ := yields_pure_iff.mp h₁
    exact ⟨subset_rfl, fun o ho => by cases ho⟩
  · obtain ⟨removed', s₁, st₁, hremove, h₁⟩ := yields_bind_iff.mp hy
    obtain ⟨_, s₂, st₂, hrecord, h₂⟩ := yields_bind_iff.mp h₁
    have hr := finds_removeAt h hremove
    obtain ⟨counters, -, rfl, rfl⟩ := yields_record_iff.mp hrecord
    obtain ⟨rfl, rfl, rfl⟩ := yields_pure_iff.mp h₂
    exact hr

theorem finds_evictUntilRoom {size : Bytes} (fuel : Nat) (h : Sound st s)
    (hy : (evictUntilRoom size fuel).Yields s st () s' st') : finds st' s' ⊆ finds st s := by
  induction fuel generalizing s st with
  | zero =>
    obtain ⟨-, rfl, rfl⟩ := yields_pure_iff.mp hy
    exact subset_rfl
  | succ fuel ih =>
    rcases evictUntilRoom_cases hy with
      ⟨-, rfl, rfl⟩ | ⟨-, hevict | ⟨v, s₁, st₁, hevict, hrest⟩⟩
    · exact subset_rfl
    · exact (finds_evict h hevict).1
    · have hs := ((ensures_evict h).apply hevict).1
      exact (ih hs.toSound hrest).trans (finds_evict h hevict).1

theorem finds_levelFor {size : Bytes} (h : Sound st s)
    (hy : (levelFor size).Yields s st level s' st') : finds st' s' ⊆ finds st s := by
  rcases levelFor_cases hy with ⟨-, rfl, rfl⟩ | ⟨-, hevict⟩
  · exact subset_rfl
  · exact finds_evictUntilRoom _ h hevict

theorem finds_displace (h : Sound st s) {id : ObjectId}
    (hy : (displace id).Yields s st () s' st') : finds st' s' ⊆ finds st s := by
  unfold displace at hy
  rw [yields_get_bind_iff, yields_getThe_bind_iff] at hy
  split at hy
  · obtain ⟨-, rfl, rfl⟩ := yields_pure_iff.mp hy
    exact subset_rfl
  · obtain ⟨removed, hremove⟩ := yields_discard_iff.mp hy
    exact (finds_removeAt h hremove).1

/-- What was under the id is gone before the new object is let in, at whatever level. -/
theorem lodged_insert (h : Sound st s) {res : Option CacheObject}
    (hy : (insert r).Yields s st res s' st') :
    Lodged r (finds st s) res (finds st' s') := by
  unfold insert at hy
  rw [yields_get_bind_iff] at hy
  dsimp only at hy
  split at hy
  · obtain ⟨_, s₁, st₁, hemit, h₁⟩ := yields_bind_iff.mp hy
    obtain ⟨rfl, rfl⟩ := yields_emit_iff.mp hemit
    obtain ⟨rfl, rfl, rfl⟩ := yields_pure_iff.mp h₁
    exact .refused subset_rfl
  · obtain ⟨_, s₁, st₁, hdisplace, h₁⟩ := yields_bind_iff.mp hy
    obtain ⟨level, s₂, st₂, hlevel, h₂⟩ := yields_bind_iff.mp h₁
    obtain ⟨res', s₃, st₃, hinsert, h₃⟩ := yields_bind_iff.mp h₂
    obtain ⟨hs₁, hgone⟩ := (ensures_displace h r.id).apply hdisplace
    have hs₂ := (ensures_levelFor hs₁.toSound r.size).apply hlevel
    have hsub : finds st₂ s₂ ⊆ finds st s :=
      (finds_levelFor hs₁.toSound hlevel).trans (finds_displace h hdisplace)
    obtain ⟨hentered, hrefused⟩ := finds_insertAt hs₂.toSound hinsert
    cases res' with
    | none =>
      obtain ⟨rfl, rfl, rfl⟩ := yields_pure_iff.mp h₃
      exact .refused ((hrefused rfl).trans hsub)
    | some o =>
      obtain ⟨_, s₄, st₄, hrecord, h₄⟩ := yields_bind_iff.mp h₃
      obtain ⟨counters, -, rfl, rfl⟩ := yields_record_iff.mp hrecord
      obtain ⟨rfl, rfl, rfl⟩ := yields_pure_iff.mp h₄
      refine .admitted (hentered.trans (Set.union_subset_union_left _ fun p hp => ⟨hsub hp, ?_⟩))
      intro hid
      exact hgone (hs₂.held_subset (mem_held_iff_finds.mpr ⟨p, hp, hid⟩))

theorem finds_admission {answer found : Lookup} (h : Sound st s)
    (hy : (admission r answer).Yields s st found s' st') :
    (answer = .hit → finds st' s' = finds st s) ∧ finds st' s' ⊆ finds st s ∪ madeFor r := by
  unfold admission at hy
  split at hy
  next hmiss =>
    rw [yields_get_bind_iff] at hy
    refine ⟨fun hhit => absurd hhit hmiss, ?_⟩
    split at hy
    · obtain ⟨_, s₁, st₁, hinsert, h₁⟩ := yields_bind_iff.mp hy
      obtain ⟨res, hinsert⟩ := yields_discard_iff.mp hinsert
      obtain ⟨rfl, rfl, rfl⟩ := yields_pure_iff.mp h₁
      exact (lodged_insert h hinsert).subset_union
    · obtain ⟨_, s₁, st₁, hemit, h₁⟩ := yields_bind_iff.mp hy
      obtain ⟨rfl, rfl⟩ := yields_emit_iff.mp hemit
      obtain ⟨rfl, rfl, rfl⟩ := yields_pure_iff.mp h₁
      exact Set.subset_union_left
  next =>
    obtain ⟨rfl, rfl, rfl⟩ := yields_pure_iff.mp hy
    exact ⟨fun _ => rfl, Set.subset_union_left⟩

theorem looked_serve {found : Lookup} (h : Sound st s)
    (hy : (serve r).Yields s st found s' st') :
    ∃ s₁ st₁, Looked r true st s found s₁ st₁ ∧
      (found = .hit → finds st' s' = finds st₁ s₁) ∧
      (found ≠ .hit → finds st' s' ⊆ finds st₁ s₁ ∪ madeFor r) := by
  rw [serve_eq] at hy
  obtain ⟨found', s₁, st₁, hprobe, h₁⟩ := yields_bind_iff.mp hy
  obtain ⟨_, s₂, st₂, hrecord, h₂⟩ := yields_bind_iff.mp h₁
  have hs := ((ensures_probe h r true _).apply hprobe).1
  have hj := looked_probe h (fun i hi => absurd (List.mem_finRange i) hi) hprobe
  obtain ⟨counters, -, rfl, rfl⟩ := yields_record_iff.mp hrecord
  have hr := shrinks_report hs.toSound st₂.events counters
  obtain rfl := answer_admission h₂
  obtain ⟨hsame, hsub⟩ := finds_admission hr.toSound h₂
  exact ⟨s₁, st₂, hj, hsame, fun _ => hsub⟩

instance carrying : Carrying (Segmented C top) where
  looked_check h hy := looked_check h hy
  lodged_insert h hy := lodged_insert h hy
  finds_evict h hy := finds_evict h hy
  finds_remove h hy := finds_remove h hy
  looked_serve h hy := looked_serve h hy

end SegmentedCache.Segmented
