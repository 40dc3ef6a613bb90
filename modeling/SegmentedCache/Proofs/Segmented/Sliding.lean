import SegmentedCache.Proofs.Segmented.Descent
import SegmentedCache.Proofs.Segmented.Order

/-!
# Cooling slides the order

By recursion on the level: a victim enters one level down, in front of all that
is there, and where there is no room that level is chilled first. In a calm
cache every chilling of a level that is not empty has a victim, and an empty
level has room for every object on its way down. So cooling goes on until there
is room, and nothing is dropped on the way.
-/
namespace SegmentedCache.Segmented
open SegmentedCache.Action Policy
variable {top : Nat} {s s' s'' : Segmented Lru top} {st st' : Store} {i level dest : Level top}
variable {c : Lru} {v : CacheObject} {r : Request} {time : Time} {size : Bytes}

/-! ## The segments of a calm cache -/

section
variable (h : Calm st s)
include h

theorem coherent_segment (i : Level top) : (s.segment i).Coherent st :=
  Lru.sound_iff.mp (sound_segment h.toSound i)

theorem tidy_segment (i : Level top) : ∀ o ∈ (s.segment i).objects, st.resident o = true :=
  h.tidy _ (mem_leaves_iff.mpr ⟨i, List.mem_singleton_self _⟩)

/-- What the cache admits, each of its segments can hold. -/
theorem charge_le (hr : canAdmit s size) (i : Level top) :
    (s.segment i).charge size ≤ (s.segment i).params.capacity := by
  obtain ⟨hover, hlimit, -⟩ := h.roomy i
  refine UInt64.le_trans (Word.saturatingAdd_le_right hover size) ?_
  exact UInt64.le_trans (of_decide_eq_true hr) hlimit

/-- An empty segment has room for whatever the cache admits. -/
theorem hasRoomAt_of_empty (hr : canAdmit s size) (he : Policy.count (s.segment i) = 0) :
    s.hasRoomAt i size = .ok true := by
  have hc := coherent_segment h i
  apply Lru.hasRoom_of_nil hc.toCharged
  · apply List.eq_nil_of_length_eq_zero
    rw [hc.length_objects]
    exact he
  · exact charge_le h hr i

/-- A segment that is not empty gives up its last object. -/
theorem evictAt_of_calm {victim : Option CacheObject} (hne : Policy.count (s.segment i) ≠ 0)
    (hy : (onSegment i (Policy.evict : Action Lru _)).Yields s st victim s' st') :
    ∃ c v, s' = s.setSegment i c ∧ victim = some v ∧ (s.segment i).objects = c.objects ++ [v] := by
  obtain ⟨c, hc, rfl⟩ := yields_onSegment_iff.mp hy
  have hcoh := coherent_segment h i
  rcases ((Lru.ensures_evict hcoh).apply hc).of_tidy (tidy_segment h i) hcoh.toLinked with
    ⟨-, hnil⟩ | ⟨v, rfl, hv⟩
  · refine absurd ?_ hne
    change (s.segment i).queue.length = 0
    rw [← hcoh.length_objects, hnil, List.length_nil]
  · exact ⟨c, v, rfl, rfl, hv⟩

theorem insertAt_of_calm {res : Option CacheObject} (hid : r.id ∉ held st s)
    (hroom : s.hasRoomAt i r.size = .ok true)
    (hy : (onSegment i (Policy.insert r : Action Lru _)).Yields s st res s' st') :
    ∃ c, s' = s.setSegment i c ∧ c.keys = (r.id, r.size) :: (s.segment i).keys := by
  obtain ⟨c, hc, rfl⟩ := yields_onSegment_iff.mp hy
  have hcoh := coherent_segment h i
  have hi := (Lru.ensures_insert hcoh r).apply hc
  have hid' : r.id ∉ held st (s.segment i) := fun hm => hid (mem_held_iff.mpr ⟨i, hm⟩)
  rw [hasRoomAt, Lru.hasRoom_eq, Except.ok.injEq, decide_eq_true_eq] at hroom
  obtain ⟨o, -, hmade, hobj⟩ := hi.of_tidy (tidy_segment h i) hcoh.toLinked hid' hroom
  refine ⟨c, rfl, ?_⟩
  unfold Lru.keys
  rw [hobj, List.map_cons, hmade.id, hmade.size]

end

/-! ## Chilling and entering -/

/-- Chilling a level that is not empty slides what is at that level and below. -/
def Slid (time : Time) (level : Level top) : Prop :=
  ∀ {s s' : Segmented Lru top} {st st' : Store} {cooled : Bool}, Calm st s →
    Policy.count (s.segment level) ≠ 0 → (chill time level).Yields s st cooled s' st' →
    cooled = true ∧ Slides (level.val + 1) [] s s'

theorem Slid.reenter (hs : Slid time dest) (h : Calm st s) (hid : r.id ∉ held st s)
    (hr : canAdmit s r.size) (hy : (reenter time dest r).Yields s st () s' st') :
    Slides (dest.val + 1) [(r.id, r.size)] s s' := by
  induction hn : Policy.count (s.segment dest) using Nat.strong_induction_on generalizing s st with
  | _ n ih =>
    rw [reenter_eq] at hy
    unfold reenterRound at hy
    rw [yields_get_bind_iff] at hy
    obtain ⟨room, s₁, st₁, hroom, hy⟩ := yields_bind_iff.mp hy
    obtain ⟨hok, rfl, rfl⟩ := yields_checked_iff.mp hroom
    cases room with
    | true =>
      rw [if_pos rfl] at hy
      obtain ⟨res, hy⟩ := yields_discard_iff.mp hy
      obtain ⟨c, rfl, hk⟩ := insertAt_of_calm h hid hok hy
      exact slides_enter hk
    | false =>
      rw [if_neg Bool.false_ne_true] at hy
      by_cases hc : Policy.count (s₁.segment dest) = 0
      · rw [hasRoomAt_of_empty h hr hc] at hok
        cases hok
      · rw [if_neg hc] at hy
        obtain ⟨cooled, s₂, st₂, hchill, hy⟩ := yields_bind_iff.mp hy
        obtain ⟨rfl, hslides⟩ := hs h hc hchill
        have hshrinks := shrinks_chill h.toSound hchill
        have hcount := count_chill hchill
        rw [if_pos rfl] at hy
        rw [Bool.toNat_true] at hcount
        have hid' : r.id ∉ held st₂ s₂ := fun hm => hid (hshrinks.held_subset hm)
        have hr' : canAdmit s₂ r.size := by
          rw [hshrinks.canAdmit_eq]
          exact hr
        exact hslides.trans (ih _ (by omega) (h.shrinks hshrinks) hid' hr' hy rfl)

theorem slid_zero (time : Time) : Slid time (0 : Level top) := by
  intro s s' st st' cooled h hne hy
  rw [chill_zero] at hy
  obtain ⟨victim, s₁, st₁, hevict, hrest⟩ := yields_bind_iff.mp hy
  obtain ⟨c, v, rfl, rfl, hv⟩ := evictAt_of_calm h hne hevict
  obtain ⟨_, s₂, st₂, hr, hp⟩ := yields_bind_iff.mp hrest
  obtain ⟨counters, hcounters, rfl, -⟩ := yields_record_iff.mp hr
  obtain ⟨rfl, rfl, -⟩ := yields_pure_iff.mp hp
  exact ⟨rfl, Slides.of_demotion hv rfl rfl (slides_leave _ hcounters)⟩

theorem slid_succ {below : Nat} (hb : below + 1 < top + 1)
    (ih : Slid time (⟨below, Nat.lt_of_succ_lt hb⟩ : Level top)) :
    Slid time (⟨below + 1, hb⟩ : Level top) := by
  intro s s' st st' cooled h hne hy
  rw [chill_succ] at hy
  obtain ⟨victim, s₁, st₁, hevict, h₁⟩ := yields_bind_iff.mp hy
  obtain ⟨hshrinks, hvictim⟩ := (ensures_evictAt h.toSound _).apply hevict
  obtain ⟨c, v, rfl, rfl, hv⟩ := evictAt_of_calm h hne hevict
  obtain ⟨hstock, hgone⟩ := hvictim v rfl
  obtain ⟨_, s₂, st₂, hr, h₂⟩ := yields_bind_iff.mp h₁
  obtain ⟨counters, hcounters, rfl, rfl⟩ := yields_record_iff.mp hr
  obtain ⟨_, s₃, st₃, hemit, h₃⟩ := yields_bind_iff.mp h₂
  obtain ⟨rfl, rfl⟩ := yields_emit_iff.mp hemit
  obtain ⟨_, s₄, st₄, hreenter, hp⟩ := yields_bind_iff.mp h₃
  obtain ⟨rfl, rfl, -⟩ := yields_pure_iff.mp hp
  have hreport := shrinks_report hshrinks.toSound (st₂.events.push (.demoted v.id below)) counters
  have hall := hshrinks.trans hreport
  -- The victim was in stock and is held no more, so it may enter one level down.
  have hsmall : canAdmit s v.size = true := h.small (v.id, v.size) hstock
  rw [← hall.canAdmit_eq] at hsmall
  have hid : v.id ∉ held _ _ := fun hm => hgone (hreport.held_subset hm)
  have hslides := ih.reenter (r := Request.readmitting v time) (h.shrinks hall) hid hsmall hreenter
  obtain ⟨n, -, rfl⟩ := SegmentedCounters.recordDemotion_eq_ok hcounters
  refine ⟨rfl, Slides.of_demotion hv ?_ ?_ hslides⟩
  · rfl
  · rfl

theorem slid (time : Time) (level : Level top) : Slid time level := by
  obtain ⟨i, hi⟩ := level
  induction i with
  | zero => exact slid_zero time
  | succ below ih => exact slid_succ hi (ih _)

/-! ## Making room -/

theorem slides_makeRoomWithin {fuel : Nat} (h : Calm st s) (hr : canAdmit s size)
    (hf : Policy.count (s.segment dest) < fuel)
    (hy : (makeRoomWithin time dest size fuel).Yields s st () s' st') :
    Slides (dest.val + 1) [] s s' ∧ s'.hasRoomAt dest size = .ok true := by
  induction fuel generalizing s st with
  | zero => omega
  | succ fuel ih =>
    rcases makeRoomWithin_cases hy with ⟨hok, rfl, -⟩ | ⟨hok, ⟨hempty, -⟩ | hcools⟩
    · exact ⟨Slides.refl _ _, hok⟩
    · rw [hasRoomAt_of_empty h hr hempty] at hok
      cases hok
    · obtain ⟨hc, s₁, st₁, hcool, hafter⟩ := hcools
      rw [cool_eq] at hcool
      obtain ⟨cooled, hchill⟩ := yields_discard_iff.mp hcool
      obtain ⟨rfl, hslides⟩ := slid time dest h hc hchill
      have hshrinks := shrinks_chill h.toSound hchill
      have hcount := count_chill hchill
      rw [Bool.toNat_true] at hcount
      obtain ⟨hvain, -⟩ | hrest := hafter
      · omega
      have hr' : canAdmit s₁ size := by
        rw [hshrinks.canAdmit_eq]
        exact hr
      obtain ⟨hslides', hok'⟩ := ih (h.shrinks hshrinks) hr' (by omega) hrest
      exact ⟨hslides.trans hslides', hok'⟩

theorem slides_makeRoom (h : Calm st s) (hr : canAdmit s size)
    (hy : (makeRoom time dest size).Yields s st () s' st') :
    Slides (dest.val + 1) [] s s' ∧ s'.hasRoomAt dest size = .ok true := by
  unfold makeRoom at hy
  rw [yields_get_bind_iff] at hy
  exact slides_makeRoomWithin h hr (Nat.lt_succ_self _) hy

end SegmentedCache.Segmented
