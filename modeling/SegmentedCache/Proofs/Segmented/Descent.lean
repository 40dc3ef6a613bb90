import SegmentedCache.Proofs.Counting
import SegmentedCache.Proofs.Policy.Conserving
import SegmentedCache.Proofs.Segmented.Cascade
import SegmentedCache.Proofs.Segmented.Lawful
import SegmentedCache.Proofs.Segmented.Placement

/-!
# Demotions lose nothing

By recursion on the level: as long as a segment has no room for an object that
the cache admits, it has a victim. So the segment can be chilled, and that makes
it smaller; where no victim is left there is room. The same argument ends the
search for room in the segment that an object is promoted to.

The segments may be of any conserving kind. In particular nothing is assumed of
how a segment orders its objects, or of how an insertion makes room inside it.
-/
namespace SegmentedCache.Segmented
open SegmentedCache.Action Policy
variable {C : Type} {top : Nat} {st st' : Store} {s s' : Segmented C top}
variable {i level dest : Level top} {c : C} {r : Request} {size : Bytes} {time : Time}

instance [Recorded C] : Recorded (Segmented C top) where
  Intact s := s.counters.coolingDrops = 0 ∧ ∀ i, Intact (s.segment i)

section
variable [Recorded C]

theorem conserves_setSegment (k : Conserves st (s.segment i) st' c) :
    Conserves st s st' (s.setSegment i c) where
  losses := k.losses
  intact hi := by
    refine ⟨hi.1, fun j => ?_⟩
    rw [segment_setSegment]
    split
    · exact k.intact (hi.2 i)
    · exact hi.2 j

/-- What is counted loses nothing, unless it is a loss that is counted. -/
theorem conserves_counters {f : SegmentedCounters → Except Fault SegmentedCounters}
    {counters : SegmentedCounters} (hf : SegmentedCounters.Sparing f)
    (hcounters : f s.counters = .ok counters) : Conserves st s st { s with counters } :=
  ⟨rfl, fun hi => ⟨(hf hcounters).trans hi.1, hi.2⟩⟩

theorem conserves_record {f : SegmentedCounters → Except Fault SegmentedCounters} {u : Unit}
    (hf : SegmentedCounters.Sparing f) (hy : (record f).Yields s st u s' st') :
    Conserves st s st' s' := by
  obtain ⟨counters, hcounters, rfl, rfl⟩ := yields_record_iff.mp hy
  exact conserves_counters hf hcounters

end

variable [Policy C] [Lawful C]

/-! ## The segments of a steady cache -/

/-- What the cache admits, each of its segments admits. -/
theorem canAdmit_segment (h : Roomy s) (ha : canAdmit s size) (i : Level top) :
    canAdmit (s.segment i) size := by
  obtain ⟨hover, hlimit, -⟩ := h i
  refine decide_eq_true (UInt64.le_trans (Word.saturatingAdd_le_right hover size) ?_)
  exact UInt64.le_trans (of_decide_eq_true ha) hlimit

theorem steady_segment (h : Steady st s) (i : Level top) : Steady st (s.segment i) where
  toSound := sound_segment h.toSound i
  tidy d hd := h.tidy d (mem_leaves_iff.mpr ⟨i, hd⟩)
  roomy := (h.roomy i).2.2
  small x hx := by
    apply canAdmit_segment h.roomy (h.small x _) i
    rw [stock_eq st s i]
    exact .inl hx
  fits := h.fits.2 _ (mem_toList_iff.mpr ⟨i, rfl⟩)

theorem notMem_segment {id : ObjectId} (hid : id ∉ held st s) (i : Level top) :
    id ∉ held st (s.segment i) := fun hm => hid (mem_held_iff.mpr ⟨i, hm⟩)

variable [Conserving C]

/-- A segment without a victim has room for whatever the cache admits. -/
theorem hasRoomAt_of_spare (h : Steady st s) (ha : canAdmit s size)
    (hv : Policy.victim? (s.segment i) = none) : s.hasRoomAt i size = .ok true :=
  hasRoom_of_spare (steady_segment h i) hv (canAdmit_segment h.roomy ha i)

/-- A segment that is short of room has a victim. -/
theorem victim?_ne_none (h : Steady st s) (ha : canAdmit s size)
    (hroom : s.hasRoomAt i size = .ok false) : Policy.victim? (s.segment i) ≠ none := by
  intro hv
  rw [hasRoomAt_of_spare h ha hv] at hroom
  cases hroom

theorem count_ne_zero (h : Steady st s) (hv : Policy.victim? (s.segment i) ≠ none) :
    Policy.count (s.segment i) ≠ 0 :=
  fun hc => hv (Conserving.victim?_eq_none (steady_segment h i) hc)

theorem conserves_evictAt {victim : Option CacheObject} (h : Steady st s)
    (hy : (onSegment i (Policy.evict : Action C _)).Yields s st victim s' st') :
    Conserves st s st' s' ∧ victim = Policy.victim? (s.segment i) := by
  obtain ⟨c, hc, rfl⟩ := yields_onSegment_iff.mp hy
  obtain ⟨k, hv⟩ := Conserving.conserves_evict (steady_segment h i) hc
  exact ⟨conserves_setSegment k, hv⟩

theorem conserves_insertAt {o : Option CacheObject} (h : Steady st s) (hid : r.id ∉ held st s)
    (ha : canAdmit s r.size)
    (hy : (onSegment i (Policy.insert r : Action C _)).Yields s st o s' st') :
    Conserves st s st' s' ∧ r.id ∈ held st' s' := by
  obtain ⟨c, hc, rfl⟩ := yields_onSegment_iff.mp hy
  obtain ⟨k, hin⟩ := Conserving.conserves_insert (steady_segment h i) (notMem_segment hid i)
    (canAdmit_segment h.roomy ha i) hc
  refine ⟨conserves_setSegment k, mem_held_iff.mpr ⟨i, ?_⟩⟩
  rwa [segment_setSegment, if_pos rfl]

/-! ## Chilling and entering -/

variable [Policy.Counted C]

omit [Conserving C] in
theorem shrinks_chill {cooled : Bool} (h : Sound st s)
    (hy : (chill time level).Yields s st cooled s' st') : Shrinks st s st' s' := by
  have hcool : (cool time level).Yields s st () s' st' := by
    rw [cool_eq]
    exact yields_discard_iff.mpr ⟨cooled, hy⟩
  exact (ensures_cool h level).apply hcool

/-- Chilling a level that has a victim takes it out and loses nothing. -/
def Thrifty (C : Type) [Policy C] [Lawful C] [Conserving C] (time : Time) (level : Level top) :
    Prop :=
  ∀ {s s' : Segmented C top} {st st' : Store} {cooled : Bool}, Steady st s →
    Policy.victim? (s.segment level) ≠ none → (chill time level).Yields s st cooled s' st' →
    cooled = true ∧ Conserves st s st' s'

theorem Thrifty.reenter (ht : Thrifty C time dest) (h : Steady st s) (hid : r.id ∉ held st s)
    (ha : canAdmit s r.size) (hy : (reenter time dest r).Yields s st () s' st') :
    Conserves st s st' s' := by
  induction hn : Policy.count (s.segment dest) using Nat.strong_induction_on generalizing s st with
  | _ n ih =>
    rw [reenter_eq] at hy
    unfold reenterRound at hy
    rw [yields_get_bind_iff] at hy
    obtain ⟨room, s₁, st₁, hroom, hy⟩ := yields_bind_iff.mp hy
    obtain ⟨hok, rfl, rfl⟩ := yields_checked_iff.mp hroom
    cases room with
    | true =>
      rw [if_pos rfl] at hy
      obtain ⟨o, hinsert⟩ := yields_discard_iff.mp hy
      exact (conserves_insertAt h hid ha hinsert).1
    | false =>
      have hv := victim?_ne_none h ha hok
      rw [if_neg Bool.false_ne_true, if_neg (count_ne_zero h hv)] at hy
      obtain ⟨cooled, s₂, st₂, hchill, hy⟩ := yields_bind_iff.mp hy
      obtain ⟨rfl, k⟩ := ht h hv hchill
      have hshrinks := shrinks_chill h.toSound hchill
      have hcount := count_chill hchill
      rw [if_pos rfl] at hy
      rw [Bool.toNat_true] at hcount
      have hid' : r.id ∉ held st₂ s₂ := fun hm => hid (hshrinks.held_subset hm)
      have ha' : canAdmit s₂ r.size := by rwa [hshrinks.canAdmit_eq]
      exact k.trans (ih _ (by omega) (h.shrinks hshrinks) hid' ha' hy rfl)

omit [Policy.Counted C] in
theorem thrifty_zero (time : Time) : Thrifty C time (0 : Level top) := by
  intro s s' st st' cooled h hv hy
  rw [chill_zero] at hy
  obtain ⟨victim, s₁, st₁, hevict, h₁⟩ := yields_bind_iff.mp hy
  obtain ⟨k, hvictim⟩ := conserves_evictAt h hevict
  rw [← hvictim] at hv
  obtain ⟨v, rfl⟩ := Option.ne_none_iff_exists'.mp hv
  obtain ⟨_, s₂, st₂, hrecord, h₂⟩ := yields_bind_iff.mp h₁
  obtain ⟨rfl, rfl, rfl⟩ := yields_pure_iff.mp h₂
  exact ⟨rfl, k.trans (conserves_record (SegmentedCounters.sparing_onCore _) hrecord)⟩

theorem thrifty_succ {below : Nat} (hb : below + 1 < top + 1)
    (ih : Thrifty C time (⟨below, Nat.lt_of_succ_lt hb⟩ : Level top)) :
    Thrifty C time (⟨below + 1, hb⟩ : Level top) := by
  intro s s' st st' cooled h hv hy
  rw [chill_succ] at hy
  obtain ⟨victim, s₁, st₁, hevict, h₁⟩ := yields_bind_iff.mp hy
  obtain ⟨hshrinks, hout⟩ := (ensures_evictAt h.toSound _).apply hevict
  obtain ⟨k, hvictim⟩ := conserves_evictAt h hevict
  rw [← hvictim] at hv
  obtain ⟨v, rfl⟩ := Option.ne_none_iff_exists'.mp hv
  obtain ⟨hstock, hgone⟩ := hout v rfl
  obtain ⟨_, s₂, st₂, hrecord, h₂⟩ := yields_bind_iff.mp h₁
  have k₁ := k.trans (conserves_record SegmentedCounters.sparing_recordDemotion hrecord)
  obtain ⟨counters, -, rfl, rfl⟩ := yields_record_iff.mp hrecord
  obtain ⟨_, s₃, st₃, hemit, h₃⟩ := yields_bind_iff.mp h₂
  obtain ⟨rfl, rfl⟩ := yields_emit_iff.mp hemit
  obtain ⟨_, s₄, st₄, hreenter, h₄⟩ := yields_bind_iff.mp h₃
  obtain ⟨rfl, rfl, rfl⟩ := yields_pure_iff.mp h₄
  have hreport := shrinks_report hshrinks.toSound (st₂.events.push (.demoted v.id below)) counters
  have hall := hshrinks.trans hreport
  -- The victim was in stock and is held no more, so it may enter one level down.
  have ha := h.small (v.id, v.size) hstock
  rw [← hall.canAdmit_eq] at ha
  have hid : v.id ∉ held _ _ := fun hm => hgone (hreport.held_subset hm)
  have hrest := ih.reenter (r := Request.readmitting v time) (h.shrinks hall) hid ha hreenter
  exact ⟨rfl, (k₁.trans (Conserves.report _ _ rfl)).trans hrest⟩

theorem thrifty (time : Time) (level : Level top) : Thrifty C time level := by
  obtain ⟨i, hi⟩ := level
  induction i with
  | zero => exact thrifty_zero time
  | succ below ih => exact thrifty_succ hi (ih _)

/-! ## Making room -/

theorem conserves_makeRoomWithin {fuel : Nat} (h : Steady st s) (ha : canAdmit s size)
    (hf : Policy.count (s.segment dest) < fuel)
    (hy : (makeRoomWithin time dest size fuel).Yields s st () s' st') :
    Conserves st s st' s' ∧ s'.hasRoomAt dest size = .ok true := by
  induction fuel generalizing s st with
  | zero => omega
  | succ fuel ih =>
    rcases makeRoomWithin_cases hy with ⟨hok, rfl, rfl⟩ | ⟨hok, hcools⟩
    · exact ⟨Conserves.refl _ _, hok⟩
    · have hv := victim?_ne_none h ha hok
      obtain ⟨hempty, -⟩ | ⟨-, s₁, st₁, hcool, hafter⟩ := hcools
      · exact absurd hempty (count_ne_zero h hv)
      rw [cool_eq] at hcool
      obtain ⟨cooled, hchill⟩ := yields_discard_iff.mp hcool
      obtain ⟨rfl, k⟩ := thrifty time dest h hv hchill
      have hshrinks := shrinks_chill h.toSound hchill
      have hcount := count_chill hchill
      rw [Bool.toNat_true] at hcount
      obtain ⟨hvain, -⟩ | hrest := hafter
      · omega
      have ha' : canAdmit s₁ size := by rwa [hshrinks.canAdmit_eq]
      obtain ⟨hconserves, hok'⟩ := ih (h.shrinks hshrinks) ha' (by omega) hrest
      exact ⟨k.trans hconserves, hok'⟩

theorem conserves_makeRoom (h : Steady st s) (ha : canAdmit s size)
    (hy : (makeRoom time dest size).Yields s st () s' st') :
    Conserves st s st' s' ∧ s'.hasRoomAt dest size = .ok true := by
  unfold makeRoom at hy
  rw [yields_get_bind_iff] at hy
  exact conserves_makeRoomWithin h ha (Nat.lt_succ_self _) hy

end SegmentedCache.Segmented
