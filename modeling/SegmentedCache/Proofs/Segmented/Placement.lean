import SegmentedCache.Proofs.Counting
import SegmentedCache.Proofs.Segmented.Load

/-!
# Where a new object goes

A new object enters the coldest segment that has room for it. If none has, it
enters the coldest of all, after evictions there that end with room or with nothing
left to evict. An object on the move enters the segment that it is bound for, after
that has been cooled. In either case nothing is said about how the segment makes
room inside, so the segments may be of any kind.

Of each loop that makes room the lemmas here say all that one pass can do
(`evictUntilRoom_cases`, `makeRoomWithin_cases`); what a loop does in the end is
proved from them elsewhere, by induction on its fuel.
-/
namespace SegmentedCache.Segmented
open SegmentedCache.Action
variable {C : Type} {top : Nat} [Policy C] {s s' : Segmented C top} {st st' : Store}
variable {size : Bytes} {level dest : Level top} {l : List (Level top)} {time : Time} {fuel : Nat}

/-- The segment that every object has to fit. -/
def coldest (s : Segmented C top) : C := s.segment ⟨0, top.succ_pos⟩

omit [Policy C] in
theorem coldest_eq (s : Segmented C top) : s.coldest = s.segment 0 := rfl

/-- The level that is found has room. -/
theorem hasRoomAt_of_firstWithRoom (h : s.firstWithRoom size l = .ok (some level)) :
    s.hasRoomAt level size = .ok true := by
  induction l with
  | nil => cases h
  | cons i rest ih =>
    obtain ⟨room, hroom, h⟩ := bind_eq_ok_iff.mp h
    cases room with
    | true =>
      rw [if_pos rfl] at h
      rwa [← Option.some.inj (Except.ok.inj h)]
    | false =>
      rw [if_neg Bool.false_ne_true] at h
      exact ih h

/-- A level above the coldest is chosen only if it has room, and then nothing is
evicted. -/
theorem levelFor_cases (h : (levelFor size).Yields s st level s' st') :
    s.hasRoomAt level size = .ok true ∧ s' = s ∧ st' = st ∨
      level = 0 ∧ (evictUntilRoom size (Policy.count (s.segment 0) + 1)).Yields s st () s' st' := by
  unfold levelFor at h
  rw [yields_get_bind_iff] at h
  obtain ⟨found, s₁, st₁, hfound, hchosen⟩ := yields_bind_iff.mp h
  obtain ⟨hok, rfl, rfl⟩ := yields_checked_iff.mp hfound
  dsimp only at hchosen
  split at hchosen
  next hzero =>
    obtain ⟨_, s₂, st₂, hevict, hpure⟩ := yields_bind_iff.mp hchosen
    obtain ⟨rfl, rfl, rfl⟩ := yields_pure_iff.mp hpure
    exact .inr ⟨hzero, hevict⟩
  next hne =>
    obtain ⟨rfl, rfl, rfl⟩ := yields_pure_iff.mp hchosen
    cases found with
    | none => exact absurd rfl hne
    | some i => exact .inl ⟨hasRoomAt_of_firstWithRoom hok, rfl, rfl⟩

/-! ## Making room -/

/-- An eviction is one from the coldest segment, counted if there was a victim. -/
theorem evict_cases {victim : Option CacheObject}
    (h : (evict : Action (Segmented C top) _).Yields s st victim s' st') :
    ∃ s₁, (onSegment 0 (Policy.evict : Action C _)).Yields s st victim s₁ st' ∧
      (victim = none ∧ s' = s₁ ∨
        ∃ v counters, victim = some v ∧
          s₁.counters.onCore Counters.recordEviction = .ok counters ∧ s' = { s₁ with counters }) := by
  unfold evict at h
  obtain ⟨answer, s₁, st₁, hevict, hafter⟩ := yields_bind_iff.mp h
  cases answer with
  | none =>
    obtain ⟨rfl, rfl, rfl⟩ := yields_pure_iff.mp hafter
    exact ⟨s', hevict, .inl ⟨rfl, rfl⟩⟩
  | some v =>
    obtain ⟨_, s₂, st₂, hrecord, hpure⟩ := yields_bind_iff.mp hafter
    obtain ⟨counters, hcounters, rfl, rfl⟩ := yields_record_iff.mp hrecord
    obtain ⟨rfl, rfl, rfl⟩ := yields_pure_iff.mp hpure
    exact ⟨s₁, hevict, .inr ⟨v, counters, rfl, hcounters, rfl⟩⟩

/-- One pass finds room, or evicts nothing and ends, or evicts an object and goes on. -/
theorem evictUntilRoom_cases (h : (evictUntilRoom size (fuel + 1)).Yields s st () s' st') :
    s.hasRoomAt 0 size = .ok true ∧ s' = s ∧ st' = st ∨
      s.hasRoomAt 0 size = .ok false ∧
        ((evict : Action (Segmented C top) _).Yields s st none s' st' ∨
          ∃ v s₁ st₁, (evict : Action (Segmented C top) _).Yields s st (some v) s₁ st₁ ∧
            (evictUntilRoom size fuel).Yields s₁ st₁ () s' st') := by
  unfold evictUntilRoom at h
  rw [yields_get_bind_iff] at h
  obtain ⟨room, s₁, st₁, hroom, h⟩ := yields_bind_iff.mp h
  obtain ⟨hok, rfl, rfl⟩ := yields_checked_iff.mp hroom
  cases room with
  | true =>
    obtain ⟨-, rfl, rfl⟩ := yields_pure_iff.mp h
    exact .inl ⟨hok, rfl, rfl⟩
  | false =>
    obtain ⟨victim, s₂, st₂, hevict, hrest⟩ := yields_bind_iff.mp h
    cases victim with
    | none =>
      obtain ⟨-, rfl, rfl⟩ := yields_pure_iff.mp hrest
      exact .inr ⟨hok, .inl hevict⟩
    | some v => exact .inr ⟨hok, .inr ⟨v, s₂, st₂, hevict, hrest⟩⟩

/-- One pass finds room, or nothing to cool, or cools in vain and ends, or cools and goes
on. -/
theorem makeRoomWithin_cases (h : (makeRoomWithin time dest size (fuel + 1)).Yields s st () s' st') :
    s.hasRoomAt dest size = .ok true ∧ s' = s ∧ st' = st ∨
      s.hasRoomAt dest size = .ok false ∧
        (Policy.count (s.segment dest) = 0 ∧ s' = s ∧ st' = st ∨
          Policy.count (s.segment dest) ≠ 0 ∧ ∃ s₁ st₁, (cool time dest).Yields s st () s₁ st₁ ∧
            (Policy.count (s.segment dest) ≤ Policy.count (s₁.segment dest) ∧ s' = s₁ ∧ st' = st₁ ∨
              (makeRoomWithin time dest size fuel).Yields s₁ st₁ () s' st')) := by
  unfold makeRoomWithin at h
  rw [yields_get_bind_iff] at h
  obtain ⟨room, s₁, st₁, hroom, h⟩ := yields_bind_iff.mp h
  obtain ⟨hok, rfl, rfl⟩ := yields_checked_iff.mp hroom
  cases room with
  | true =>
    obtain ⟨-, rfl, rfl⟩ := yields_pure_iff.mp h
    exact .inl ⟨hok, rfl, rfl⟩
  | false =>
    rw [if_neg Bool.false_ne_true] at h
    dsimp only at h
    refine .inr ⟨hok, ?_⟩
    split at h
    next hzero =>
      obtain ⟨-, rfl, rfl⟩ := yields_pure_iff.mp h
      exact .inl ⟨hzero, rfl, rfl⟩
    next hsome =>
      obtain ⟨_, s₂, st₂, hcool, hrest⟩ := yields_bind_iff.mp h
      refine .inr ⟨hsome, s₂, st₂, hcool, ?_⟩
      rw [yields_get_bind_iff] at hrest
      split at hrest
      next hvain =>
        obtain ⟨-, rfl, rfl⟩ := yields_pure_iff.mp hrest
        exact .inl ⟨hvain, rfl, rfl⟩
      next => exact .inr hrest

end SegmentedCache.Segmented
