import SegmentedCache.Proofs.Segmented.Insertion
import SegmentedCache.Proofs.Segmented.Passes

/-!
# What becomes of a demotion

A demotion waits on the work list of a cooling until the level that it is meant for
takes it in. There are two ways to miss that. The level may be empty and still too
small, which no cooling can help. Or the level holds nothing but orphans: the eviction
that was to make room drops them all and returns nothing, and the demotion is given
up, although the level is now empty.

An operation cools segments only in a promotion, after it has looked the request up
and has taken the object out.
-/
namespace SegmentedCache.Segmented
open SegmentedCache.Action Policy
variable {C : Type} {top : Nat} [Policy C] {time : Time} {p q : Point top}

/-! ## Soundness along a cooling -/

section
variable [Lawful C] {s s' : Segmented C top} {st st' : Store}

theorem ensures_next (h : Sound st s) (hw : Waits st s p.pending) :
    (p.next time).Ensures s st fun next s' st' =>
      ∀ q, next = some q → Moves st s p.pending st' s' q.pending := by
  cases p with
  | cooling level pending =>
    unfold Point.next
    rw [ensures_bind_iff]
    apply (ensures_demote h hw level).mono
    intro pending' s' st' hm q hq
    obtain rfl := Option.some.inj hq
    exact hm
  | settling pending =>
    cases pending with
    | nil =>
      intro q hq
      cases hq
    | cons d rest =>
      obtain ⟨dest, r⟩ := d
      unfold Point.next
      rw [ensures_get_bind]
      apply ensures_checked_bind (sums_hasRoomAt s dest r.size)
      intro room _
      split
      · rw [ensures_bind_iff, ensures_discard]
        apply (ensures_insert_top h hw).mono
        intro _ s' st' hm q hq
        obtain rfl := Option.some.inj hq
        exact hm
      · split
        · rw [ensures_emit_bind, ensures_bind_iff]
          apply ensures_record SegmentedCounters.sums_recordCoolingDrop
          intro counters _ q hq
          obtain rfl := Option.some.inj hq
          exact Moves.of_shrinks
            (shrinks_report h (st.events.push (.demotionDropped r.id dest)) counters) hw
            (List.sublist_cons_self _ _)
        · intro q hq
          obtain rfl := Option.some.inj hq
          exact Moves.refl h hw

/-- What holds of the segments when a cooling starts holds at all its points. -/
theorem Visits.sound {n : ℕ} (hv : Visits time n p s st q s' st') (h : Sound st s)
    (hw : Waits st s p.pending) : Sound st' s' ∧ Waits st' s' q.pending := by
  induction hv with
  | here p s st => exact ⟨h, hw⟩
  | next hy _ ih =>
    have hm := (ensures_next h hw).apply hy _ rfl
    exact ih hm.toSound hm.toWaits

/-- An operation on the cache `s₀` is under way: so far it has looked a request up or
taken an object out in single segments, and cooled some. -/
inductive Underway (s₀ : Segmented C top) (st₀ : Store) : Segmented C top → Store → Prop
  | start : Underway s₀ st₀ s₀ st₀
  | looked {s s' : Segmented C top} {st st' : Store} {i : Level top} {r : Request} {update : Bool}
    {found : Lookup} (h : Underway s₀ st₀ s st)
    (hy : (onSegment i (Policy.check r update)).Yields s st found s' st') : Underway s₀ st₀ s' st'
  | removed {s s' : Segmented C top} {st st' : Store} {i : Level top} {id : ObjectId}
    {o : Option CacheObject} (h : Underway s₀ st₀ s st)
    (hy : (onSegment i (Policy.remove id)).Yields s st o s' st') : Underway s₀ st₀ s' st'
  | cooled {s s' : Segmented C top} {st st' : Store} {level : Level top} {time : Time}
    (h : Underway s₀ st₀ s st) (hy : (cool time level).Yields s st () s' st') :
    Underway s₀ st₀ s' st'

theorem Underway.sound {s₀ : Segmented C top} {st₀ : Store} (h : Underway s₀ st₀ s st)
    (h₀ : Sound st₀ s₀) : Sound st s := by
  induction h with
  | start => exact h₀
  | looked _ hy ih => exact ((ensures_checkAt ih _ _ _).apply hy).1.toSound
  | removed _ hy ih =>
    obtain ⟨c, hc, rfl⟩ := yields_onSegment_iff.mp hy
    have hk := ((Lawful.ensures_remove (sound_segment ih _) _).apply hc).1
    exact (shrinks_setSegment ih hk).toSound
  | cooled _ hy ih => exact ((ensures_cool ih _).apply hy).toSound

end

/-! ## Why a level is cooled -/

/-- A level that is cooled for a demotion holds objects, but has no room. -/
def Point.Needed (s : Segmented C top) : Point top → Prop
  | .cooling level pending => ∀ d ∈ pending.head?, d.1 = level ∧
      s.hasRoomAt level d.2.size = .ok false ∧ Policy.count (s.segment level) ≠ 0
  | .settling _ => True

theorem needed_next {s s' : Segmented C top} {st st' : Store}
    (hy : (p.next time).Yields s st (some q) s' st') : q.Needed s' := by
  cases p with
  | cooling level pending =>
    obtain ⟨pending', s₁, st₁, -, hp⟩ := yields_bind_iff.mp hy
    obtain rfl := Option.some.inj (yields_pure_iff.mp hp).1
    exact trivial
  | settling pending =>
    cases pending with
    | nil => cases (yields_pure_iff.mp hy).1
    | cons d rest =>
      obtain ⟨dest, r⟩ := d
      unfold Point.next at hy
      rw [yields_get_bind_iff] at hy
      obtain ⟨room, s₁, st₁, hr, hy⟩ := yields_bind_iff.mp hy
      obtain ⟨hroom, rfl, rfl⟩ := yields_checked_iff.mp hr
      cases room with
      | true =>
        obtain ⟨_, s₂, st₂, -, hp⟩ := yields_bind_iff.mp hy
        obtain rfl := Option.some.inj (yields_pure_iff.mp hp).1
        exact trivial
      | false =>
        rw [if_neg Bool.false_ne_true] at hy
        by_cases hc : Policy.count (s₁.segment dest) = 0
        · rw [if_pos hc] at hy
          obtain ⟨_, s₂, st₂, -, hd⟩ := yields_bind_iff.mp hy
          obtain ⟨_, s₃, st₃, -, hp⟩ := yields_bind_iff.mp hd
          obtain rfl := Option.some.inj (yields_pure_iff.mp hp).1
          exact trivial
        · rw [if_neg hc] at hy
          obtain ⟨hq, rfl, -⟩ := yields_pure_iff.mp hy
          obtain rfl := Option.some.inj hq
          intro e he
          obtain rfl := Option.some.inj he
          exact ⟨rfl, hroom, hc⟩

theorem Visits.needed {s s' : Segmented C top} {st st' : Store} {n : ℕ}
    (hv : Visits time n p s st q s' st') (hp : p.Needed s) : q.Needed s' := by
  induction hv with
  | here p s st => exact hp
  | next hy _ ih => exact ih (needed_next hy)

/-! ## Fates -/

section
variable {s s' : Segmented Lru top} {st st' : Store}

/-- What one step of a cooling does to the demotions that wait. All stay, or one joins them
that a victim makes, or the topmost is taken in or dropped. -/
inductive Treats (time : Time) (s : Segmented Lru top) (st : Store) (s' : Segmented Lru top)
    (st' : Store) : List (Demotion top) → List (Demotion top) → Prop
  | kept {pending : List (Demotion top)}
    (drops : s'.counters.coolingDrops = s.counters.coolingDrops) :
    Treats time s st s' st' pending pending
  | joined {level below : Level top} {v : CacheObject} {pending : List (Demotion top)}
    (above : level.val = below.val + 1) (victim : v ∈ (s.segment level).objects)
    (resident : st.resident v = true) (left : v ∉ (s'.segment level).objects)
    (drops : s'.counters.coolingDrops = s.counters.coolingDrops) :
    Treats time s st s' st' pending ((below, Request.readmitting v time) :: pending)
  | admitted {dest : Level top} {r : Request} {o : CacheObject} {pending : List (Demotion top)}
    (made : Lru.Made r o) (front : (s'.segment dest).objects.head? = some o)
    (resident : st'.resident o = true)
    (drops : s'.counters.coolingDrops = s.counters.coolingDrops) :
    Treats time s st s' st' ((dest, r) :: pending) pending
  | barred {dest : Level top} {r : Request} {pending : List (Demotion top)}
    (vacant : (s.segment dest).objects = [])
    (large : (s.segment dest).params.capacity.toNat <
      r.size.toNat + (s.segment dest).params.overhead.toNat)
    (drops : s'.counters.coolingDrops.toNat = s.counters.coolingDrops.toNat + 1) :
    Treats time s st s' st' ((dest, r) :: pending) pending
  | stranded {dest : Level top} {r : Request} {pending : List (Demotion top)}
    (full : s.hasRoomAt dest r.size = .ok false) (occupied : (s.segment dest).objects ≠ [])
    (orphans : ∀ o ∈ (s.segment dest).objects, st.resident o = false)
    (vacated : (s'.segment dest).objects = [])
    (drops : s'.counters.coolingDrops.toNat = s.counters.coolingDrops.toNat + 1) :
    Treats time s st s' st' ((dest, r) :: pending) pending

theorem coherent_of_sound (h : Sound st s) (i : Level top) : (s.segment i).Coherent st :=
  Lru.sound_iff.mp (sound_segment h i)

/-- An eviction that has no victim leaves the segment empty. -/
theorem evictAt_cases (h : Sound st s) {level : Level top} {victim : Option CacheObject}
    (hy : (onSegment level (Policy.evict : Action Lru _)).Yields s st victim s' st') :
    s'.counters = s.counters ∧
      (victim = none → (∀ o ∈ (s.segment level).objects, st.resident o = false) ∧
        (s'.segment level).objects = []) ∧
      ∀ v, victim = some v → v ∈ (s.segment level).objects ∧ st.resident v = true ∧
        v ∉ (s'.segment level).objects := by
  obtain ⟨c, hc, rfl⟩ := yields_onSegment_iff.mp hy
  have hcoh := coherent_of_sound h level
  refine ⟨rfl, ?_⟩
  rw [segment_setSegment, if_pos rfl]
  cases (Lru.ensures_evict hcoh).apply hc with
  | nothing orphans hs =>
    refine ⟨fun _ => ⟨orphans, hs.objects_of_append hcoh.toLinked (List.nil_append _).symm⟩, ?_⟩
    intro v hv
    cases hv
  | victim hobj hr _ hs =>
    refine ⟨fun hv => (by cases hv), fun v hv => ?_⟩
    obtain rfl := Option.some.inj hv
    refine ⟨hs.subset _ List.mem_cons_self, hr, fun hm => ?_⟩
    exact (hs.mem_objects_iff.mp hm).2 List.mem_cons_self

theorem treats_demote {level : Level top} {pending pending' : List (Demotion top)} (h : Sound st s)
    (hneed : (Point.cooling level pending).Needed s)
    (hy : (demote time level pending).Yields s st pending' s' st') :
    Treats time s st s' st' pending pending' := by
  unfold demote at hy
  obtain ⟨victim, s₁, st₁, he, hy⟩ := yields_bind_iff.mp hy
  obtain ⟨hcounters, hnone, hsome⟩ := evictAt_cases h he
  have hdrops : s₁.counters.coolingDrops = s.counters.coolingDrops := by rw [hcounters]
  cases victim with
  | none =>
    obtain ⟨horphans, hvacated⟩ := hnone rfl
    cases pending with
    | nil =>
      obtain ⟨rfl, rfl, -⟩ := yields_pure_iff.mp hy
      exact .kept hdrops
    | cons d rest =>
      obtain ⟨dest, r⟩ := d
      obtain ⟨hdest, hfull, hcount⟩ := hneed (dest, r) rfl
      obtain rfl : dest = level := hdest
      obtain ⟨_, s₂, st₂, hemit, hrest⟩ := yields_bind_iff.mp hy
      obtain ⟨rfl, -⟩ := yields_emit_iff.mp hemit
      obtain ⟨_, s₃, st₃, hrecord, hpure⟩ := yields_bind_iff.mp hrest
      obtain ⟨counters, hk, rfl, -⟩ := yields_record_iff.mp hrecord
      obtain ⟨rfl, rfl, -⟩ := yields_pure_iff.mp hpure
      obtain ⟨n, core, hn, -, rfl⟩ := SegmentedCounters.recordCoolingDrop_eq_ok hk
      refine .stranded hfull (fun hnil => hcount ?_) horphans hvacated (hdrops ▸ hn)
      change (s.segment dest).queue.length = 0
      rw [← (coherent_of_sound h dest).length_objects, hnil, List.length_nil]
  | some v =>
    obtain ⟨hv, hr, hleft⟩ := hsome v rfl
    obtain ⟨i, hi⟩ := level
    cases i with
    | zero =>
      obtain ⟨_, s₂, st₂, hrecord, hy⟩ := yields_bind_iff.mp hy
      obtain ⟨counters, hk, rfl, -⟩ := yields_record_iff.mp hrecord
      obtain ⟨rfl, rfl, -⟩ := yields_pure_iff.mp hy
      obtain ⟨core, -, rfl⟩ := SegmentedCounters.onCore_eq_ok hk
      exact .kept hdrops
    | succ below =>
      obtain ⟨_, s₂, st₂, hrecord, hy⟩ := yields_bind_iff.mp hy
      obtain ⟨counters, hk, rfl, -⟩ := yields_record_iff.mp hrecord
      obtain ⟨_, s₃, st₃, hemit, hy⟩ := yields_bind_iff.mp hy
      obtain ⟨rfl, -⟩ := yields_emit_iff.mp hemit
      obtain ⟨rfl, rfl, -⟩ := yields_pure_iff.mp hy
      obtain ⟨n, -, rfl⟩ := SegmentedCounters.recordDemotion_eq_ok hk
      have habove : (⟨below + 1, hi⟩ : Level top).val =
          (⟨below, Nat.lt_of_succ_lt hi⟩ : Level top).val + 1 := rfl
      exact .joined habove hv hr hleft hdrops

/-- An empty segment without room is too small. -/
theorem large_of_vacant {dest : Level top} {size : Bytes} (h : Sound st s)
    (hnil : (s.segment dest).objects = []) (hroom : s.hasRoomAt dest size = .ok false) :
    (s.segment dest).params.capacity.toNat <
      size.toNat + (s.segment dest).params.overhead.toNat := by
  by_contra hle
  have hfits : (s.segment dest).charge size ≤ (s.segment dest).params.capacity := by
    rw [UInt64.le_iff_toNat_le]
    unfold Lru.charge
    rw [Word.toNat_saturatingAdd]
    omega
  have hyes := Lru.hasRoom_of_nil (coherent_of_sound h dest).toCharged hnil hfits
  rw [show Policy.hasRoom (s.segment dest) size = .ok false from hroom] at hyes
  cases hyes

theorem treats_next (h : Sound st s) (hneed : p.Needed s)
    (hy : (p.next time).Yields s st (some q) s' st') :
    Treats time s st s' st' p.pending q.pending := by
  cases p with
  | cooling level pending =>
    obtain ⟨pending', s₁, st₁, hd, hp⟩ := yields_bind_iff.mp hy
    obtain ⟨hq, rfl, rfl⟩ := yields_pure_iff.mp hp
    obtain rfl := Option.some.inj hq
    exact treats_demote h hneed hd
  | settling pending =>
    cases pending with
    | nil => cases (yields_pure_iff.mp hy).1
    | cons d rest =>
      obtain ⟨dest, r⟩ := d
      have hcoh := coherent_of_sound h dest
      unfold Point.next at hy
      rw [yields_get_bind_iff] at hy
      obtain ⟨room, s₁, st₁, hr, hy⟩ := yields_bind_iff.mp hy
      obtain ⟨hroom, rfl, rfl⟩ := yields_checked_iff.mp hr
      cases room with
      | true =>
        obtain ⟨_, s₂, st₂, hi, hp⟩ := yields_bind_iff.mp hy
        obtain ⟨res, hi⟩ := yields_discard_iff.mp hi
        obtain ⟨c, hc, rfl⟩ := yields_onSegment_iff.mp hi
        obtain ⟨hq, rfl, rfl⟩ := yields_pure_iff.mp hp
        obtain rfl := Option.some.inj hq
        have hres := accepts_of_hasRoomAt hroom hi
        cases (Lru.ensures_insert hcoh r).apply hc with
        | refused _ _ => exact absurd rfl hres
        | admitted _ hmade ha _ =>
          refine .admitted hmade ?_ ha.resident_self rfl
          rw [segment_setSegment, if_pos rfl, ha.objects]
          rfl
      | false =>
        rw [if_neg Bool.false_ne_true] at hy
        by_cases hc : Policy.count (s₁.segment dest) = 0
        · rw [if_pos hc] at hy
          obtain ⟨_, s₂, st₂, he, hd⟩ := yields_bind_iff.mp hy
          obtain ⟨-, rfl⟩ := yields_lift_iff.mp he
          obtain ⟨_, s₃, st₃, hr, hp⟩ := yields_bind_iff.mp hd
          obtain ⟨counters, hk, rfl, -⟩ := yields_record_iff.mp hr
          obtain ⟨hq, rfl, -⟩ := yields_pure_iff.mp hp
          obtain rfl := Option.some.inj hq
          have hnil : (s₂.segment dest).objects = [] := by
            apply List.eq_nil_of_length_eq_zero
            rw [hcoh.length_objects]
            exact hc
          obtain ⟨n, core, hn, -, rfl⟩ := SegmentedCounters.recordCoolingDrop_eq_ok hk
          exact .barred hnil (large_of_vacant h hnil hroom) hn
        · rw [if_neg hc] at hy
          obtain ⟨hq, rfl, rfl⟩ := yields_pure_iff.mp hy
          obtain rfl := Option.some.inj hq
          exact .kept rfl

end

end SegmentedCache.Segmented
