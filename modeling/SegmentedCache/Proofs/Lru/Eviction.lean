import SegmentedCache.Proofs.Lru.Shedding

/-!
# Eviction and making room

Evictions take objects off the back of the queue until one was resident. The
orphans met on the way are shed with it, so a cache that has nothing to evict
ends up empty. Making room sheds objects until a further charge is within the
capacity, which always succeeds for a charge that is.
-/
namespace SegmentedCache.Lru
open SegmentedCache.Action
variable {st st' : Store} {c c' : Lru} {o : CacheObject} {charge : Bytes}

/-- What an eviction returns and leaves. -/
inductive Evicted (st : Store) (c : Lru) : Option CacheObject → Lru → Store → Prop
  | nothing {c' : Lru} {st' : Store} (orphans : ∀ o ∈ c.objects, st.resident o = false)
    (sheds : Sheds c.objects st c st' c') : Evicted st c none c' st'
  | victim {c' : Lru} {st' : Store} {o : CacheObject} {kept orphans : List CacheObject}
    (objects : c.objects = kept ++ o :: orphans) (resident : st.resident o = true)
    (behind : ∀ p ∈ orphans, st.resident p = false)
    (sheds : Sheds (o :: orphans) st c st' c') : Evicted st c (some o) c' st'

theorem Sheds.length_le {gone : List CacheObject} (h : Sheds gone st c st' c') :
    c'.objects.length ≤ c.objects.length := by
  rw [h.objects]
  exact List.length_filter_le ..

theorem Sheds.length_lt {gone : List CacheObject} (h : Sheds gone st c st' c') (ho : o ∈ gone) :
    c'.objects.length < c.objects.length := by
  rw [h.objects]
  exact List.length_filter_lt_length_iff_exists.mpr ⟨o, h.subset o ho, by simp [ho]⟩

/-- An orphan at the back leaves before the eviction proper. -/
theorem Evicted.of_orphan {r : Option CacheObject} {kept : List CacheObject} {st₁ : Store}
    {c₁ : Lru} (h : c.Linked st) (hc : c.objects = kept ++ [o]) (hr : st.resident o = false)
    (hs : Sheds [o] st c st₁ c₁) (hk : Evicted st₁ c₁ r c' st') : Evicted st c r c' st' := by
  have hobj : c₁.objects = kept := hs.objects_of_append h hc
  have hres : ∀ p ∈ kept, st₁.resident p = st.resident p := by
    intro p hp
    have hpo : p ∉ [o] := by
      rw [← hobj, hs.mem_objects_iff] at hp
      exact hp.2
    have hpc : p ∈ c.objects := by
      rw [hc]
      exact List.mem_append_left _ hp
    rw [hs.resident p (h.issued hpc), decide_eq_true hpo, Bool.and_true]
  cases hk with
  | nothing ho hs' =>
    rw [hobj] at ho hs'
    refine .nothing (fun p hp => ?_) ((hs.trans hs').congr fun p => ?_)
    · rw [hc, List.mem_append, List.mem_singleton] at hp
      rcases hp with hp | rfl
      · rw [← hres p hp]
        exact ho p hp
      · exact hr
    · rw [hc]
      simp [or_comm]
  | @victim _ _ v kept' orphans hobj' hv ho hs' =>
    rw [hobj] at hobj'
    have hmem : ∀ p ∈ v :: orphans, p ∈ kept := fun p hp => hobj' ▸ List.mem_append_right _ hp
    have hrv : st.resident v = true := by
      rw [← hres v (hmem v List.mem_cons_self)]
      exact hv
    refine .victim (by rw [hc, hobj', List.append_assoc, List.cons_append]) hrv (fun p hp => ?_)
      ((hs.trans hs').congr fun p => ?_)
    · rw [List.mem_append, List.mem_singleton] at hp
      rcases hp with hp | rfl
      · rw [← hres p (hmem p (List.mem_cons_of_mem _ hp))]
        exact ho p hp
      · exact hr
    · simp only [List.mem_cons, List.mem_append, List.not_mem_nil, or_false]
      tauto

theorem ensures_evictWithin (fuel : Nat) (h : c.Coherent st) (hf : c.objects.length ≤ fuel) :
    (evictWithin fuel).Ensures c st (Evicted st c) := by
  induction fuel generalizing c st with
  | zero =>
    have hnil : c.objects = [] := List.length_eq_zero_iff.mp (Nat.le_zero.mp hf)
    exact .nothing (by simp [hnil]) (hnil ▸ Sheds.refl h)
  | succ fuel ih =>
    unfold evictWithin
    rw [ensures_get_bind, h.back?_eq]
    rcases List.eq_nil_or_concat' c.objects with hnil | ⟨kept, o, hc⟩
    · rw [hnil, List.getLast?_nil, ensures_pure]
      exact .nothing (by simp [hnil]) (hnil ▸ Sheds.refl h)
    · rw [hc, List.getLast?_concat]
      have ho : o ∈ c.objects := by simp [hc]
      obtain ⟨c₁, st₁, hy, hs, -⟩ := unlink_of_mem h ho
      dsimp only
      rw [ensures_getThe_bind, ensures_bind_of_yields hy, if_pos rfl]
      cases hr : st.resident o with
      | true =>
        rw [if_pos rfl, ensures_bind_iff]
        apply ensures_recordCore Counters.sums_recordEviction
        intro counters _
        rw [ensures_emit_bind, ensures_pure]
        exact .victim hc hr (by simp) (hs.then_report _ _)
      | false =>
        rw [if_neg Bool.false_ne_true]
        have hlt := hs.length_lt (List.mem_singleton_self o)
        apply (ih hs.coherent (by omega)).mono
        intro r c' st' hk
        exact hk.of_orphan h.toLinked hc hr hs

theorem ensures_evict (h : c.Coherent st) : evict.Ensures c st (Evicted st c) := by
  unfold evict
  rw [ensures_get_bind]
  exact ensures_evictWithin _ h h.length_objects.le

/-- What an eviction leaves is the front of the queue. -/
theorem Evicted.front {r : Option CacheObject} (h : c.Linked st) (he : Evicted st c r c' st') :
    c'.objects <+: c.objects := by
  cases he with
  | nothing _ hs =>
    rw [hs.objects_of_append h (List.nil_append _).symm]
    exact List.nil_prefix
  | victim hobj _ _ hs =>
    rw [hs.objects_of_append h hobj, hobj]
    exact List.prefix_append ..

theorem Evicted.sheds {r : Option CacheObject} (he : Evicted st c r c' st') :
    ∃ gone, Sheds gone st c st' c' := by
  cases he with
  | nothing _ hs => exact ⟨_, hs⟩
  | victim _ _ _ hs => exact ⟨_, hs⟩

/-! ## Making room -/

/-- There is room afterwards, it was made from the back, and nothing is shed where there was
room before. -/
theorem ensures_makeRoomWithin (fuel : Nat) (h : c.Coherent st) (hc : charge ≤ c.params.capacity)
    (hf : c.objects.length < fuel) :
    (makeRoomWithin charge fuel).Ensures c st fun _ c' st' => ∃ gone, Sheds gone st c st' c' ∧
      c'.occupied.toNat + charge.toNat ≤ c'.params.capacity.toNat ∧
      c'.objects <+: c.objects ∧
      (Word.saturatingAdd c.occupied charge ≤ c.params.capacity → gone = []) := by
  induction fuel generalizing c st with
  | zero => cases hf
  | succ fuel ih =>
    unfold makeRoomWithin
    rw [ensures_get_bind]
    apply ensures_checked_bind (Word.sums_add _ _)
    intro total ht
    have hsum := Word.saturatingAdd_of_add ht
    rw [Word.add_eq_ok_iff] at ht
    split
    next hgt =>
      have hfull : ¬ Word.saturatingAdd c.occupied charge ≤ c.params.capacity := by
        rw [hsum]
        exact UInt64.not_le.mpr hgt
      rw [ensures_bind_iff]
      apply (ensures_evict h).mono
      intro r c₁ st₁ hv
      have hfront := hv.front h.toLinked
      cases hv with
      | nothing _ hs =>
        have hnil : c₁.objects = [] := by
          rw [hs.objects]
          exact List.filter_eq_nil_iff.mpr fun o ho => by simpa using ho
        have hzero : c₁.occupied.toNat = 0 := by
          rw [hs.occupied, hnil]
          rfl
        refine ensures_pure.mpr ⟨_, hs, ?_, hfront, fun hle => absurd hle hfull⟩
        rw [hzero, hs.params, Nat.zero_add]
        exact UInt64.le_iff_toNat_le.mp hc
      | victim _ _ _ hs =>
        have hlt := hs.length_lt List.mem_cons_self
        apply (ih hs.coherent (by rwa [hs.params]) (by omega)).mono
        intro _ c' st' hk
        obtain ⟨gone, hk, hroom, hfront', -⟩ := hk
        exact ⟨_, hs.trans hk, hroom, hfront'.trans hfront, fun hle => absurd hle hfull⟩
    next hle =>
      have hle := UInt64.le_iff_toNat_le.mp (UInt64.not_lt.mp hle)
      exact ⟨[], Sheds.refl h, by omega, List.prefix_rfl, fun _ => rfl⟩

theorem ensures_makeRoom (h : c.Coherent st) (hc : charge ≤ c.params.capacity) :
    (makeRoom charge).Ensures c st fun _ c' st' => ∃ gone, Sheds gone st c st' c' ∧
      c'.occupied.toNat + charge.toNat ≤ c'.params.capacity.toNat ∧
      c'.objects <+: c.objects ∧
      (Word.saturatingAdd c.occupied charge ≤ c.params.capacity → gone = []) := by
  unfold makeRoom
  rw [ensures_get_bind]
  exact ensures_makeRoomWithin _ h hc (Nat.lt_succ_of_le h.length_objects.le)

/-! ## Orphans -/

theorem dropOrphans_of_subset {l : List CacheObject} (h : c.Coherent st) (hl : l.Nodup)
    (hsub : ∀ o ∈ l, o ∈ c.objects) :
    ∃ c' st', (dropOrphans l).Yields c st () c' st' ∧ Sheds l st c st' c' := by
  induction l generalizing c st with
  | nil => exact ⟨c, st, rfl, Sheds.refl h⟩
  | cons o l ih =>
    obtain ⟨hol, hl⟩ := List.nodup_cons.mp hl
    have hr := Sheds.report h (st.events.push (.orphanDropped o.id)) c.counters
    obtain ⟨c₁, st₁, hy, hs, -⟩ := unlink_of_mem hr.coherent (hsub o List.mem_cons_self)
    have hsub' : ∀ p ∈ l, p ∈ c₁.objects := by
      intro p hp
      rw [hs.mem_objects_iff]
      refine ⟨hsub p (List.mem_cons_of_mem _ hp), fun hpo => ?_⟩
      rw [List.mem_singleton] at hpo
      exact hol (hpo ▸ hp)
    obtain ⟨c', st', hy', hs'⟩ := ih hs.coherent hl hsub'
    refine ⟨c', st', ?_, ((hr.trans hs).trans hs').congr fun p => by simp⟩
    unfold dropOrphans
    rw [yields_bind_iff]
    refine ⟨(), c, { st with events := st.events.push (.orphanDropped o.id) }, rfl, ?_⟩
    rw [yields_bind_iff]
    refine ⟨PUnit.unit, c₁, st₁, ?_, hy'⟩
    unfold Yields
    rw [discard_apply, show unlink o c _ = _ from hy]

theorem purge_yields (h : c.Coherent st) :
    ∃ c' st', purge.Yields c st () c' st' ∧ Sheds (c.orphans st) st c st' c' :=
  dropOrphans_of_subset h (h.nodup.filter _) fun _ ho => List.mem_of_mem_filter ho

/-! ## What an admission displaces -/

/-- Before it admits `id`, the cache sees no sign that its index was written from outside. -/
def overlooks (st : Store) (c : Lru) (id : ObjectId) : Bool :=
  match c.entry? st id with
  | some old => st.resident old
  | none => decide (c.queue.length ≤ (st.index c.index).count)

/-- What leaves before `id` is admitted, whether room is needed or not. -/
def displaced (st : Store) (c : Lru) (id : ObjectId) : List CacheObject :=
  if c.overlooks st id then (c.find? st id).toList else c.orphans st

theorem displace_sheds (h : c.Coherent st) (r : Request) :
    ∃ c' st', (displace r).Yields c st () c' st' ∧ Sheds (c.displaced st r.id) st c st' c' := by
  obtain ⟨c₁, st₁, hpurge, hs₁⟩ := purge_yields h
  unfold Yields displace displaced overlooks
  simp only [bind_apply, get_apply, getThe_apply]
  cases he : c.entry? st r.id with
  | none =>
    rw [show (st.index c.index).find? r.id = none from he]
    dsimp only
    by_cases hlen : (st.index c.index).count < c.queue.length
    · rw [if_pos hlen, decide_eq_false (Nat.not_le.mpr hlen), if_neg Bool.false_ne_true]
      exact ⟨c₁, st₁, hpurge, hs₁⟩
    · have hnone : c.find? st r.id = none := by
        change (c.entry? st r.id).filter st.resident = none
        rw [he, Option.filter_none]
      rw [if_neg hlen, decide_eq_true (Nat.not_lt.mp hlen), if_pos rfl, hnone]
      exact ⟨c, st, rfl, Sheds.refl h⟩
  | some old =>
    rw [show (st.index c.index).find? r.id = some old from he]
    dsimp only
    by_cases hr : st.resident old = true
    · obtain ⟨c', st', hy, hs, -⟩ := unlink_of_mem h (h.queued he hr)
      refine ⟨c', st', ?_, ?_⟩
      · rw [if_pos hr, discard_apply, show unlink old c st = _ from hy]
      · rwa [if_pos hr, find?_eq_some_iff.mpr ⟨he, hr⟩]
    · rw [if_neg hr, if_neg hr]
      exact ⟨c₁, st₁, hpurge, hs₁⟩

/-- A cached object with the id is displaced. -/
theorem mem_displaced_of_find? {id : ObjectId} (h : c.find? st id = some o) :
    o ∈ c.displaced st id := by
  obtain ⟨he, hr⟩ := find?_eq_some_iff.mp h
  unfold displaced overlooks
  simp only [he, hr, h, if_true, Option.toList_some, List.mem_singleton]

theorem of_mem_displaced {id : ObjectId} (h : o ∈ c.displaced st id) :
    o ∈ c.orphans st ∨ o.id = id := by
  unfold displaced at h
  split at h
  · rw [Option.mem_toList] at h
    right
    exact id_of_entry? (find?_eq_some_iff.mp h).1
  · left
    exact h

theorem Sheds.notMem_ids_displaced {id : ObjectId} (h : Sheds (c.displaced st id) st c st' c')
    (hc : c.Linked st) : id ∉ c'.ids st' := by
  intro hid
  obtain ⟨o, ho⟩ := mem_ids_iff.mp hid
  rw [h.find?_eq hc, Option.filter_eq_some_iff, decide_eq_true_eq] at ho
  exact ho.2 (mem_displaced_of_find? ho.1)

/-- The cached object that a request replaces is shed; apart from it only
orphans are. -/
theorem displace_yields (h : c.Coherent st) (r : Request) :
    ∃ c' st' gone, (displace r).Yields c st () c' st' ∧ Sheds gone st c st' c' ∧
      r.id ∉ c'.ids st' ∧ ∀ o ∈ gone, o ∈ c.orphans st ∨ o.id = r.id := by
  obtain ⟨c', st', hy, hs⟩ := displace_sheds h r
  exact ⟨c', st', _, hy, hs, hs.notMem_ids_displaced h.toLinked, fun o ho => of_mem_displaced ho⟩

end SegmentedCache.Lru
