import SegmentedCache.Proofs.Lru.Lookup
import SegmentedCache.Proofs.Policy.Lawful

/-!
# The least-recently-used policy is lawful

A least-recently-used cache is its own and only leaf, so it is sound exactly if
it is coherent.
-/
namespace SegmentedCache.Lru
open SegmentedCache.Action Policy
variable {st st' : Store} {c c' : Lru} {o : CacheObject} {gone : List CacheObject}

instance : Composed Lru where
  leaves c := [c]
  Fits _ := True
  Roomy _ := True

theorem together_singleton : Together st [c] ↔ c.Linked st := by
  constructor
  · intro h
    exact h.linked c (List.mem_singleton_self c)
  · intro h
    refine ⟨fun d hd => ?_, List.pairwise_singleton ..⟩
    rw [List.mem_singleton.mp hd]
    exact h

theorem sound_iff : Sound st c ↔ c.Coherent st := by
  constructor
  · intro h
    exact h.coherent (List.mem_singleton_self c)
  · intro h
    refine ⟨together_singleton.mpr h.toLinked, fun d hd => ?_, List.pairwise_singleton ..⟩
    rw [List.mem_singleton.mp hd]
    exact h.toCharged

theorem held_eq (st : Store) (c : Lru) : Policy.held st c = c.ids st := held_singleton

theorem mem_stock_iff {id : ObjectId} {size : Bytes} :
    (id, size) ∈ Policy.stock st c ↔ ∃ o, c.find? st id = some o ∧ o.size = size := by
  constructor
  · intro ⟨d, hd, o, ho, hsize⟩
    rw [List.mem_singleton.mp hd] at ho
    exact ⟨o, ho, hsize⟩
  · intro ⟨o, ho, hsize⟩
    exact ⟨c, List.mem_singleton_self c, o, ho, hsize⟩

theorem stock_subset_of_find? (h : ∀ id o, c'.find? st' id = some o → c.find? st id = some o) :
    Policy.stock st' c' ⊆ Policy.stock st c := by
  intro x hx
  obtain ⟨o, ho, hsize⟩ := mem_stock_iff.mp hx
  exact mem_stock_iff.mpr ⟨o, h x.1 o ho, hsize⟩

theorem tidy_iff : Tidy st c ↔ ∀ o ∈ c.objects, st.resident o = true := by
  constructor
  · intro h
    exact h c (List.mem_singleton_self c)
  · intro h d hd
    rw [List.mem_singleton.mp hd]
    exact h

theorem kept_of_confined (h : c'.Coherent st') (hc : Confined st [c] st' [c'])
    (hp : c'.params = c.params)
    (ht : (∀ o ∈ c.objects, st.resident o = true) → ∀ o ∈ c'.objects, st'.resident o = true) :
    Kept st c st' c' where
  toSound := sound_iff.mpr h
  confined := hc
  capacity := congrArg Params.capacity hp
  overhead := congrArg Params.overhead hp
  limit := congrArg Params.capacity hp
  fits hf := hf
  roomy hr := hr
  tidy h := tidy_iff.mpr (ht (tidy_iff.mp h))

theorem Sheds.shrinks (h : Sheds gone st c st' c') (hc : c.Linked st) : Shrinks st c st' c' := by
  refine ⟨kept_of_confined h.coherent h.confined h.params fun ht o ho => ?_,
    stock_subset_of_find? fun id o ho => ?_⟩
  · obtain ⟨ho, hg⟩ := h.mem_objects_iff.mp ho
    rw [h.resident o (hc.issued ho), ht o ho, decide_eq_true hg, Bool.and_true]
  · rw [h.find?_eq hc, Option.filter_eq_some_iff] at ho
    exact ho.1

theorem Admits.kept (h : Admits o gone st c st' c') (hc : c.Linked st) : Kept st c st' c' := by
  apply kept_of_confined h.coherent h.confined h.params
  intro ht p hp
  rw [h.objects, List.mem_cons, List.mem_filter, decide_eq_true_eq] at hp
  rcases hp with rfl | ⟨hp, hg⟩
  · exact h.resident_self
  · rw [h.resident p (hc.issued hp), ht p hp, decide_eq_true hg, Bool.and_true]

theorem Admits.stock_subset (h : Admits o gone st c st' c') (hc : c.Linked st) :
    Policy.stock st' c' ⊆ Policy.stock st c ∪ {(o.id, o.size)} := by
  intro x hx
  obtain ⟨p, hp, hsize⟩ := mem_stock_iff.mp hx
  obtain ⟨hm, hr, hid⟩ := h.find?_eq_some_iff_mem.mp hp
  rw [h.objects, List.mem_cons] at hm
  rcases hm with rfl | hm
  · exact .inr (Prod.ext hid.symm hsize.symm)
  · have hm := List.mem_of_mem_filter hm
    have hr := h.confined.falls p (hc.issued hm) hr
    exact .inl (mem_stock_iff.mpr ⟨p, hc.find?_eq_some_iff_mem.mpr ⟨hm, hr, hid⟩, hsize⟩)

theorem Touches.shrinks (h : Touches o st c c') : Shrinks st c st c' := by
  refine ⟨kept_of_confined h.coherent h.confined h.params fun ht p hp => ?_,
    stock_subset_of_find? fun id p hp => ?_⟩
  · exact ht p (h.mem_objects_iff.mp hp)
  · unfold find? at *
    rwa [h.index] at hp

/-- Counting keeps everything. -/
theorem shrinks_counters (h : c.Coherent st) (counters : LruCounters) :
    Shrinks st c st { c with counters } :=
  (Sheds.report h st.events counters).shrinks h.toLinked

theorem Checked.shrinks {r : Request} {update : Bool} {found : Lookup} (h : c.Coherent st)
    (hc : Checked r update st c found c' st') : Shrinks st c st' c' := by
  cases hc with
  | miss _ => exact Shrinks.refl (sound_iff.mpr h)
  | expired _ _ hs => exact hs.shrinks h.toLinked
  | hit _ _ ht =>
    cases update with
    | false =>
      obtain rfl := ht
      exact Shrinks.refl (sound_iff.mpr h)
    | true => exact Touches.shrinks ht

theorem Inserted.kept {r : Request} {res : Option CacheObject} (h : c.Coherent st)
    (hi : Inserted r st c res c' st') :
    Kept st c st' c' ∧ Policy.stock st' c' ⊆ Policy.stock st c ∪ {(r.id, r.size)} := by
  cases hi with
  | refused _ hs =>
    have hs := hs.shrinks h.toLinked
    exact ⟨hs.toKept, hs.stock_subset.trans Set.subset_union_left⟩
  | admitted _ hm ha _ =>
    refine ⟨ha.kept h.toLinked, ?_⟩
    rw [← hm.id, ← hm.size]
    exact ha.stock_subset h.toLinked

theorem ensures_serve (h : c.Coherent st) (r : Request) :
    (serve r).Ensures c st fun _ c' st' => Kept st c st' c' ∧
      Policy.stock st' c' ⊆ Policy.stock st c ∪ {x | x = (r.id, r.size) ∧ canAdmit c r.size} := by
  unfold serve
  rw [ensures_bind_iff]
  apply (ensures_check h r true).mono
  intro found c₁ st₁ hc
  have hs₁ := hc.shrinks h
  rw [ensures_bind_iff]
  apply ensures_recordCore (fun k => k.sums_recordLookup r.size found)
  intro counters _
  have hs₂ := hs₁.trans (shrinks_counters (sound_iff.mp hs₁.toSound) counters)
  split
  next hmiss =>
    rw [ensures_get_bind]
    dsimp only
    split
    next hle =>
      rw [ensures_bind_iff, ensures_discard]
      apply (ensures_insert (sound_iff.mp hs₂.toSound) r).mono
      intro res c₃ st₃ hin
      obtain ⟨hk₃, hi₃⟩ := hin.kept (sound_iff.mp hs₂.toSound)
      refine ⟨hs₂.toKept.trans hk₃, hi₃.trans (Set.union_subset_union hs₂.stock_subset ?_)⟩
      rw [← hs₂.canAdmit_eq]
      exact fun x hx => ⟨hx, decide_eq_true hle⟩
    next =>
      rw [ensures_emit_bind, ensures_pure]
      exact ⟨hs₂.toKept.trans (Kept.events hs₂.toSound _),
        hs₂.stock_subset.trans Set.subset_union_left⟩
  next => exact ⟨hs₂.toKept, hs₂.stock_subset.trans Set.subset_union_left⟩

theorem Evicted.shrinks {victim : Option CacheObject} (h : c.Coherent st)
    (he : Evicted st c victim c' st') : Shrinks st c st' c' ∧
      ∀ o, victim = some o → (o.id, o.size) ∈ Policy.stock st c ∧ o.id ∉ Policy.held st' c' := by
  rw [held_eq]
  cases he with
  | nothing _ hs => exact ⟨hs.shrinks h.toLinked, fun o ho => by cases ho⟩
  | @victim _ _ v kept orphans hobj hr _ hs =>
    refine ⟨hs.shrinks h.toLinked, fun o ho => ?_⟩
    obtain rfl := Option.some.inj ho
    have hv : v ∈ c.objects := by simp [hobj]
    exact ⟨mem_stock_iff.mpr ⟨v, h.find?_eq_some_iff_mem.mpr ⟨hv, hr, rfl⟩, rfl⟩,
      hs.notMem_ids h.toLinked List.mem_cons_self hr⟩

theorem Removed.shrinks {id : ObjectId} {removed : Option CacheObject} (h : c.Coherent st)
    (hr : Removed id st c removed c' st') : Shrinks st c st' c' ∧
      id ∉ Policy.held st' c' ∧
      ∀ o, removed = some o → o.id = id ∧ (o.id, o.size) ∈ Policy.stock st c := by
  rw [held_eq]
  cases hr with
  | absent hf hs =>
    refine ⟨hs.shrinks h.toLinked, fun hid => ?_, fun o ho => by cases ho⟩
    obtain ⟨o, ho⟩ := mem_ids_iff.mp (hs.ids_subset h.toLinked hid)
    rw [hf] at ho
    cases ho
  | @taken _ _ p hf hs =>
    obtain ⟨-, hres, hid⟩ := h.find?_eq_some_iff_mem.mp hf
    refine ⟨hs.shrinks h.toLinked, ?_, fun o ho => ?_⟩
    · rw [← hid]
      exact hs.notMem_ids h.toLinked (List.mem_singleton_self p) hres
    · obtain rfl := Option.some.inj ho
      exact ⟨hid, mem_stock_iff.mpr ⟨p, hid ▸ hf, rfl⟩⟩

instance lawful : Lawful Lru where
  contains_iff st c id := by
    rw [held_eq]
    rfl
  sums_occupied c := Word.sums_pure c.occupied
  occupied_le {c} h _ := by
    have hc := h c (List.mem_singleton_self c)
    exact ⟨c.occupied, rfl, UInt64.le_iff_toNat_le.mpr hc.within⟩
  ensures_check {st c} h r update := by
    have hc := sound_iff.mp h
    apply (ensures_check hc r update).mono
    intro found c' st' hk
    refine ⟨hk.shrinks hc, fun hit => ?_⟩
    rw [held_eq]
    cases hk with
    | miss => cases hit
    | expired => cases hit
    | hit hf => exact mem_ids_iff.mpr ⟨_, hf⟩
  ensures_serve h r := ensures_serve (sound_iff.mp h) r
  ensures_insert h r := by
    have hc := sound_iff.mp h
    exact (ensures_insert hc r).mono fun res c' st' hk => hk.kept hc
  ensures_evict h := by
    have hc := sound_iff.mp h
    exact (ensures_evict hc).mono fun victim c' st' hk => hk.shrinks hc
  ensures_remove h id := by
    have hc := sound_iff.mp h
    exact (ensures_remove hc id).mono fun removed c' st' hk => hk.shrinks hc
  ensures_release {st c} h := by
    obtain ⟨_, c', st', hy, hd⟩ := (runs_release (together_singleton.mp h)).yields id
    exact .of_yields hy ⟨together_singleton.mpr hd.linked, hd.confined⟩

end SegmentedCache.Lru
