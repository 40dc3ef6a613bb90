import SegmentedCache.Proofs.Lru.Lawful

/-!
# Tidy caches as lists

While nobody else writes to its index, a least-recently-used cache queues
resident objects only, and its queue alone says what an operation does. An
eviction takes the last object. An insertion for which there is room puts the
new object in front of the others. A removal takes out the one object with the
id, and a hit moves it to the front.
-/
namespace SegmentedCache.Lru
open Policy
variable {st st' : Store} {c c' : Lru} {o p : CacheObject} {id : ObjectId}

/-- The ids and sizes of the queued objects, most recently used first. -/
def keys (c : Lru) : List (ObjectId × Bytes) := c.objects.map fun o => (o.id, o.size)

/-- There is room for an object if its charge fits on top of the byte total. -/
theorem hasRoom_eq (c : Lru) (size : Bytes) :
    hasRoom c size =
      .ok (decide (Word.saturatingAdd c.occupied (c.charge size) ≤ c.params.capacity)) := by
  change Except.ok (decide (Word.saturatingAdd (Word.saturatingAdd c.occupied size)
    c.params.overhead ≤ c.params.capacity)) = _
  rw [Word.saturatingAdd_assoc]
  rfl

/-- An empty cache has room for every charge within its capacity. -/
theorem hasRoom_of_nil (h : c.Charged) (hc : c.objects = []) {size : Bytes}
    (hle : c.charge size ≤ c.params.capacity) : hasRoom c size = .ok true := by
  have hzero : c.occupied.toNat = 0 := by
    rw [h.occupied, hc]
    rfl
  have hsum : Word.saturatingAdd c.occupied (c.charge size) = c.charge size := by
    have hlt := (c.charge size).toNat_lt_size
    rw [← UInt64.toNat_inj, Word.toNat_saturatingAdd]
    omega
  rw [hasRoom_eq, hsum, decide_eq_true hle]

section
variable (h : c.Linked st) (ht : ∀ o ∈ c.objects, st.resident o = true)
include h ht

/-- Every queued object is found by its id. -/
theorem find?_eq_some_iff_of_tidy : c.find? st id = some o ↔ o ∈ c.objects ∧ o.id = id := by
  rw [h.find?_eq_some_iff_mem]
  constructor
  · intro ⟨ho, _, hid⟩
    exact ⟨ho, hid⟩
  · intro ⟨ho, hid⟩
    exact ⟨ho, ht o ho, hid⟩

theorem mem_stock_of_mem (ho : o ∈ c.objects) : (o.id, o.size) ∈ Policy.stock st c :=
  mem_stock_iff.mpr ⟨o, (find?_eq_some_iff_of_tidy h ht).mpr ⟨ho, rfl⟩, rfl⟩

theorem mem_held_of_mem (ho : o ∈ c.objects) : o.id ∈ Policy.held st c :=
  mem_held_of_stock (mem_stock_of_mem h ht ho)

/-- An object is told from the others by its id. -/
theorem keys_filter (ho : o ∈ c.objects) :
    (c.objects.filter (· ∉ [o])).map (fun p => (p.id, p.size)) =
      c.keys.filter fun x => x.1 ≠ o.id := by
  unfold keys
  rw [List.filter_map]
  apply congrArg
  apply List.filter_congr
  intro p hp
  change decide (p ∉ [o]) = decide (p.id ≠ o.id)
  rw [decide_eq_decide, List.mem_singleton]
  constructor
  · intro hne hid
    exact hne (h.eq_of_id_eq hp ho (ht p hp) (ht o ho) hid)
  · intro hne e
    exact hne (by rw [e])

/-- A hit moves no object but the one that was hit. -/
theorem Touches.keys_filter (k : Touches o st c c') :
    (c'.keys.filter fun x => x.1 ≠ o.id) = c.keys.filter fun x => x.1 ≠ o.id := by
  have ho : o ∈ c'.objects := k.mem_objects_iff.mpr k.mem
  have ht' : ∀ p ∈ c'.objects, st.resident p = true := fun p hp => ht p (k.mem_objects_iff.mp hp)
  rw [← Lru.keys_filter h ht k.mem, ← Lru.keys_filter k.toLinked ht' ho, k.objects,
    List.filter_cons_of_neg (by simp), List.filter_filter]
  simp

end

section
variable (ht : ∀ o ∈ c.objects, st.resident o = true)
include ht

/-- An eviction takes the object at the back. -/
theorem Evicted.of_tidy {victim : Option CacheObject} (h : c.Linked st)
    (he : Evicted st c victim c' st') :
    victim = none ∧ c.objects = [] ∨
      ∃ v, victim = some v ∧ c.objects = c'.objects ++ [v] := by
  cases he with
  | nothing orphans _ =>
    left
    refine ⟨rfl, List.eq_nil_iff_forall_not_mem.mpr fun o ho => ?_⟩
    have hr := ht o ho
    rw [orphans o ho] at hr
    cases hr
  | @victim _ _ v kept orphans hobj _ behind hs =>
    right
    have hnil : orphans = [] := by
      apply List.eq_nil_iff_forall_not_mem.mpr
      intro p hp
      have hr := ht p (by rw [hobj]; exact List.mem_append_right _ (List.mem_cons_of_mem _ hp))
      rw [behind p hp] at hr
      cases hr
    subst hnil
    have hkept : c'.objects = kept := hs.objects_of_append h hobj
    exact ⟨v, rfl, by rw [hkept, hobj]⟩

/-- A new object comes in front of the others where there is room for it. -/
theorem Inserted.of_tidy {r : Request} {res : Option CacheObject} (h : c.Linked st)
    (hi : Inserted r st c res c' st') (hid : r.id ∉ Policy.held st c)
    (hroom : Word.saturatingAdd c.occupied (c.charge r.size) ≤ c.params.capacity) :
    ∃ o, res = some o ∧ Made r o ∧ c'.objects = o :: c.objects := by
  cases hi with
  | refused hlarge _ =>
    have hle := UInt64.le_iff_toNat_le.mp hroom
    have hlt := UInt64.lt_iff_toNat_lt.mp hlarge
    have hsize := (c.charge r.size).toNat_lt_size
    rw [Word.toNat_saturatingAdd] at hle
    omega
  | @admitted _ _ o gone _ hm ha hspared =>
    have hnil : gone = [] := by
      apply List.eq_nil_iff_forall_not_mem.mpr
      intro p hp
      have hpc := ha.subset p hp
      rcases hspared hroom p hp with horphan | hpid
      · have hr := (List.mem_filter.mp horphan).2
        rw [ht p hpc] at hr
        cases hr
      · exact hid (hpid ▸ mem_held_of_mem h ht hpc)
    refine ⟨o, rfl, hm, ?_⟩
    rw [ha.objects, hnil]
    simp

end

end SegmentedCache.Lru
