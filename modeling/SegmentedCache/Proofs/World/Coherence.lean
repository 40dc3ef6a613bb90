import SegmentedCache.Proofs.World.Basic

/-!
# Coherence among outside writes

Every least-recently-used cache of a reachable world is coherent, whether it
stands alone or at the bottom of a segmented cache, and whatever was written to
its index from outside. Here this is spelled out on the queue, the entries of
the index, and the flags and slots of the objects. It follows that `unlink`
never subtracts more than the byte total, and always takes a queued object out.
-/
namespace SegmentedCache

namespace Lru
variable {st : Store} {c : Lru} {o : CacheObject}

theorem Linked.nodup_ids (h : c.Linked st) :
    ((c.objects.filter st.resident).map CacheObject.id).Nodup := by
  apply (h.nodup.filter _).map_on
  intro x hx y hy hid
  obtain ⟨hxm, hxr⟩ := List.mem_filter.mp hx
  obtain ⟨hym, hyr⟩ := List.mem_filter.mp hy
  exact h.eq_of_id_eq hxm hym hxr hyr hid

/-- A resident entry is queued once, and its slot is that of its node. -/
theorem Linked.queued_once (h : c.Linked st) (ho : o ∈ (st.index c.index).entries)
    (hr : st.resident o) :
    c.objects.count o = 1 ∧ ∃ k, st.objects.slot o = some k ∧ c.queue.holds k o := by
  have hq : o ∈ c.objects := h.queued ((Index.mem_entries_iff h.valid).mp ho) hr
  exact ⟨List.count_eq_one_of_mem h.nodup hq, h.holds_slot hq⟩

/-- Unlinking never faults, and finds an object if and only if it is queued. -/
theorem Coherent.unlink_yields (h : c.Coherent st) (o : CacheObject) :
    ∃ c' st', (unlink o).Yields c st (decide (o ∈ c.objects)) c' st' := by
  by_cases ho : o ∈ c.objects
  · obtain ⟨c', st', hy, -⟩ := unlink_of_mem h ho
    rw [decide_eq_true ho]
    exact ⟨c', st', hy⟩
  · rw [decide_eq_false ho]
    exact ⟨c, st, unlink_of_notMem h.toLinked ho⟩

end Lru

namespace World
open Policy
variable {w : World} {m : Member} {c : Lru}

theorem Sound.coherent (h : w.Sound) (hm : m ∈ w.members) (hc : c ∈ m.tier.leaves) :
    c.Coherent w.store := by
  rw [← Tier.leaves_eq] at hc
  exact (h.member m hm).coherent hc

/-- Whatever the clients of a world do to its caches and its indexes, every
least-recently-used cache agrees with its index, and no operation on a cache
subtracts out of range. -/
theorem Reachable.coherent_leaf (h : Reachable w) (hm : m ∈ w.members) (hc : c ∈ m.tier.leaves) :
    (∀ o ∈ c.objects, w.store.resident o → (w.store.index c.index).find? o.id = some o) ∧
    (∀ o ∈ (w.store.index c.index).entries, w.store.resident o →
      c.objects.count o = 1 ∧ ∃ k, w.store.objects.slot o = some k ∧ c.queue.holds k o) ∧
    ((c.objects.filter w.store.resident).map CacheObject.id).Nodup ∧
    c.occupied.toNat =
      (c.objects.map fun o => (Word.saturatingAdd o.size c.params.overhead).toNat).sum ∧
    c.occupied ≤ c.params.capacity ∧
    (∀ o, ∃ c' st', (Lru.unlink o).Yields c w.store (decide (o ∈ c.objects)) c' st') ∧
    (∀ id o, c.find? w.store id = some o →
      ∃ c' st', (Lru.unlink o).Yields c w.store true c' st') ∧
    (∀ op fault st, perform op m.tier w.store = .error fault st → fault = .addOverflow) := by
  have hcoh : c.Coherent w.store := h.sound.coherent hm hc
  have hfound : ∀ id o, c.find? w.store id = some o → o ∈ c.objects := by
    intro id o ho
    exact (hcoh.find?_eq_some_iff_mem.mp ho).1
  refine ⟨hcoh.entered, fun o ho hr => hcoh.queued_once ho hr, hcoh.nodup_ids, hcoh.occupied,
    UInt64.le_iff_toNat_le.mpr hcoh.within, hcoh.unlink_yields, ?_, ?_⟩
  · intro id o ho
    obtain ⟨c', st', hy⟩ := hcoh.unlink_yields o
    rw [decide_eq_true (hfound id o ho)] at hy
    exact ⟨c', st', hy⟩
  · intro op fault st hf
    exact (ensures_perform (h.sound.member m hm) op).fault_eq hf

/-- One of two objects was deleted behind the back of their cache. -/
def orphaned : World :=
  ((empty.build (.lru {} false : Blueprint 0) ⟨10, 1, 0⟩).work (.insert ⟨1, 3, 0, none⟩)).work
    (.insert ⟨2, 4, 0, none⟩) |>.delete 0 1

/-- An object that lost its entry is charged for all the same. -/
theorem coherent_orphaned :
    ∃ m ∈ orphaned.members, ∃ c ∈ m.tier.leaves,
      c.objects.length = 2 ∧ (c.orphans orphaned.store).length = 1 ∧
      c.occupied.toNat =
        (c.objects.map fun o => (Word.saturatingAdd o.size c.params.overhead).toNat).sum ∧
      c.occupied ≤ c.params.capacity := by
  have hr : Reachable orphaned := (((Reachable.start.build _ _).work _).work _).delete 0 1
  have hm : ∃ m ∈ orphaned.members, ∃ c ∈ m.tier.leaves, c.objects.length = 2 ∧
      (c.orphans orphaned.store).length = 1 := by decide +kernel
  obtain ⟨m, hm, c, hc, hlen, horphan⟩ := hm
  obtain ⟨-, -, -, hbytes, hwithin, -⟩ := hr.coherent_leaf hm hc
  exact ⟨m, hm, c, hc, hlen, horphan, hbytes, hwithin⟩

end World
end SegmentedCache
