import Mathlib
import SegmentedCache.Lru.Operations
import SegmentedCache.Proofs.Index.Writes
import SegmentedCache.Proofs.Recency.Sequence

/-!
# Coherence of a least-recently-used cache

The queue of a cache, its index and the flags and slots of the objects are
written by two parties: by the cache, and by everyone who holds its index. They
stay linked all the same. The queued objects know their slots, a queued object
that is resident is the entry for its id, and a resident entry is queued. A
cache is coherent if it is linked and its byte total is the sum of the charges
of its queued objects, residents and orphans alike, within the capacity.

An object becomes resident once, when it is linked, and never again after it
has ceased to be. So neither the work of others elsewhere in the store
(`Linked.of_undisturbed`) nor a write to the index itself (`Linked.of_written`) can
make an entry resident that is not queued.
-/
namespace SegmentedCache

namespace Lru
variable {st st' : Store} {c c' : Lru} {o p : CacheObject} {id : ObjectId}

/-- The entry of the cache's index for an id, resident or not. -/
def entry? (st : Store) (c : Lru) (id : ObjectId) : Option CacheObject :=
  (st.index c.index).find? id

/-- The charges of some objects together. -/
def bytes (c : Lru) (l : List CacheObject) : Nat := (l.map fun o => (c.charge o.size).toNat).sum

/-- Queue, index, flags and slots agree. -/
structure Linked (st : Store) (c : Lru) : Prop where
  known : c.index < st.indexes.size
  valid : (st.index c.index).Valid
  issued_entry : ∀ {id o}, c.entry? st id = some o → st.objects.Issued o
  spelled : ∃ l, c.queue.Spells l ∧
    ∀ k o, (k, o) ∈ l → st.objects.Issued o ∧ st.objects.slot o = some k
  entered : ∀ o ∈ c.objects, st.resident o → c.entry? st o.id = some o
  queued : ∀ {id o}, c.entry? st id = some o → st.resident o → o ∈ c.objects

/-- The byte total is that of the queued objects and within the capacity. -/
structure Charged (c : Lru) : Prop where
  occupied : c.occupied.toNat = c.bytes c.objects
  within : c.occupied.toNat ≤ c.params.capacity.toNat

structure Coherent (st : Store) (c : Lru) : Prop extends Linked st c, Charged c

theorem find?_eq_some_iff :
    c.find? st id = some o ↔ c.entry? st id = some o ∧ st.resident o = true :=
  Option.filter_eq_some_iff

theorem id_of_entry? (h : c.entry? st id = some o) : o.id = id := Index.id_of_find? h

namespace Linked

theorem issued (h : c.Linked st) (ho : o ∈ c.objects) : st.objects.Issued o := by
  obtain ⟨l, hl, hs⟩ := h.spelled
  obtain ⟨k, hk⟩ := hl.mem_toList_iff.mp ho
  exact (hs k o hk).1

/-- A queued object knows the slot of its own node. -/
theorem holds_slot (h : c.Linked st) (ho : o ∈ c.objects) :
    ∃ k, st.objects.slot o = some k ∧ c.queue.holds k o = true := by
  obtain ⟨l, hl, hs⟩ := h.spelled
  obtain ⟨k, hk⟩ := hl.mem_toList_iff.mp ho
  exact ⟨k, (hs k o hk).2, Recency.holds_iff.mpr ((hl.objectAt k o).mpr hk)⟩

theorem nodup (h : c.Linked st) : c.objects.Nodup := by
  obtain ⟨l, hl, hs⟩ := h.spelled
  change c.queue.toList.Nodup
  rw [hl.toList_eq]
  apply hl.nodup.of_map _ |>.map_on
  intro x hx y hy hxy
  have hx' := (hs x.1 x.2 hx).2
  have hy' := (hs y.1 y.2 hy).2
  rw [hxy, hy'] at hx'
  exact Prod.ext (Option.some.inj hx').symm hxy

theorem length_objects (h : c.Linked st) : c.objects.length = c.queue.length := by
  obtain ⟨l, hl, -⟩ := h.spelled
  exact hl.length_toList

theorem back?_eq (h : c.Linked st) : c.queue.back? = c.objects.getLast? := by
  obtain ⟨l, hl, -⟩ := h.spelled
  exact hl.back?_eq

/-- What a lookup finds is a resident queued object, and every such object is
found. -/
theorem find?_eq_some_iff_mem (h : c.Linked st) :
    c.find? st id = some o ↔ o ∈ c.objects ∧ st.resident o = true ∧ o.id = id := by
  rw [find?_eq_some_iff]
  constructor
  · rintro ⟨he, hr⟩
    exact ⟨h.queued he hr, hr, id_of_entry? he⟩
  · rintro ⟨ho, hr, rfl⟩
    exact ⟨h.entered o ho hr, hr⟩

/-- Two resident queued objects have different ids. -/
theorem eq_of_id_eq (h : c.Linked st) (ho : o ∈ c.objects) (hp : p ∈ c.objects)
    (hor : st.resident o) (hpr : st.resident p) (hid : o.id = p.id) : o = p := by
  have ho' := h.entered o ho hor
  rw [hid, h.entered p hp hpr] at ho'
  exact (Option.some.inj ho').symm

end Linked

/-- The store changed, but not the index of the cache, not the slots of its
queued objects, and no issued object became resident. -/
structure Undisturbed (c : Lru) (st st' : Store) : Prop where
  index : st'.index c.index = st.index c.index
  size : st.indexes.size ≤ st'.indexes.size
  issued : ∀ o, st.objects.Issued o → st'.objects.Issued o
  resident : ∀ o, st.objects.Issued o → st'.resident o → st.resident o
  slot : ∀ o ∈ c.objects, st'.objects.slot o = st.objects.slot o

theorem Undisturbed.entry?_eq (u : Undisturbed c st st') (id : ObjectId) :
    c.entry? st' id = c.entry? st id := by
  unfold entry?
  rw [u.index]

theorem Linked.of_undisturbed (h : c.Linked st) (u : Undisturbed c st st') : c.Linked st' where
  known := Nat.lt_of_lt_of_le h.known u.size
  valid := u.index ▸ h.valid
  issued_entry he := u.issued _ (h.issued_entry (u.entry?_eq _ ▸ he))
  spelled := by
    obtain ⟨l, hl, hs⟩ := h.spelled
    refine ⟨l, hl, fun k o hk => ⟨u.issued o (hs k o hk).1, ?_⟩⟩
    rw [u.slot o (hl.mem_toList_iff.mpr ⟨k, hk⟩)]
    exact (hs k o hk).2
  entered o ho hr := by
    rw [u.entry?_eq]
    exact h.entered o ho (u.resident o (h.issued ho) hr)
  queued he hr := by
    rw [u.entry?_eq] at he
    exact h.queued he (u.resident _ (h.issued_entry he) hr)

theorem Coherent.of_undisturbed (h : c.Coherent st) (u : Undisturbed c st st') :
    c.Coherent st' := ⟨h.toLinked.of_undisturbed u, h.toCharged⟩

/-- Reporting disturbs no cache. -/
theorem Undisturbed.events (c : Lru) (st : Store) (es : Array Event) :
    Undisturbed c st { st with events := es } :=
  ⟨rfl, le_rfl, fun _ h => h, fun _ _ h => h, fun _ _ => rfl⟩

/-- The index of the cache is written. A resident object whose entry goes is
resident no more, and stays queued as an orphan. -/
theorem Linked.of_written (h : c.Linked st) {gone : List CacheObject} {ix : Index} {s : Objects}
    (w : Index.Written gone (st.index c.index) st.objects ix s) :
    c.Linked { st with objects := s, indexes := st.indexes.set c.index ix } := by
  have hindex : ({ st with objects := s, indexes := st.indexes.set c.index ix } : Store).index
      c.index = ix := Table.get_set_self _ _ _
  have hresident : ∀ o, st.objects.Issued o → s.resident o = true →
      st.resident o = true ∧ o ∉ gone := by
    intro o ho hr
    rw [w.resident o ho, Bool.and_eq_true, decide_eq_true_eq] at hr
    exact hr
  constructor
  case known => exact Nat.lt_of_lt_of_le h.known (Table.size_le_size_set ..)
  case valid =>
    rw [hindex]
    exact w.valid
  case issued_entry =>
    intro id o he
    unfold entry? at he
    rw [hindex] at he
    rcases w.enters he with he | ⟨-, ho⟩
    · exact (w.issued o).mpr (h.issued_entry he)
    · exact (w.issued o).mpr ho
  case spelled =>
    obtain ⟨l, hl, hs⟩ := h.spelled
    refine ⟨l, hl, fun k o hk => ⟨(w.issued o).mpr (hs k o hk).1, ?_⟩⟩
    exact (w.slot o).trans (hs k o hk).2
  case entered =>
    intro o ho hr
    obtain ⟨hr, hg⟩ := hresident o (h.issued ho) hr
    unfold entry?
    rw [hindex]
    exact w.keeps (h.entered o ho hr) hg
  case queued =>
    intro id o he hr
    unfold entry? at he
    rw [hindex] at he
    rcases w.enters he with he | ⟨hg, ho⟩
    · exact h.queued he (hresident o (h.issued_entry he) hr).1
    · exact absurd hg (hresident o ho hr).2

theorem Coherent.of_written (h : c.Coherent st) {gone : List CacheObject} {ix : Index}
    {s : Objects} (w : Index.Written gone (st.index c.index) st.objects ix s) :
    c.Coherent { st with objects := s, indexes := st.indexes.set c.index ix } :=
  ⟨h.toLinked.of_written w, h.toCharged⟩

end Lru
end SegmentedCache
