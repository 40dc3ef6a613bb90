import SegmentedCache.Proofs.Lru.Family
import SegmentedCache.Proofs.Outcome

/-!
# Objects that leave a cache

Whatever takes objects out of a cache, it does so one by one with `unlink`, and
the effects add up: a cache that drops some objects loses them from its queue,
its index and the resident objects together, and nothing else changes. A cache
that sheds objects drops them and corrects its byte total. Evictions, the removal
of orphans and making room are all described by the objects that are shed.

`unlink_of_mem` is the one place where the links of queue, index, flags and
slots are followed; all that comes later composes sheddings.
-/
namespace SegmentedCache.Lru
variable {st st' st'' : Store} {c c' c'' : Lru} {o p : CacheObject} {gone gone' : List CacheObject}

/-- The objects in `gone` left the queue, the index and the resident objects. -/
structure Drops (gone : List CacheObject) (st : Store) (c : Lru) (st' : Store) (c' : Lru) :
    Prop where
  linked : c'.Linked st'
  params : c'.params = c.params
  index : c'.index = c.index
  subset : ∀ o ∈ gone, o ∈ c.objects
  objects : c'.objects = c.objects.filter (· ∉ gone)
  entry? : ∀ id, c'.entry? st' id = (c.entry? st id).filter (· ∉ gone)
  resident : ∀ o, st.objects.Issued o → st'.resident o = (st.resident o && decide (o ∉ gone))
  slot : ∀ o, st.objects.Issued o → o ∉ gone → st'.objects.slot o = st.objects.slot o
  issued : st.objects.SameIssued st'.objects
  size : st.indexes.size ≤ st'.indexes.size
  others : ∀ k, k ≠ c.index → st'.index k = st.index k

namespace Drops

theorem refl (h : c.Linked st) : Drops [] st c st c where
  linked := h
  params := rfl
  index := rfl
  subset o ho := by cases ho
  objects := by simp
  entry? id := by cases c.entry? st id <;> simp [Option.filter]
  resident o _ := by simp
  slot o _ _ := rfl
  issued o := Iff.rfl
  size := le_rfl
  others k _ := rfl

theorem trans (h : Drops gone st c st' c') (k : Drops gone' st' c' st'' c'') :
    Drops (gone ++ gone') st c st'' c'' where
  linked := k.linked
  params := k.params.trans h.params
  index := k.index.trans h.index
  subset o ho := by
    rcases List.mem_append.mp ho with ho | ho
    · exact h.subset o ho
    · have := k.subset o ho
      rw [h.objects] at this
      exact List.mem_of_mem_filter this
  objects := by
    rw [k.objects, h.objects, List.filter_filter]
    apply List.filter_congr
    intro o _
    simp only [List.mem_append, not_or, Bool.decide_and, Bool.and_comm]
  entry? id := by
    rw [k.entry?, h.entry?]
    cases c.entry? st id with
    | none => rfl
    | some o => by_cases e : o ∈ gone <;> by_cases e' : o ∈ gone' <;> simp [Option.filter, e, e']
  resident o ho := by
    rw [k.resident o ((h.issued o).mpr ho), h.resident o ho, Bool.and_assoc]
    simp only [List.mem_append, not_or, Bool.decide_and]
  slot o ho hn := by
    simp only [List.mem_append, not_or] at hn
    exact (k.slot o ((h.issued o).mpr ho) hn.2).trans (h.slot o ho hn.1)
  issued := h.issued.trans k.issued
  size := h.size.trans k.size
  others i hi := (k.others i (by rwa [h.index])).trans (h.others i hi)

/-- Only which objects are dropped matters, not their order. -/
theorem congr (h : Drops gone st c st' c') (he : ∀ o, o ∈ gone' ↔ o ∈ gone) :
    Drops gone' st c st' c' where
  linked := h.linked
  params := h.params
  index := h.index
  subset o ho := h.subset o ((he o).mp ho)
  objects := by simp only [h.objects, he]
  entry? id := by simp only [h.entry?, he]
  resident o ho := by simp only [h.resident o ho, he]
  slot o ho hn := h.slot o ho fun hm => hn ((he o).mpr hm)
  issued := h.issued
  size := h.size
  others := h.others

theorem confined (h : Drops gone st c st' c') : Confined st [c] st' [c'] where
  make d hd := ⟨c, List.mem_singleton_self c, by rw [List.mem_singleton.mp hd, h.index]⟩
  size := h.size
  index k hk := h.others k (hk c (List.mem_singleton_self c)).symm
  issued o ho := (h.issued o).mpr ho
  falls o ho hr := by
    rw [h.resident o ho] at hr
    exact (Bool.and_eq_true_iff.mp hr).1
  row o ho hn := by
    have hg : o ∉ gone := fun hm => hn c (List.mem_singleton_self c) (h.subset o hm)
    refine ⟨?_, h.slot o ho hg⟩
    rw [h.resident o ho, decide_eq_true hg, Bool.and_true]
  queued d hd o ho := by
    rw [List.mem_singleton.mp hd, h.objects] at ho
    exact .inl ⟨c, List.mem_singleton_self c, List.mem_of_mem_filter ho⟩

theorem mem_objects_iff (h : Drops gone st c st' c') : o ∈ c'.objects ↔ o ∈ c.objects ∧ o ∉ gone := by
  rw [h.objects, List.mem_filter, decide_eq_true_eq]

/-- Where what left stood behind all that stays, the front is left. -/
theorem objects_of_append {kept : List CacheObject} (h : Drops gone st c st' c') (hc : c.Linked st)
    (hobj : c.objects = kept ++ gone) : c'.objects = kept := by
  have hnd := hc.nodup
  rw [hobj, List.nodup_append] at hnd
  have hgone : gone.filter (· ∉ gone) = [] :=
    List.filter_eq_nil_iff.mpr fun o ho => by simpa using ho
  rw [h.objects, hobj, List.filter_append, hgone, List.append_nil]
  exact List.filter_eq_self.mpr fun o ho => decide_eq_true fun hg => hnd.2.2 o ho o hg rfl

/-- A lookup finds what it found, unless that has left. -/
theorem find?_eq (h : Drops gone st c st' c') (hc : c.Linked st) (id : ObjectId) :
    c'.find? st' id = (c.find? st id).filter (· ∉ gone) := by
  ext o
  rw [h.linked.find?_eq_some_iff_mem, Option.filter_eq_some_iff,
    hc.find?_eq_some_iff_mem, h.mem_objects_iff, decide_eq_true_eq]
  constructor
  · intro ⟨⟨ho, hg⟩, hr, hid⟩
    rw [h.resident o (hc.issued ho), Bool.and_eq_true] at hr
    exact ⟨⟨ho, hr.1, hid⟩, hg⟩
  · intro ⟨⟨ho, hr, hid⟩, hg⟩
    refine ⟨⟨ho, hg⟩, ?_, hid⟩
    rw [h.resident o (hc.issued ho), hr, decide_eq_true hg, Bool.and_true]

theorem charge_eq (h : Drops gone st c st' c') (size : Bytes) : c'.charge size = c.charge size := by
  unfold charge
  rw [h.params]

theorem ids_subset (h : Drops gone st c st' c') (hc : c.Linked st) : c'.ids st' ⊆ c.ids st := by
  intro id hid
  obtain ⟨o, ho⟩ := mem_ids_iff.mp hid
  rw [h.find?_eq hc, Option.filter_eq_some_iff] at ho
  exact mem_ids_iff.mpr ⟨o, ho.1⟩

/-- The id of a resident object that left is found no more. -/
theorem notMem_ids (h : Drops gone st c st' c') (hc : c.Linked st) (ho : o ∈ gone)
    (hr : st.resident o) : o.id ∉ c'.ids st' := by
  intro hid
  obtain ⟨p, hp⟩ := mem_ids_iff.mp hid
  have hfind : c.find? st o.id = some o := hc.find?_eq_some_iff_mem.mpr ⟨h.subset o ho, hr, rfl⟩
  rw [h.find?_eq hc, hfind, Option.filter_eq_some_iff, decide_eq_true_eq] at hp
  obtain rfl := Option.some.inj hp.1
  exact hp.2 ho

end Drops

/-- One object leaves: the effects on queue, index, flags and slots together. -/
theorem Linked.drops (h : c.Linked st) {l₁ l₂ : List (Nat × CacheObject)} {k : Nat} {q : Recency}
    {ix : Index} {s : Objects} {counters : LruCounters} {b : Bytes}
    (hl : c.queue.Spells (l₁ ++ (k, o) :: l₂))
    (hs : ∀ j p, (j, p) ∈ l₁ ++ (k, o) :: l₂ → st.objects.Issued p ∧ st.objects.slot p = some j)
    (hq : q.Spells (l₁ ++ l₂)) (hvalid : ix.Valid)
    (hfind : ∀ id, ix.find? id = (c.entry? st id).filter (· ≠ o))
    (hres : ∀ p, st.objects.Issued p → s.resident p = (st.resident p && decide (p ≠ o)))
    (hslot : ∀ p, st.objects.Issued p → p ≠ o → s.slot p = st.objects.slot p)
    (hiss : st.objects.SameIssued s) :
    Drops [o] st c { st with objects := s, indexes := st.indexes.set c.index ix }
      { c with queue := q, occupied := b, counters := counters } := by
  have hix : ({ st with objects := s, indexes := st.indexes.set c.index ix } : Store).index
      c.index = ix := Table.get_set_self _ _ _
  have hne : ∀ e ∈ l₁ ++ l₂, e.2 ≠ o := hl.ne_of_slots fun j p hm => (hs j p hm).2
  have hobjects : ({ c with queue := q, occupied := b, counters := counters } : Lru).objects =
      c.objects.filter (· ∉ [o]) := by
    simp only [List.mem_singleton]
    exact hl.toList_eq_filter hq hne
  have hentry : ∀ id, Lru.entry?
      { st with objects := s, indexes := st.indexes.set c.index ix }
      { c with queue := q, occupied := b, counters := counters } id =
        (c.entry? st id).filter (· ∉ [o]) := by
    intro id
    unfold Lru.entry?
    rw [hix, hfind]
    simp only [List.mem_singleton]
    rfl
  have hresident : ∀ p, st.objects.Issued p → s.resident p = (st.resident p && decide (p ∉ [o])) := by
    intro p hp
    simp only [hres p hp, List.mem_singleton]
  constructor
  case linked =>
    constructor
    case known => exact Nat.lt_of_lt_of_le h.known (Table.size_le_size_set ..)
    case valid =>
      rw [hix]
      exact hvalid
    case issued_entry =>
      intro id p he
      rw [hentry, Option.filter_eq_some_iff] at he
      exact (hiss p).mpr (h.issued_entry he.1)
    case spelled =>
      use l₁ ++ l₂, hq
      intro j p hm
      obtain ⟨hi, hj⟩ := hs j p ((List.sublist_cons_self _ _).append_left l₁ |>.subset hm)
      exact ⟨(hiss p).mpr hi, (hslot p hi (hne (j, p) hm)).trans hj⟩
    case entered =>
      intro p hp hr
      rw [hobjects, List.mem_filter] at hp
      change s.resident p = true at hr
      rw [hresident p (h.issued hp.1), Bool.and_eq_true] at hr
      rw [hentry, h.entered p hp.1 hr.1, Option.filter_eq_some_iff]
      exact ⟨rfl, hr.2⟩
    case queued =>
      intro id p he hr
      rw [hentry, Option.filter_eq_some_iff] at he
      change s.resident p = true at hr
      rw [hresident p (h.issued_entry he.1), Bool.and_eq_true] at hr
      rw [hobjects, List.mem_filter]
      exact ⟨h.queued he.1 hr.1, hr.2⟩
  case params => rfl
  case index => rfl
  case subset =>
    intro p hp
    rw [List.mem_singleton.mp hp]
    exact hl.mem_toList_iff.mpr ⟨k, by simp⟩
  case objects => exact hobjects
  case entry? => exact hentry
  case resident => exact hresident
  case slot =>
    intro p hp hn
    exact hslot p hp (by simpa using hn)
  case issued => exact hiss
  case size => exact Table.size_le_size_set ..
  case others => exact fun j hj => Table.get_set_of_ne _ _ hj

theorem bytes_append (c : Lru) (l l' : List CacheObject) : c.bytes (l ++ l') = c.bytes l + c.bytes l' := by
  simp [bytes]

theorem bytes_cons (c : Lru) (o : CacheObject) (l : List CacheObject) :
    c.bytes (o :: l) = (c.charge o.size).toNat + c.bytes l := by
  simp [bytes]

/-- The objects in `gone` left the cache with their bytes. -/
structure Sheds (gone : List CacheObject) (st : Store) (c : Lru) (st' : Store) (c' : Lru) : Prop
    extends Drops gone st c st' c', Charged c'

namespace Sheds

theorem coherent (h : Sheds gone st c st' c') : c'.Coherent st' := ⟨h.linked, h.toCharged⟩

theorem refl (h : c.Coherent st) : Sheds [] st c st c := ⟨Drops.refl h.toLinked, h.toCharged⟩

theorem trans (h : Sheds gone st c st' c') (k : Sheds gone' st' c' st'' c'') :
    Sheds (gone ++ gone') st c st'' c'' := ⟨h.toDrops.trans k.toDrops, k.toCharged⟩

theorem congr (h : Sheds gone st c st' c') (he : ∀ o, o ∈ gone' ↔ o ∈ gone) :
    Sheds gone' st c st' c' := ⟨h.toDrops.congr he, h.toCharged⟩

theorem occupied_le (h : Sheds gone st c st' c') (hc : c.Charged) :
    c'.occupied.toNat ≤ c.occupied.toNat := by
  rw [h.occupied, hc.occupied, h.objects]
  unfold bytes charge
  rw [h.params]
  exact (List.filter_sublist.map _).sum_le_sum fun _ _ => Nat.zero_le _

/-- Reporting an event and counting shed nothing. -/
theorem report (h : c.Coherent st) (es : Array Event) (counters : LruCounters) :
    Sheds [] st c { st with events := es } { c with counters } := by
  have hd := Drops.refl h.toLinked
  have hl := (h.of_undisturbed (Undisturbed.events c st es)).toLinked
  constructor
  case toDrops =>
    exact ⟨⟨hl.known, hl.valid, hl.issued_entry, hl.spelled, hl.entered, hl.queued⟩, rfl, rfl,
      hd.subset, hd.objects, hd.entry?, hd.resident, hd.slot, hd.issued, hd.size, hd.others⟩
  case toCharged => exact ⟨h.occupied, h.within⟩

theorem then_report (h : Sheds gone st c st' c') (es : Array Event) (counters : LruCounters) :
    Sheds gone st c { st' with events := es } { c' with counters } :=
  (h.trans (report h.coherent es counters)).congr fun o => by simp

end Sheds

/-! ## Unlinking -/

theorem onIndex_apply {α : Type} (k : IndexId) (f : Index → Objects → α × Index × Objects)
    (st : Store) :
    CacheM.onIndex k f st = .ok (f (st.index k) st.objects).1
      { st with
        objects := (f (st.index k) st.objects).2.2
        indexes := st.indexes.set k (f (st.index k) st.objects).2.1 } := rfl

/-- The flags after an object was taken out of the index, if it was there. -/
theorem resident_deleteExact (ix : Index) {s : Objects} (ho : s.Issued o) (hp : s.Issued p) :
    (ix.deleteExact s o).2.2.resident p =
      if ix.find? o.id = some o ∧ p = o then false else s.resident p := by
  by_cases h : ix.find? o.id = some o
  · rw [Index.deleteExact_of_find? h, Index.delete_of_some h]
    simp only [h, true_and]
    exact Objects.resident_setResident_issued ho hp
  · rw [Index.deleteExact_of_ne h]
    simp only [h, false_and, if_false]

theorem sameIssued_deleteExact (ix : Index) {s : Objects} (ho : s.Issued o) :
    s.SameIssued (ix.deleteExact s o).2.2 := by
  by_cases h : ix.find? o.id = some o
  · rw [Index.deleteExact_of_find? h, Index.delete_of_some h]
    exact Objects.sameIssued_setResident ho false
  · rw [Index.deleteExact_of_ne h]
    exact fun _ => Iff.rfl

/-- The rows after an object lost its slot and its flag and was taken out of
the index. -/
theorem rows_unlink (ix : Index) {s : Objects} (ho : s.Issued o) :
    s.SameIssued (ix.deleteExact ((s.setSlot o none).setResident o false) o).2.2 ∧
      (∀ p, s.Issued p →
        (ix.deleteExact ((s.setSlot o none).setResident o false) o).2.2.resident p =
          (s.resident p && decide (p ≠ o))) ∧
      ∀ p, s.Issued p → p ≠ o →
        (ix.deleteExact ((s.setSlot o none).setResident o false) o).2.2.slot p = s.slot p := by
  have hsame : s.SameIssued ((s.setSlot o none).setResident o false) :=
    (Objects.sameIssued_setSlot ho none).trans
      (Objects.sameIssued_setResident ((Objects.sameIssued_setSlot ho none o).mpr ho) false)
  have ho' := (hsame o).mpr ho
  refine ⟨hsame.trans (sameIssued_deleteExact ix ho'), fun p hp => ?_, fun p hp hn => ?_⟩
  · rw [resident_deleteExact ix ho' ((hsame p).mpr hp), Objects.resident_setResident,
      Objects.resident_setSlot]
    simp only [Objects.serial_eq_iff ho hp]
    by_cases e : p = o <;> simp [e]
  · rw [(Index.quiet_deleteExact ix _ o).slot p, Objects.slot_setResident,
      Objects.slot_setSlot_issued ho hp, if_neg hn]

/-- A queued object is unlinked, and the subtraction of its charge stays in
range. -/
theorem unlink_of_mem (h : c.Coherent st) (ho : o ∈ c.objects) :
    ∃ c' st', (unlink o).Yields c st true c' st' ∧ Sheds [o] st c st' c' ∧
      c'.counters = c.counters := by
  obtain ⟨l, hl, hs⟩ := h.spelled
  obtain ⟨k, hk⟩ := hl.mem_toList_iff.mp ho
  obtain ⟨l₁, l₂, rfl⟩ := List.append_of_mem hk
  obtain ⟨hio, hso⟩ := hs k o hk
  obtain ⟨q, hrem, hq⟩ := hl.remove st.objects
  have hholds : c.queue.holds k o = true := Recency.holds_iff.mpr ((hl.objectAt k o).mpr hk)
  have hslot : (st.objects.slot o).filter (c.queue.holds · o) = some k := by
    rw [hso, Option.filter_some, if_pos hholds]
  have hbytes : c.bytes c.objects =
      (c.charge o.size).toNat + c.bytes ((l₁ ++ l₂).map Prod.snd) := by
    change c.bytes c.queue.toList = _
    simp only [hl.toList_eq, List.map_append, List.map_cons, bytes_append, bytes_cons]
    omega
  have hle : c.charge o.size ≤ c.occupied := by
    rw [UInt64.le_iff_toNat_le, h.occupied, hbytes]
    exact Nat.le_add_right ..
  have hsub : Word.sub c.occupied (c.charge o.size) = .ok (c.occupied - c.charge o.size) := if_pos hle
  obtain ⟨hsame, hres, hrow⟩ := rows_unlink (st.index c.index) hio
  refine ⟨{ c with queue := q, occupied := c.occupied - c.charge o.size }, _, ?_,
    ⟨h.drops hl hs hq (h.valid.deleteExact _ o)
      (Index.find?_deleteExact h.valid ((st.objects.setSlot o none).setResident o false) o) hres
      hrow hsame, ?_, ?_⟩, rfl⟩
  · unfold Action.Yields unlink
    simp only [Action.bind_apply, Action.get_apply, Action.getThe_apply, hslot, hrem,
      Action.modifyThe_apply, Action.discard_apply, Action.lift_apply, onIndex_apply,
      Action.checked_apply, hsub, Action.set_apply, Action.pure_apply]
    rfl
  · change (c.occupied - c.charge o.size).toNat = c.bytes q.toList
    rw [UInt64.toNat_sub_of_le _ _ hle, h.occupied, hbytes, hq.toList_eq]
    omega
  · change (c.occupied - c.charge o.size).toNat ≤ _
    rw [UInt64.toNat_sub_of_le _ _ hle]
    exact (Nat.sub_le ..).trans h.within

/-- An object that is not queued here is left alone. -/
theorem unlink_of_notMem (h : c.Linked st) (ho : o ∉ c.objects) :
    (unlink o).Yields c st false c st := by
  obtain ⟨l, hl, -⟩ := h.spelled
  have hslot : (st.objects.slot o).filter (c.queue.holds · o) = none := by
    rw [Option.filter_eq_none_iff]
    intro k _ hk
    rw [Recency.holds_iff] at hk
    exact ho (hl.mem_toList_iff.mpr ⟨k, (hl.objectAt k o).mp hk⟩)
  unfold Action.Yields unlink
  simp only [Action.bind_apply, Action.get_apply, Action.getThe_apply, hslot, Action.pure_apply]

end SegmentedCache.Lru
