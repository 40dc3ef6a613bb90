import SegmentedCache.Proofs.Lru.Eviction

/-!
# Objects that enter a cache

A new object enters the index first, displaces an entry that nobody vouches for
any more, and is linked at the front. From then on it is resident. An insertion
is a shedding followed by one such admission; a client sees the effects of both
together.
-/
namespace SegmentedCache.Lru
open SegmentedCache.Action
variable {st st' st'' : Store} {c c' c'' : Lru} {o p : CacheObject} {gone gone' : List CacheObject}

/-- The new object `o` entered the cache at the front, and the objects in `gone`
left it. -/
structure Admits (o : CacheObject) (gone : List CacheObject) (st : Store) (c : Lru) (st' : Store)
    (c' : Lru) : Prop extends Linked st' c', Charged c' where
  params : c'.params = c.params
  index : c'.index = c.index
  fresh : ¬ st.objects.Issued o
  subset : ∀ p ∈ gone, p ∈ c.objects
  objects : c'.objects = o :: c.objects.filter (· ∉ gone)
  entry_of : ∀ {id p}, c'.entry? st' id = some p → p = o ∨ c.entry? st id = some p ∧ p ∉ gone
  resident_self : st'.resident o = true
  resident : ∀ p, st.objects.Issued p → st'.resident p = (st.resident p && decide (p ∉ gone))
  slot : ∀ p, st.objects.Issued p → p ∉ gone → st'.objects.slot p = st.objects.slot p
  issued_of : ∀ p, st.objects.Issued p → st'.objects.Issued p
  size : st.indexes.size ≤ st'.indexes.size
  others : ∀ k, k ≠ c.index → st'.index k = st.index k

theorem Admits.coherent (h : Admits o gone st c st' c') : c'.Coherent st' :=
  ⟨h.toLinked, h.toCharged⟩

theorem Admits.confined (h : Admits o gone st c st' c') : Confined st [c] st' [c'] where
  make d hd := ⟨c, List.mem_singleton_self c, by rw [List.mem_singleton.mp hd, h.index]⟩
  size := h.size
  index k hk := h.others k (hk c (List.mem_singleton_self c)).symm
  issued := h.issued_of
  falls p hp hr := by
    rw [h.resident p hp] at hr
    exact (Bool.and_eq_true_iff.mp hr).1
  row p hp hn := by
    have hg : p ∉ gone := fun hm => hn c (List.mem_singleton_self c) (h.subset p hm)
    refine ⟨?_, h.slot p hp hg⟩
    rw [h.resident p hp, decide_eq_true hg, Bool.and_true]
  queued d hd p hp := by
    rw [List.mem_singleton.mp hd, h.objects, List.mem_cons] at hp
    rcases hp with hp | hp
    · exact .inr (hp ▸ h.fresh)
    · exact .inl ⟨c, List.mem_singleton_self c, List.mem_of_mem_filter hp⟩

/-- A shedding before an admission. -/
theorem Sheds.admits (h : Sheds gone st c st' c') (k : Admits o gone' st' c' st'' c'') :
    Admits o (gone ++ gone') st c st'' c'' where
  toLinked := k.toLinked
  toCharged := k.toCharged
  params := k.params.trans h.params
  index := k.index.trans h.index
  fresh hi := k.fresh ((h.issued o).mpr hi)
  subset p hp := by
    rcases List.mem_append.mp hp with hp | hp
    · exact h.subset p hp
    · exact (h.mem_objects_iff.mp (k.subset p hp)).1
  objects := by
    rw [k.objects, h.objects, List.filter_filter]
    refine congrArg (o :: ·) (List.filter_congr fun p _ => ?_)
    simp only [List.mem_append, not_or, Bool.decide_and, Bool.and_comm]
  entry_of he := by
    rcases k.entry_of he with rfl | ⟨he, hg⟩
    · exact .inl rfl
    · rw [h.entry?, Option.filter_eq_some_iff, decide_eq_true_eq] at he
      exact .inr ⟨he.1, by simp [he.2, hg]⟩
  resident_self := k.resident_self
  resident p hp := by
    rw [k.resident p ((h.issued p).mpr hp), h.resident p hp, Bool.and_assoc]
    simp only [List.mem_append, not_or, Bool.decide_and]
  slot p hp hn := by
    simp only [List.mem_append, not_or] at hn
    exact (k.slot p ((h.issued p).mpr hp) hn.2).trans (h.slot p hp hn.1)
  issued_of p hp := k.issued_of p ((h.issued p).mpr hp)
  size := h.size.trans k.size
  others i hi := (k.others i (by rwa [h.index])).trans (h.others i hi)

/-- Counting an admission changes nothing else. -/
theorem Admits.counters (h : Admits o gone st c st' c') (counters : LruCounters) :
    Admits o gone st c st' { c' with counters } :=
  ⟨⟨h.known, h.valid, h.issued_entry, h.spelled, h.entered, h.queued⟩, ⟨h.occupied, h.within⟩,
    h.params, h.index, h.fresh, h.subset, h.objects, h.entry_of, h.resident_self, h.resident, h.slot,
    h.issued_of, h.size, h.others⟩

/-! ## Linking -/

/-- Linking an object whose entry stands in the index makes it resident. -/
theorem Linked.pushFront (h : c.Linked st) (ho : st.objects.Issued o) (hn : o ∉ c.objects)
    (he : c.entry? st o.id = some o) (b : Bytes) :
    ∃ k, Linked
        { st with objects := (st.objects.setSlot o (some k)).setResident o true }
        { c with queue := (c.queue.pushFront st.objects o).1, occupied := b } ∧
      (c.queue.pushFront st.objects o).2 = st.objects.setSlot o (some k) ∧
      (c.queue.pushFront st.objects o).1.toList = o :: c.objects := by
  obtain ⟨l, hl, hs⟩ := h.spelled
  obtain ⟨k, hq, hslots⟩ := hl.pushFront st.objects o
  have hsame : st.objects.SameIssued ((st.objects.setSlot o (some k)).setResident o true) :=
    (Objects.sameIssued_setSlot ho _).trans
      (Objects.sameIssued_setResident ((Objects.sameIssued_setSlot ho _ o).mpr ho) true)
  have hres : ∀ p, st.objects.Issued p →
      ((st.objects.setSlot o (some k)).setResident o true).resident p =
        if p = o then true else st.resident p := by
    intro p hp
    rw [Objects.resident_setResident, Objects.resident_setSlot]
    simp only [Objects.serial_eq_iff ho hp]
    rfl
  have hlist : (c.queue.pushFront st.objects o).1.toList = o :: c.objects := by
    rw [hq.toList_eq, List.map_cons]
    exact congrArg (o :: ·) hl.toList_eq.symm
  use k
  constructor
  case right => exact ⟨hslots, hlist⟩
  case left =>
    constructor
    case known => exact h.known
    case valid => exact h.valid
    case issued_entry => exact fun hp => (hsame _).mpr (h.issued_entry hp)
    case spelled =>
      use (k, o) :: l, hq
      intro j p hm
      rw [List.mem_cons, Prod.mk.injEq] at hm
      change (((st.objects.setSlot o (some k)).setResident o true).Issued p) ∧
        ((st.objects.setSlot o (some k)).setResident o true).slot p = some j
      rcases hm with ⟨rfl, rfl⟩ | hm
      · rw [Objects.slot_setResident, Objects.slot_setSlot, if_pos rfl]
        exact ⟨(hsame p).mpr ho, rfl⟩
      · obtain ⟨hip, hsp⟩ := hs j p hm
        have hpo : p ≠ o := fun e => hn (e ▸ hl.mem_toList_iff.mpr ⟨j, hm⟩)
        rw [Objects.slot_setResident, Objects.slot_setSlot_issued ho hip, if_neg hpo]
        exact ⟨(hsame p).mpr hip, hsp⟩
    case entered =>
      intro p hp hr
      change p ∈ (c.queue.pushFront st.objects o).1.toList at hp
      rw [hlist, List.mem_cons] at hp
      rcases hp with rfl | hp
      · exact he
      · have hpo : p ≠ o := fun e => hn (e ▸ hp)
        change ((st.objects.setSlot o (some k)).setResident o true).resident p = true at hr
        rw [hres p (h.issued hp), if_neg hpo] at hr
        exact h.entered p hp hr
    case queued =>
      intro id p hp hr
      change p ∈ (c.queue.pushFront st.objects o).1.toList
      rw [hlist, List.mem_cons]
      by_cases e : p = o
      · exact .inl e
      · change ((st.objects.setSlot o (some k)).setResident o true).resident p = true at hr
        rw [hres p (h.issued_entry hp), if_neg e] at hr
        exact .inr (h.queued hp hr)

/-- The new object `o` stands in the index of a cache and is not linked yet. -/
structure Enters (o : CacheObject) (st : Store) (c : Lru) (st' : Store) : Prop
    extends Coherent st' c where
  entry : c.entry? st' o.id = some o
  entry_of : ∀ {id p}, c.entry? st' id = some p → p = o ∨ c.entry? st id = some p
  fresh : ¬ st.objects.Issued o
  new : st'.objects.Issued o
  issued_of : ∀ p, st.objects.Issued p → st'.objects.Issued p
  resident : ∀ p, st.objects.Issued p → st'.resident p = st.resident p
  slot : ∀ p, st.objects.Issued p → st'.objects.slot p = st.objects.slot p
  size : st.indexes.size ≤ st'.indexes.size
  others : ∀ k, k ≠ c.index → st'.index k = st.index k

/-- A new object may take the place of an entry that is not resident. -/
theorem enters_create (h : c.Coherent st) {id : ObjectId} (hid : id ∉ c.ids st) (size : Bytes)
    (expiry : Option Time) :
    Enters (st.objects.create id size expiry).1 st c
      { st with
        objects := ((st.index c.index).insert (st.objects.create id size expiry).2
          (st.objects.create id size expiry).1).2.2
        indexes := st.indexes.set c.index ((st.index c.index).insert
          (st.objects.create id size expiry).2 (st.objects.create id size expiry).1).2.1 } := by
  have hfresh := Objects.not_issued_create st.objects id size expiry
  have hnew := Objects.issued_create st.objects id size expiry
  have hold : ∀ p, st.objects.Issued p → (st.objects.create id size expiry).2.Issued p :=
    fun p hp => hp.create id size expiry
  have hslot : ∀ p, st.objects.Issued p →
      (st.objects.create id size expiry).2.slot p = st.objects.slot p :=
    fun p hp => Objects.slot_create st.objects id size expiry hp
  have hres : ∀ p, st.objects.Issued p →
      (st.objects.create id size expiry).2.resident p = st.objects.resident p :=
    fun p hp => Objects.resident_create st.objects id size expiry hp
  have hoid : (st.objects.create id size expiry).1.id = id := rfl
  generalize st.objects.create id size expiry = made at *
  obtain ⟨o, s⟩ := made
  dsimp only at *
  have hu : Undisturbed c st { st with objects := s } :=
    ⟨rfl, le_rfl, hold, fun p hp hr => (hres p hp).symm.trans hr, fun p hp => hslot p (h.issued hp)⟩
  have h₁ : c.Coherent { st with objects := s } := h.of_undisturbed hu
  have w := Index.written_insert h.valid (s := s) (o := o)
    (fun hp => hold _ (h.issued_entry hp)) hnew
  have h₂ : c.Coherent { st with
      objects := ((st.index c.index).insert s o).2.2
      indexes := st.indexes.set c.index ((st.index c.index).insert s o).2.1 } := h₁.of_written w
  constructor
  case toCoherent => exact h₂
  case entry =>
    change ((st.indexes.set c.index ((st.index c.index).insert s o).2.1).get c.index).find? o.id = _
    rw [Table.get_set_self, Index.find?_insert, if_pos rfl]
  case entry_of =>
    intro id' p he
    change ((st.indexes.set c.index ((st.index c.index).insert s o).2.1).get c.index).find? id' = _ at he
    rw [Table.get_set_self, Index.find?_insert] at he
    split at he
    · exact .inl (Option.some.inj he).symm
    · exact .inr he
  case fresh => exact hfresh
  case new => exact (w.issued o).mpr hnew
  case issued_of => exact fun p hp => (w.issued p).mpr (hold p hp)
  case slot => exact fun p hp => (w.slot p).trans (hslot p hp)
  case size => exact Table.size_le_size_set ..
  case others => exact fun k hk => Table.get_set_of_ne _ _ hk
  case resident =>
    intro p hp
    refine (w.resident p (hold p hp)).trans ?_
    rw [hres p hp]
    change (st.resident p && _) = st.resident p
    -- The displaced entry has the id of the request, so it was not resident.
    by_cases hg : p ∈ o :: ((st.index c.index).find? o.id).toList
    · have hpn : st.resident p = false := by
        rw [List.mem_cons, Option.mem_toList] at hg
        rcases hg with rfl | hg
        · exact absurd hp hfresh
        · refine Bool.eq_false_iff.mpr fun hr => hid ?_
          rw [← hoid]
          exact mem_ids_iff.mpr ⟨p, find?_eq_some_iff.mpr ⟨hg, hr⟩⟩
      rw [hpn, Bool.false_and]
    · rw [decide_eq_true hg, Bool.and_true]

theorem discard_unlink_yields (h : c.Coherent st) (o : CacheObject) :
    ∃ c' st' gone, (discard (unlink o)).Yields c st PUnit.unit c' st' ∧ Sheds gone st c st' c' ∧
      ∀ p ∈ gone, p = o := by
  by_cases ho : o ∈ c.objects
  · obtain ⟨c', st', hy, hs, -⟩ := unlink_of_mem h ho
    refine ⟨c', st', [o], ?_, hs, fun p hp => List.mem_singleton.mp hp⟩
    unfold Yields
    rw [discard_apply, show unlink o c st = _ from hy]
  · refine ⟨c, st, [], ?_, Sheds.refl h, by simp⟩
    unfold Yields
    rw [discard_apply, show unlink o c st = _ from unlink_of_notMem h.toLinked ho]

/-- What remains of linking once the object stands in the index. -/
theorem Enters.admits {st₁ st₂ : Store} {c₁ : Lru} {b : Bytes} (h : Enters o st c st₁)
    (hc : c.Coherent st) (hs : Sheds gone st₁ c st₂ c₁) (hg : o ∉ gone)
    (hb : b.toNat = c₁.occupied.toNat + (c.charge o.size).toNat)
    (hle : b.toNat ≤ c.params.capacity.toNat) :
    Admits o gone st c
      { st₂ with objects := (c₁.queue.pushFront st₂.objects o).2.setResident o true }
      { c₁ with queue := (c₁.queue.pushFront st₂.objects o).1, occupied := b } := by
  have hoc : o ∉ c.objects := fun ho => h.fresh (hc.issued ho)
  have hoc₁ : o ∉ c₁.objects := fun ho => hoc (hs.mem_objects_iff.mp ho).1
  have hio : st₂.objects.Issued o := (hs.issued o).mpr h.new
  have he : c₁.entry? st₂ o.id = some o := by
    rw [hs.entry?, h.entry, Option.filter_some, if_pos (by simpa using hg)]
  obtain ⟨k, hl, hslots, hlist⟩ := hs.linked.pushFront hio hoc₁ he b
  rw [hslots]
  have hne : ∀ p, st.objects.Issued p → p ≠ o := fun p hp e => h.fresh (e ▸ hp)
  have hi₂ : ∀ p, st.objects.Issued p → st₂.objects.Issued p :=
    fun p hp => (hs.issued p).mpr (h.issued_of p hp)
  have hobj : (c₁.queue.pushFront st₂.objects o).1.toList = o :: c.objects.filter (· ∉ gone) := by
    rw [hlist, hs.objects]
  constructor
  case toLinked => exact hl
  case toCharged =>
    constructor
    case occupied =>
      change b.toNat = c₁.bytes (c₁.queue.pushFront st₂.objects o).1.toList
      rw [hlist, bytes_cons, hb, hs.occupied, Nat.add_comm]
      unfold charge
      rw [hs.params]
    case within =>
      change b.toNat ≤ c₁.params.capacity.toNat
      rwa [hs.params]
  case params => exact hs.params
  case index => exact hs.index
  case fresh => exact h.fresh
  case subset => exact hs.subset
  case objects => exact hobj
  case entry_of =>
    intro id p hp
    change c₁.entry? st₂ id = some p at hp
    rw [hs.entry?, Option.filter_eq_some_iff, decide_eq_true_eq] at hp
    exact (h.entry_of hp.1).imp_right fun hp' => ⟨hp', hp.2⟩
  case resident_self =>
    change ((st₂.objects.setSlot o (some k)).setResident o true).resident o = true
    rw [Objects.resident_setResident, if_pos rfl]
  case resident =>
    intro p hp
    change ((st₂.objects.setSlot o (some k)).setResident o true).resident p = _
    rw [Objects.resident_setResident, Objects.resident_setSlot,
      if_neg fun e => hne p hp ((hi₂ p hp).eq_of_serial_eq hio e)]
    exact (hs.resident p (h.issued_of p hp)).trans (by rw [h.resident p hp])
  case slot =>
    intro p hp hn
    change ((st₂.objects.setSlot o (some k)).setResident o true).slot p = _
    rw [Objects.slot_setResident, Objects.slot_setSlot_issued hio (hi₂ p hp), if_neg (hne p hp)]
    exact (hs.slot p (h.issued_of p hp) hn).trans (h.slot p hp)
  case issued_of =>
    intro p hp
    exact ((hi₂ p hp).setSlot o (some k)).setResident o true
  case size => exact h.size.trans hs.size
  case others => exact fun i hi => (hs.others i hi).trans (h.others i hi)

/-- The object that a request admits. -/
structure Made (r : Request) (o : CacheObject) : Prop where
  id : o.id = r.id
  size : o.size = r.size
  expiry : o.expiry = r.expiry

theorem link_yields (h : c.Coherent st) {r : Request} (hid : r.id ∉ c.ids st)
    (hroom : c.occupied.toNat + (c.charge r.size).toNat ≤ c.params.capacity.toNat) :
    ∃ o c' st' gone, (link r).Yields c st o c' st' ∧ Admits o gone st c st' c' ∧ Made r o ∧
      ∀ p ∈ gone, p ∈ c.orphans st ∧ c.entry? st r.id = some p := by
  have he := enters_create h hid r.size r.expiry
  obtain ⟨o, ho⟩ : ∃ o, o = (st.objects.create r.id r.size r.expiry).1 := ⟨_, rfl⟩
  obtain ⟨s, hs⟩ : ∃ s, s = (st.objects.create r.id r.size r.expiry).2 := ⟨_, rfl⟩
  have hmade : Made r o := by
    subst ho
    exact ⟨rfl, rfl, rfl⟩
  rw [← ho, ← hs] at he
  have hlt := c.params.capacity.toNat_lt_size
  have hfst : ((st.index c.index).insert s o).1 = c.entry? st r.id := by
    rw [Index.insert_fst, hmade.id]
    rfl
  obtain ⟨st₁, hst₁⟩ : ∃ st₁ : Store, st₁ = { st with
    objects := ((st.index c.index).insert s o).2.2
    indexes := st.indexes.set c.index ((st.index c.index).insert s o).2.1 } := ⟨_, rfl⟩
  rw [← hst₁] at he
  -- Of what the new entry displaced, only an orphan can still be queued.
  obtain ⟨c₁, st₂, gone, hnone, hsome, hsheds, hgone⟩ :
      ∃ c₁ st₂ gone, (c.entry? st r.id = none → c = c₁ ∧ st₁ = st₂) ∧
        (∀ stale, c.entry? st r.id = some stale →
          (discard (unlink stale)).Yields c st₁ PUnit.unit c₁ st₂) ∧
        Sheds gone st₁ c st₂ c₁ ∧ ∀ p ∈ gone, c.entry? st r.id = some p := by
    cases hc : c.entry? st r.id with
    | none =>
      exact ⟨c, st₁, [], fun _ => ⟨rfl, rfl⟩, fun _ h => (by cases h), Sheds.refl he.toCoherent,
        by simp⟩
    | some stale =>
      obtain ⟨c₁, st₂, gone, hy, hsh, hg⟩ := discard_unlink_yields he.toCoherent stale
      refine ⟨c₁, st₂, gone, fun h => (by cases h), fun p hp => ?_, hsh, fun p hp => by rw [hg p hp]⟩
      obtain rfl := Option.some.inj hp
      exact hy
  have hogone : o ∉ gone := fun hg => he.fresh (h.issued_entry (hgone o hg))
  have hle : c₁.occupied.toNat ≤ c.occupied.toNat := by
    exact hsheds.occupied_le h.toCharged
  have hcharge : c₁.charge r.size = c.charge r.size := hsheds.charge_eq r.size
  have hadd : Word.add c₁.occupied (c₁.charge r.size) = .ok (c₁.occupied + c.charge r.size) := by
    rw [hcharge, Word.add_eq_ok_iff, Word.toNat_add_of_lt (by omega)]
  have hsum : (c₁.occupied + c.charge r.size).toNat =
      c₁.occupied.toNat + (c.charge r.size).toNat := Word.toNat_add_of_lt (by omega)
  refine ⟨o, { c₁ with
    queue := (c₁.queue.pushFront st₂.objects o).1
    occupied := c₁.occupied + c.charge r.size }, _, gone, ?_, he.admits h hsheds hogone ?_ ?_, hmade,
    fun p hp => ⟨List.mem_filter.mpr ⟨hsheds.subset p hp, ?_⟩, hgone p hp⟩⟩
  · have hcreate : CacheM.createFor r st = .ok o { st with objects := s } := by
      rw [ho, hs]
      rfl
    unfold Yields link
    simp only [bind_apply, get_apply, lift_apply, hcreate, onIndex_apply]
    have hindex : ({ st with objects := s } : Store).index c.index = st.index c.index := rfl
    rw [hindex]
    rw [← hst₁]
    cases hi : ((st.index c.index).insert s o).1 with
    | none =>
      obtain ⟨rfl, rfl⟩ := hnone (hfst ▸ hi)
      simp only [bind_apply, get_apply, getThe_apply, modifyThe_apply, checked_apply, hadd,
        set_apply, pure_apply]
    | some stale =>
      simp only [bind_apply, show discard (unlink stale) c _ = _ from hsome stale (hfst ▸ hi),
        get_apply, getThe_apply, modifyThe_apply, checked_apply, hadd, set_apply, pure_apply]
  · rw [hsum, hmade.size]
  · omega
  · have hr : st.resident p = false := Bool.eq_false_iff.mpr fun hr => hid
      (mem_ids_iff.mpr ⟨p, find?_eq_some_iff.mpr ⟨hgone p hp, hr⟩⟩)
    rw [hr]
    rfl

/-! ## Insertion -/

/-- What an insertion returns and leaves. Objects leave the cache to make room,
because they have the id of the new one, or because they are orphans. -/
inductive Inserted (r : Request) (st : Store) (c : Lru) : Option CacheObject → Lru → Store → Prop
  | refused {c' : Lru} {st' : Store} (large : c.params.capacity < c.charge r.size)
    (sheds : Sheds [] st c st' c') : Inserted r st c none c' st'
  | admitted {c' : Lru} {st' : Store} {o : CacheObject} {gone : List CacheObject}
    (fits : c.charge r.size ≤ c.params.capacity) (made : Made r o)
    (admits : Admits o gone st c st' c')
    (spared : Word.saturatingAdd c.occupied (c.charge r.size) ≤ c.params.capacity →
      ∀ p ∈ gone, p ∈ c.orphans st ∨ p.id = r.id) :
    Inserted r st c (some o) c' st'

/-- What is an orphan after a shedding was one before. -/
theorem Sheds.orphans_subset (h : Sheds gone st c st' c') (hc : c.Linked st)
    (hp : p ∈ c'.orphans st') : p ∈ c.orphans st := by
  obtain ⟨hm, hr⟩ := List.mem_filter.mp hp
  obtain ⟨hm, hg⟩ := h.mem_objects_iff.mp hm
  refine List.mem_filter.mpr ⟨hm, ?_⟩
  rwa [h.resident p (hc.issued hm), decide_eq_true hg, Bool.and_true] at hr

/-- The steps of an insertion: what it displaces leaves, then what stood in the way of the
charge, and the new object takes the place of an entry that is an orphan, if there is one. -/
inductive Proceeds (r : Request) (st : Store) (c : Lru) : Option CacheObject → Lru → Store → Prop
  | refused {c' : Lru} {st' : Store} (large : c.params.capacity < c.charge r.size)
    (sheds : Sheds [] st c st' c') : Proceeds r st c none c' st'
  | admitted {c₁ c₂ c' : Lru} {st₁ st₂ st' : Store} {o : CacheObject}
    {gone stale : List CacheObject} (fits : c.charge r.size ≤ c.params.capacity)
    (displaced : Sheds (c.displaced st r.id) st c st₁ c₁) (sheds : Sheds gone st₁ c₁ st₂ c₂)
    (front : c₂.objects <+: c₁.objects)
    (roomy : Word.saturatingAdd c.occupied (c.charge r.size) ≤ c.params.capacity → gone = [])
    (admits : Admits o stale st₂ c₂ st' c') (made : Made r o)
    (stale_of : ∀ p ∈ stale, p ∈ c₂.orphans st₂ ∧ c₂.entry? st₂ r.id = some p) :
    Proceeds r st c (some o) c' st'

theorem proceeds_insert (h : c.Coherent st) (r : Request) :
    (insert r).Ensures c st (Proceeds r st c) := by
  unfold insert
  rw [ensures_get_bind]
  dsimp only
  split
  next hgt =>
    rw [ensures_emit_bind, ensures_pure]
    exact .refused hgt (Sheds.report h _ c.counters)
  next hle =>
    have hle : c.charge r.size ≤ c.params.capacity := UInt64.not_lt.mp hle
    obtain ⟨c₁, st₁, hy₁, hs₁⟩ := displace_sheds h r
    have hid₁ := hs₁.notMem_ids_displaced h.toLinked
    have hcharge₁ : c₁.charge r.size = c.charge r.size := hs₁.charge_eq r.size
    have hless : Word.saturatingAdd c₁.occupied (c.charge r.size) ≤
        Word.saturatingAdd c.occupied (c.charge r.size) :=
      Word.saturatingAdd_le_left (UInt64.le_iff_toNat_le.mpr (hs₁.occupied_le h.toCharged)) _
    rw [ensures_bind_of_yields hy₁, ensures_bind_iff]
    apply (ensures_makeRoom hs₁.coherent (by rwa [hs₁.params])).mono
    intro _ c₂ st₂ hs₂
    obtain ⟨gone₂, hs₂, hroom, hfront, hspared⟩ := hs₂
    have hcharge₂ : c₂.charge r.size = c.charge r.size := (hs₂.charge_eq r.size).trans hcharge₁
    have hid₂ : r.id ∉ c₂.ids st₂ := fun hid => hid₁ (hs₂.ids_subset hs₁.linked hid)
    obtain ⟨o, c₃, st₃, stale, hy₃, ha, hmade, hstale⟩ :=
      link_yields hs₂.coherent hid₂ (by rwa [hcharge₂])
    rw [ensures_bind_of_yields hy₃, ensures_bind_iff]
    apply ensures_recordCore (fun k => k.sums_recordInsertion r.size)
    intro counters _
    refine .admitted hle hs₁ hs₂ hfront (fun hroom => hspared ?_) (ha.counters counters) hmade
      hstale
    rw [hs₁.params]
    exact UInt64.le_trans hless hroom

theorem ensures_insert (h : c.Coherent st) (r : Request) :
    (insert r).Ensures c st (Inserted r st c) := by
  apply (proceeds_insert h r).mono
  intro res c' st' hp
  cases hp with
  | refused hgt hs => exact .refused hgt hs
  | admitted hle hs₁ hs₂ _ hroomy ha hmade hstale =>
    refine .admitted hle hmade (hs₁.admits (hs₂.admits ha)) fun hroom p hp => ?_
    rw [hroomy hroom, List.nil_append, List.mem_append] at hp
    rcases hp with hp | hp
    · exact of_mem_displaced hp
    · exact .inl (hs₁.orphans_subset h.toLinked (hs₂.orphans_subset hs₁.linked (hstale p hp).1))

end SegmentedCache.Lru
