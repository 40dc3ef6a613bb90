import SegmentedCache.Proofs.World.Coherence

/-!
# Copies of one id

An insertion is to leave one object with the id that it admits. Copies that lost
their entry in the index are dropped together with all other orphans, if the cache
sees that its index was written from outside: the entry for the id is foreign, or
the index has fewer entries than the queue has objects. Neither need show. A copy
whose entry was deleted is overlooked if another id was entered in the meantime, or
once a newer copy has the entry, and then only an eviction takes it out.
-/
namespace SegmentedCache

namespace Lru
variable {st st' st₁ st₂ : Store} {c c' c₁ c₂ : Lru} {o p : CacheObject} {r : Request}
  {gone : List CacheObject}

/-- An orphan that may stay is one that the cache overlooks. -/
theorem overlooks_of_orphan {id : ObjectId} (hp : p ∈ c.orphans st)
    (hn : p ∉ c.displaced st id) : c.overlooks st id = true := by
  by_contra ho
  unfold displaced at hn
  rw [if_neg ho] at hn
  exact hn hp

/-- Once the displaced objects are out, no orphan is left that still has the entry. -/
theorem entry?_ne_of_displaced (h : c.Linked st) (hd : Sheds (c.displaced st r.id) st c st₁ c₁)
    (hg : Sheds gone st₁ c₁ st₂ c₂) (hp : p ∈ c₂.orphans st₂) : c₂.entry? st₂ r.id ≠ some p := by
  intro he
  rw [hg.entry?, Option.filter_eq_some_iff, hd.entry?, Option.filter_eq_some_iff,
    decide_eq_true_eq] at he
  have horphan := hd.orphans_subset h (hg.orphans_subset hd.linked hp)
  have hover := overlooks_of_orphan horphan he.1.2
  unfold overlooks at hover
  rw [he.1.1] at hover
  have hr := (List.mem_filter.mp horphan).2
  rw [show st.resident p = true from hover] at hr
  cases hr

/-- Behind a new object stand the objects that were not displaced, up to some point. -/
theorem Proceeds.objects (h : c.Linked st) (hp : Proceeds r st c (some o) c' st') :
    Made r o ∧ st'.resident o = true ∧ ∃ rest, c'.objects = o :: rest ∧
      rest <+: c.objects.filter (· ∉ c.displaced st r.id) ∧
      (Word.saturatingAdd c.occupied (c.charge r.size) ≤ c.params.capacity →
        rest = c.objects.filter (· ∉ c.displaced st r.id)) := by
  cases hp with
  | @admitted c₁ c₂ _ st₁ st₂ _ _ gone stale _ hs₁ hs₂ hfront hroomy ha hmade hstale =>
    have hnil : stale = [] := List.eq_nil_iff_forall_not_mem.mpr fun p hp =>
      entry?_ne_of_displaced h hs₁ hs₂ (hstale p hp).1 (hstale p hp).2
    refine ⟨hmade, ha.resident_self, c₂.objects, ?_, ?_, fun hroom => ?_⟩
    · rw [ha.objects, hnil]
      simp
    · rwa [← hs₁.objects]
    · rw [hs₂.objects, hroomy hroom, hs₁.objects]
      simp

/-- Of the objects with the id, only orphans are not displaced. -/
theorem mem_orphans_of_id (h : c.Linked st) (hp : p ∈ c.objects) (hn : p ∉ c.displaced st p.id) :
    p ∈ c.orphans st := by
  refine List.mem_filter.mpr ⟨hp, ?_⟩
  rw [Bool.not_eq_true', Bool.eq_false_iff]
  intro hr
  exact hn (mem_displaced_of_find? (h.find?_eq_some_iff_mem.mpr ⟨hp, hr, rfl⟩))

/-- A cache that overlooks its orphans displaces none of them. -/
theorem notMem_displaced_of_overlooks {id : ObjectId} (ho : c.overlooks st id = true)
    (hp : p ∈ c.orphans st) : p ∉ c.displaced st id := by
  unfold displaced
  rw [if_pos ho, Option.mem_toList]
  intro hf
  have hr := (List.mem_filter.mp hp).2
  rw [(find?_eq_some_iff.mp hf).2] at hr
  cases hr

end Lru

namespace World
variable {w : World} {m : Member} {c : Lru}

/-- In every world, what a cache admits stands at the front of its queue, and the bytes of all
objects in the queue are counted. Behind it are the objects of before, without those that the
admission displaces and those that had to make room. Another object with the id is an orphan that
the cache overlooked; where there was room, it keeps all that it overlooks. -/
theorem Reachable.insert_leaves_overlooked_copies (h : Reachable w) (hm : m ∈ w.members)
    (hc : c ∈ m.tier.leaves) {r : Request} {o : CacheObject} {c' : Lru} {st : Store}
    (hi : (Lru.insert r).Yields c w.store (some o) c' st) :
    Lru.Made r o ∧ st.resident o = true ∧ ∃ rest, c'.objects = o :: rest ∧
      Policy.count c' = rest.length + 1 ∧
      c'.occupied.toNat = (c'.charge o.size).toNat + c'.bytes rest ∧
      rest <+: c.objects.filter (· ∉ c.displaced w.store r.id) ∧
      (∀ p ∈ rest, p.id = r.id → p ∈ c.orphans w.store ∧ c.overlooks w.store r.id = true) ∧
      (Word.saturatingAdd c.occupied (c.charge r.size) ≤ c.params.capacity →
        c.overlooks w.store r.id = true → ∀ p ∈ c.orphans w.store, p ∈ rest) := by
  have hcoh : c.Coherent w.store := h.sound.coherent hm hc
  have hp := (Lru.proceeds_insert hcoh r).apply hi
  obtain ⟨hmade, hres, rest, hobj, hrest, hroomy⟩ := hp.objects hcoh.toLinked
  have hcoh' : c'.Coherent st := Lru.sound_iff.mp
    (((Lru.ensures_insert hcoh r).apply hi).kept hcoh).1.toSound
  refine ⟨hmade, hres, rest, hobj, ?count, ?bytes, hrest, ?further, ?kept⟩
  case count =>
    change c'.queue.length = _
    rw [← hcoh'.length_objects, hobj, List.length_cons]
  case bytes => rw [hcoh'.occupied, hobj, Lru.bytes_cons]
  case further =>
    intro p hp hid
    obtain ⟨hpc, hpn⟩ := List.mem_filter.mp (hrest.subset hp)
    have hpn := of_decide_eq_true hpn
    have horphan := Lru.mem_orphans_of_id hcoh.toLinked hpc (hid ▸ hpn)
    exact ⟨horphan, Lru.overlooks_of_orphan horphan hpn⟩
  case kept =>
    intro hroom hover p hp
    rw [hroomy hroom]
    exact List.mem_filter.mpr ⟨List.mem_of_mem_filter hp,
      decide_eq_true (Lru.notMem_displaced_of_overlooks hover hp)⟩

/-- The cache sees that an entry is missing, and the object that comes back is alone. -/
theorem insert_leaves_overlooked_copies_orphaned :
    ∃ m ∈ orphaned.members, ∃ c ∈ m.tier.leaves, ∃ o c' st,
      (Lru.insert ⟨1, 3, 0, none⟩).Yields c orphaned.store (some o) c' st ∧
      (∃ p ∈ c.orphans orphaned.store, p.id = 1) ∧ ∀ p ∈ c'.objects, p.id = 1 → p = o := by
  have hr : Reachable orphaned := (((Reachable.start.build _ _).work _).work _).delete 0 1
  have hrun : ∃ m ∈ orphaned.members, ∃ c ∈ m.tier.leaves,
      (∃ p ∈ c.orphans orphaned.store, p.id = 1) ∧ c.overlooks orphaned.store 1 = false ∧
      (match Lru.insert ⟨1, 3, 0, none⟩ c orphaned.store with
        | .ok (made, _) _ => made.isSome
        | .error _ _ => false) = true := by
    decide +kernel
  obtain ⟨m, hm, c, hc, horphan, hover, hrun⟩ := hrun
  split at hrun
  next made c' st hi =>
    obtain ⟨o, rfl⟩ := Option.isSome_iff_exists.mp hrun
    obtain ⟨-, -, rest, hobj, -, -, -, hfurther, -⟩ :=
      hr.insert_leaves_overlooked_copies hm hc (r := ⟨1, 3, 0, none⟩) hi
    refine ⟨m, hm, c, hc, o, c', st, hi, horphan, fun p hp hid => ?_⟩
    rw [hobj, List.mem_cons] at hp
    refine hp.resolve_right fun hp => ?_
    have hover' := (hfurther p hp hid).2
    rw [show c.overlooks orphaned.store 1 = true from hover'] at hover
    cases hover
  next => cases hrun

/-- One object was deleted behind the back of its cache, and another was entered in its stead. -/
def masked : World :=
  (((empty.build (.lru {} false : Blueprint 0) ⟨100, 0, 0⟩).work
    (.serve ⟨1, 10, 0, none⟩)).delete 0 1).enter 0 9 1

/-- The index has as many entries as the queue has objects, so the old copy stays. -/
theorem second_copy :
    ¬ ∀ w, Reachable w → ∀ m ∈ w.members, ∀ c ∈ m.tier.leaves, ∀ r o c' st,
      (Lru.insert r).Yields c w.store (some o) c' st →
        (c'.objects.filter fun p => p.id = r.id) = [o] := by
  intro hall
  have hr : Reachable masked := (((Reachable.start.build _ _).work _).delete 0 1).enter 0 9 1
  have hrun : ∃ m ∈ masked.members, ∃ c ∈ m.tier.leaves,
      (match Lru.insert ⟨1, 10, 0, none⟩ c masked.store with
        | .ok (made, c') _ =>
          made.isSome && (c'.objects.filter fun p => p.id = 1).length == 2
        | .error _ _ => false) = true := by
    decide +kernel
  obtain ⟨m, hm, c, hc, hrun⟩ := hrun
  split at hrun
  next made c' st hi =>
    rw [Bool.and_eq_true, beq_iff_eq] at hrun
    obtain ⟨o, rfl⟩ := Option.isSome_iff_exists.mp hrun.1
    have hone := hall masked hr m hm c hc ⟨1, 10, 0, none⟩ o c' st hi
    have htwo := hrun.2
    dsimp only at hone
    rw [hone] at htwo
    cases htwo
  next => cases hrun

end World
end SegmentedCache
