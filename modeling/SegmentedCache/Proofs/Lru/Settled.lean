import SegmentedCache.Proofs.Index.Buckets
import SegmentedCache.Proofs.Lru.Plain
import SegmentedCache.Proofs.Lru.Tidy

/-!
# Settled caches

While nobody else writes to its index, a least-recently-used cache queues resident
objects only and its index has no entries but theirs: it is settled. Then its
queue, read as a list of entries, goes through every operation as the plain list
does and answers the same: `Settled.ensures_perform`. Each operation is settled by
the objects it sheds or admits, and only `makeRoomWithin` needs an induction, with
the longest prefix that fits as its invariant.
-/
namespace SegmentedCache

def CacheObject.entry (o : CacheObject) : Entry := ⟨o.id, o.size, o.expiry⟩

/-- The response without the identity of the object in it. -/
def Response.plain : Response → Plain.Answer
  | .found outcome => .found outcome
  | .object o => .entry (o.map CacheObject.entry)

namespace Lru
open SegmentedCache.Action Policy
variable {st st' : Store} {c c' : Lru} {o p : CacheObject} {id : ObjectId} {gone : List CacheObject}

/-- The cache as a list of entries. -/
def plain (c : Lru) : Plain where
  capacity := c.params.capacity.toNat
  overhead := c.params.overhead.toNat
  entries := c.objects.map CacheObject.entry

theorem plain_charge (c : Lru) (size : Bytes) : c.plain.charge size = (c.charge size).toNat := by
  unfold Plain.charge charge
  rw [Word.toNat_saturatingAdd, Word.toNat_largest]
  rfl

theorem plain_bytes (h : c.Charged) : c.plain.bytes = c.occupied.toNat := by
  have hcost : c.plain.cost ∘ CacheObject.entry = fun o => (c.charge o.size).toNat :=
    funext fun o => c.plain_charge o.size
  rw [h.occupied, Plain.bytes, bytes, ← hcost, ← List.map_map]
  rfl

/-- The queue has resident objects only, and the index has none but these. -/
structure Settled (st : Store) (c : Lru) : Prop extends Coherent st c where
  tidy : ∀ o ∈ c.objects, st.resident o = true
  whole : ∀ {id o}, c.entry? st id = some o → o ∈ c.objects

namespace Settled

theorem sheds (h : Settled st c) (hs : Sheds gone st c st' c') : Settled st' c' where
  toCoherent := hs.coherent
  tidy o ho := by
    obtain ⟨ho, hg⟩ := hs.mem_objects_iff.mp ho
    rw [hs.resident o (h.issued ho), h.tidy o ho, decide_eq_true hg, Bool.and_true]
  whole he := by
    rw [hs.entry?, Option.filter_eq_some_iff, decide_eq_true_eq] at he
    exact hs.mem_objects_iff.mpr ⟨h.whole he.1, he.2⟩

theorem admits (h : Settled st c) (ha : Admits o gone st c st' c') : Settled st' c' where
  toCoherent := ha.coherent
  tidy p hp := by
    rw [ha.objects, List.mem_cons, List.mem_filter, decide_eq_true_eq] at hp
    rcases hp with rfl | ⟨hp, hg⟩
    · exact ha.resident_self
    · rw [ha.resident p (h.issued hp), h.tidy p hp, decide_eq_true hg, Bool.and_true]
  whole he := by
    rw [ha.objects, List.mem_cons, List.mem_filter, decide_eq_true_eq]
    exact (ha.entry_of he).imp_right fun ⟨hp, hg⟩ => ⟨h.whole hp, hg⟩

theorem touches (h : Settled st c) (ht : Touches o st c c') : Settled st c' where
  toCoherent := ht.coherent
  tidy p hp := h.tidy p (ht.mem_objects_iff.mp hp)
  whole he := by
    unfold entry? at he
    rw [ht.index] at he
    exact ht.mem_objects_iff.mpr (h.whole he)

theorem counted (h : Settled st c) (counters : LruCounters) : Settled st { c with counters } :=
  h.sheds (Sheds.report h.toCoherent st.events counters)

/-- The index has as many entries as the queue. -/
theorem count_index (h : Settled st c) : (st.index c.index).count = c.objects.length := by
  have hperm : (st.index c.index).entries.Perm c.objects := by
    refine (List.perm_ext_iff_of_nodup h.valid.nodup_entries.of_map h.nodup).mpr fun o => ?_
    rw [Index.mem_entries_iff h.valid]
    exact ⟨h.whole, fun ho => h.entered o ho (h.tidy o ho)⟩
  rw [h.valid.counted, hperm.length_eq]

/-- A lookup is a search of the list. -/
theorem find?_plain (h : Settled st c) (id : ObjectId) :
    c.plain.find? id = (c.find? st id).map CacheObject.entry := by
  have hfind : c.find? st id = c.objects.find? fun o => decide (o.id = id) := by
    cases hf : c.objects.find? fun o => decide (o.id = id) with
    | none =>
      refine Option.eq_none_iff_forall_ne_some.mpr fun o ho => ?_
      obtain ⟨hm, hid⟩ := (find?_eq_some_iff_of_tidy h.toLinked h.tidy).mp ho
      exact absurd hid (by simpa using List.find?_eq_none.mp hf o hm)
    | some o =>
      refine (find?_eq_some_iff_of_tidy h.toLinked h.tidy).mpr ⟨List.mem_of_find?_eq_some hf, ?_⟩
      simpa using List.find?_some hf
  rw [hfind, Plain.find?, plain, List.find?_map]
  rfl

/-- Shedding what has an id is erasing the id. -/
theorem plain_sheds (hs : Sheds gone st c st' c') (hg : ∀ o ∈ c.objects, o ∈ gone ↔ o.id = id) :
    c'.plain = c.plain.erase id := by
  unfold plain Plain.erase
  rw [hs.params, hs.objects, List.filter_map]
  congr 2
  refine List.filter_congr fun o ho => ?_
  change decide (o ∉ gone) = decide (o.id ≠ id)
  rw [decide_eq_decide, hg o ho]

/-- An object is told from the others by its id. -/
theorem mem_singleton_iff (h : Settled st c) (ho : o ∈ c.objects) :
    ∀ p ∈ c.objects, p ∈ [o] ↔ p.id = o.id := by
  intro p hp
  rw [List.mem_singleton]
  exact ⟨fun e => by rw [e], h.eq_of_id_eq hp ho (h.tidy p hp) (h.tidy o ho)⟩

theorem plain_touches (h : Settled st c) (ht : Touches o st c c') :
    c'.plain = c.plain.touch o.entry := by
  have hrest : (c.objects.filter (· ≠ o)).map CacheObject.entry =
      (c.plain.erase o.id).entries := by
    unfold plain Plain.erase
    dsimp only
    rw [List.filter_map]
    refine congrArg _ (List.filter_congr fun p hp => ?_)
    change decide (p ≠ o) = decide (p.id ≠ o.id)
    rw [decide_eq_decide, ne_eq, ne_eq, ← h.mem_singleton_iff ht.mem p hp, List.mem_singleton]
  unfold Plain.touch
  rw [← show (o.entry).id = o.id from rfl] at hrest
  rw [← hrest]
  unfold plain
  rw [ht.params, ht.objects]
  rfl

/-! ## Evictions and room -/

theorem ensures_evict (h : Settled st c) :
    Lru.evict.Ensures c st fun victim c' st' => (∃ gone, Sheds gone st c st' c') ∧
      c.plain.perform .evict = (.entry (victim.map CacheObject.entry), c'.plain) := by
  apply (Lru.ensures_evict h.toCoherent).mono
  intro victim c' st' he
  refine ⟨he.sheds, ?_⟩
  obtain ⟨gone, hs⟩ := he.sheds
  unfold Plain.perform plain
  rcases he.of_tidy h.tidy h.toLinked with ⟨rfl, hnil⟩ | ⟨v, rfl, hc⟩
  · have hnil' : c'.objects = [] := by rw [hs.objects, hnil, List.filter_nil]
    simp [hnil, hnil', hs.params]
  · simp [hc, hs.params]

/-- Making room keeps the longest prefix that fits beside the charge. -/
theorem ensures_makeRoomWithin {charge : Bytes} (fuel : Nat) (h : Settled st c)
    (hle : charge ≤ c.params.capacity) (hf : c.plain.entries.length < fuel) :
    (makeRoomWithin charge fuel).Ensures c st fun _ c' st' => (∃ gone, Sheds gone st c st' c') ∧
      c'.plain = { c.plain with
        entries := keepWithin c.plain.cost (c.plain.capacity - charge.toNat) c.plain.entries } := by
  induction fuel generalizing c st with
  | zero => cases hf
  | succ fuel ih =>
    unfold makeRoomWithin
    rw [ensures_get_bind]
    apply ensures_checked_bind (Word.sums_add _ _)
    intro total ht
    rw [Word.add_eq_ok_iff] at ht
    have hbytes : (c.plain.entries.map c.plain.cost).sum = c.occupied.toNat :=
      plain_bytes h.toCharged
    split
    next hgt =>
      have hfull : c.plain.capacity - charge.toNat < (c.plain.entries.map c.plain.cost).sum := by
        have hlt := UInt64.lt_iff_toNat_lt.mp hgt
        have hle := UInt64.le_iff_toNat_le.mp hle
        change c.params.capacity.toNat - charge.toNat < _
        omega
      rw [ensures_bind_iff]
      apply h.ensures_evict.mono
      intro victim c₁ st₁ hk
      obtain ⟨⟨gone, hs⟩, hk⟩ := hk
      obtain ⟨hlast, hplain⟩ := Prod.mk.inj hk
      have hlast := Plain.Answer.entry.inj hlast
      cases victim with
      | none =>
        have hnil := List.getLast?_eq_none_iff.mp hlast
        refine ensures_pure.mpr ⟨⟨gone, hs⟩, ?_⟩
        rw [← hplain, hnil]
        rfl
      | some v =>
        have hc : c.plain.entries = c.plain.entries.dropLast ++ [v.entry] :=
          (List.dropLast_append_getLast? v.entry hlast).symm
        rw [hc] at hfull
        have hfewer : c₁.plain.entries.length < fuel := by
          have hlen := congrArg List.length hc
          rw [List.length_append, List.length_singleton] at hlen
          rw [← hplain]
          dsimp only
          omega
        apply (ih (h.sheds hs) (by rwa [hs.params]) hfewer).mono
        intro _ c' st' hk'
        obtain ⟨⟨gone', hs'⟩, hkept⟩ := hk'
        refine ⟨⟨_, hs.trans hs'⟩, ?_⟩
        rw [hkept, ← hplain]
        refine congrArg (fun l => { c.plain with entries := l }) ?_
        conv_rhs => rw [hc]
        exact (keepWithin_concat hfull).symm
    next hfits =>
      have hfits := UInt64.le_iff_toNat_le.mp (UInt64.not_lt.mp hfits)
      refine ⟨⟨[], Sheds.refl h.toCoherent⟩, ?_⟩
      rw [keepWithin_of_le]
      change _ ≤ c.params.capacity.toNat - charge.toNat
      omega

/-! ## The operations -/

theorem displace (h : Settled st c) (r : Request) :
    ∃ c' st' gone, (Lru.displace r).Yields c st () c' st' ∧ Sheds gone st c st' c' ∧
      r.id ∉ c'.ids st' ∧ c'.plain = c.plain.erase r.id := by
  obtain ⟨c', st', gone, hy, hs, hid, hgone⟩ := displace_yields h.toCoherent r
  refine ⟨c', st', gone, hy, hs, hid, plain_sheds hs fun o ho => ⟨fun hg => ?_, fun e => ?_⟩⟩
  · rcases hgone o hg with horphan | e
    · have hr := (List.mem_filter.mp horphan).2
      rw [h.tidy o ho] at hr
      cases hr
    · exact e
  · by_contra hg
    have hs' := h.sheds hs
    have ho' := hs.mem_objects_iff.mpr ⟨ho, hg⟩
    exact hid (e ▸ mem_ids_iff.mpr
      ⟨o, (find?_eq_some_iff_of_tidy hs'.toLinked hs'.tidy).mpr ⟨ho', rfl⟩⟩)

/-- A new object comes in front of all that is there. -/
theorem plain_admits (h : Settled st c) (ha : Admits o gone st c st' c')
    (hg : ∀ p ∈ gone, p ∈ c.orphans st) :
    c'.plain = { c.plain with entries := o.entry :: c.plain.entries } := by
  have hnil : gone = [] := by
    refine List.eq_nil_iff_forall_not_mem.mpr fun p hp => ?_
    have hr := (List.mem_filter.mp (hg p hp)).2
    rw [h.tidy p (ha.subset p hp)] at hr
    cases hr
  unfold plain
  rw [ha.params, ha.objects, hnil]
  simp

theorem plain_of_nil (hs : Sheds [] st c st' c') : c'.plain = c.plain := by
  unfold plain
  rw [hs.params, hs.objects]
  simp

theorem ensures_insert (h : Settled st c) (r : Request) :
    (Lru.insert r).Ensures c st fun o c' st' => Settled st' c' ∧
      c.plain.perform (.insert r) = (.entry (o.map CacheObject.entry), c'.plain) := by
  unfold Lru.insert
  rw [ensures_get_bind]
  dsimp only
  split
  next hgt =>
    have hgt : ¬ c.plain.charge r.size ≤ c.plain.capacity := by
      rw [plain_charge]
      exact Nat.not_le.mpr (UInt64.lt_iff_toNat_lt.mp hgt)
    rw [ensures_emit_bind, ensures_pure]
    refine ⟨h.sheds (Sheds.report h.toCoherent _ c.counters), ?_⟩
    simp only [Plain.perform, Plain.enter, if_neg hgt, Option.map_none]
  next hle =>
    have hle : c.charge r.size ≤ c.params.capacity := UInt64.not_lt.mp hle
    obtain ⟨c₁, st₁, gone₁, hy₁, hs₁, hid₁, hplain₁⟩ := h.displace r
    have h₁ := h.sheds hs₁
    rw [ensures_bind_of_yields hy₁, ensures_bind_iff]
    unfold makeRoom
    rw [ensures_get_bind]
    have hfuel : c₁.plain.entries.length < c₁.queue.length + 1 := by
      rw [← h₁.length_objects]
      exact Nat.lt_succ_of_le (List.length_map ..).le
    apply (h₁.ensures_makeRoomWithin _ (by rwa [hs₁.params]) hfuel).mono
    intro _ c₂ st₂ hk
    obtain ⟨⟨gone₂, hs₂⟩, hkept⟩ := hk
    have h₂ := h₁.sheds hs₂
    -- what is kept fits beside the charge, so there is room for the link
    have hroom : c₂.occupied.toNat + (c₂.charge r.size).toNat ≤ c₂.params.capacity.toNat := by
      have hbytes : c₂.plain.bytes ≤ c₁.plain.capacity - (c.charge r.size).toNat := by
        rw [hkept]
        exact cost_keepWithin_le
      rw [plain_bytes h₂.toCharged] at hbytes
      have hle := UInt64.le_iff_toNat_le.mp hle
      unfold plain at hbytes
      unfold charge at *
      rw [hs₂.params]
      rw [hs₁.params] at *
      dsimp only at hbytes
      omega
    obtain ⟨o, c₃, st₃, gone₃, hy₃, ha, hmade, hg₃⟩ :=
      link_yields h₂.toCoherent (fun hid => hid₁ (hs₂.ids_subset hs₁.linked hid)) hroom
    rw [ensures_bind_of_yields hy₃, ensures_bind_iff]
    apply ensures_recordCore (fun k => k.sums_recordInsertion r.size)
    intro counters _
    refine ⟨(h₂.admits ha).counted counters, ?_⟩
    have hentry : o.entry = .ofRequest r := by
      unfold CacheObject.entry Entry.ofRequest
      rw [hmade.id, hmade.size, hmade.expiry]
    have hfits : (c.charge r.size).toNat ≤ c.plain.capacity := UInt64.le_iff_toNat_le.mp hle
    change _ = (_, c₃.plain)
    rw [h₂.plain_admits ha (fun p hp => (hg₃ p hp).1), hkept, hplain₁]
    simp only [Plain.perform, Plain.enter, plain_charge, if_pos hfits, Option.map_some, hentry]
    rfl

theorem ensures_check (h : Settled st c) (r : Request) (update : Bool) :
    (Lru.check r update).Ensures c st fun found c' st' => Settled st' c' ∧
      c.plain.check r update = (found, c'.plain) := by
  apply (Lru.ensures_check h.toCoherent r update).mono
  intro found c' st' hk
  have hexpired : ∀ o : CacheObject, o.entry.expiredAt r.time = o.expiredAt r.time := by
    intro o
    unfold Entry.expiredAt CacheObject.expiredAt CacheObject.entry
    cases o.expiry <;> rfl
  unfold Plain.check
  rw [h.find?_plain]
  cases hk with
  | miss absent =>
    rw [absent]
    exact ⟨h, rfl⟩
  | @expired _ _ o hf stale hs =>
    obtain ⟨ho, hid⟩ := (find?_eq_some_iff_of_tidy h.toLinked h.tidy).mp hf
    refine ⟨h.sheds hs, ?_⟩
    simp only [hf, Option.map_some, hexpired, stale, if_pos]
    cases update with
    | false => exact congrArg _ (plain_of_nil hs).symm
    | true => exact congrArg _ (plain_sheds hs (hid ▸ h.mem_singleton_iff ho)).symm
  | @hit _ o hf alive touched =>
    simp only [hf, Option.map_some, hexpired, alive, if_neg Bool.false_ne_true]
    cases update with
    | false =>
      obtain rfl := touched
      exact ⟨h, rfl⟩
    | true => exact ⟨h.touches touched, congrArg _ (h.plain_touches touched).symm⟩

theorem ensures_serve (h : Settled st c) (r : Request) :
    (Lru.serve r).Ensures c st fun found c' st' => Settled st' c' ∧
      c.plain.serve r = (found, c'.plain) := by
  unfold Lru.serve
  rw [ensures_bind_iff]
  apply (h.ensures_check r true).mono
  intro found c₁ st₁ hk
  obtain ⟨h₁, hcheck⟩ := hk
  unfold Plain.serve
  rw [hcheck]
  dsimp only
  rw [ensures_bind_iff]
  apply ensures_recordCore (fun k => k.sums_recordLookup r.size found)
  intro counters _
  have h₂ := h₁.counted counters
  by_cases hhit : found = .hit
  · rw [if_neg (not_not.mpr hhit), if_pos hhit]
    exact ⟨h₂, rfl⟩
  · rw [if_pos hhit, if_neg hhit, ensures_get_bind]
    dsimp only
    split
    next hle =>
      rw [ensures_bind_iff, ensures_discard]
      apply (h₂.ensures_insert r).mono
      intro o c' st' hk
      exact ⟨hk.1, congrArg (found, ·) (Prod.mk.inj hk.2).2⟩
    next hgt =>
      have hgt : ¬ c₁.plain.charge r.size ≤ c₁.plain.capacity := by
        rw [plain_charge]
        exact fun hle => hgt (UInt64.le_iff_toNat_le.mpr hle)
      rw [ensures_emit_bind, ensures_pure]
      refine ⟨h₂.sheds (Sheds.report h₂.toCoherent _ counters), ?_⟩
      rw [Plain.enter, if_neg hgt]
      rfl

theorem ensures_remove (h : Settled st c) (id : ObjectId) :
    (Lru.remove id).Ensures c st fun removed c' st' => Settled st' c' ∧
      c.plain.perform (.remove id) = (.entry (removed.map CacheObject.entry), c'.plain) := by
  apply (Lru.ensures_remove h.toCoherent id).mono
  intro removed c' st' hk
  simp only [Plain.perform, h.find?_plain]
  cases hk with
  | absent hf hs =>
    have hnone : ∀ o ∈ c.objects, o ∈ [] ↔ o.id = id := by
      intro o ho
      refine iff_of_false List.not_mem_nil fun hid => ?_
      rw [(find?_eq_some_iff_of_tidy h.toLinked h.tidy).mpr ⟨ho, hid⟩] at hf
      cases hf
    exact ⟨h.sheds hs, by rw [hf, plain_sheds hs hnone]⟩
  | @taken _ _ o hf hs =>
    obtain ⟨ho, hid⟩ := (find?_eq_some_iff_of_tidy h.toLinked h.tidy).mp hf
    exact ⟨h.sheds hs, by rw [hf, plain_sheds hs (hid ▸ h.mem_singleton_iff ho)]⟩

theorem ensures_perform (h : Settled st c) (op : Operation) :
    (perform op).Ensures c st fun response c' st' => Settled st' c' ∧
      c.plain.perform op = (response.plain, c'.plain) := by
  cases op with
  | serve r =>
    refine ensures_map.mpr ((h.ensures_serve r).mono fun found c' st' hk => ⟨hk.1, ?_⟩)
    simp only [Plain.perform, hk.2]
    rfl
  | check r update =>
    refine ensures_map.mpr ((h.ensures_check r update).mono fun found c' st' hk => ⟨hk.1, ?_⟩)
    simp only [Plain.perform, hk.2]
    rfl
  | insert r => exact ensures_map.mpr (h.ensures_insert r)
  | evict =>
    refine ensures_map.mpr (h.ensures_evict.mono fun victim c' st' hk => ?_)
    obtain ⟨⟨gone, hs⟩, hk⟩ := hk
    exact ⟨h.sheds hs, hk⟩
  | remove id => exact ensures_map.mpr (h.ensures_remove id)

theorem ensures_performAll (h : Settled st c) (ops : List Operation) :
    (performAll ops).Ensures c st fun responses c' st' => Settled st' c' ∧
      c.plain.performAll ops = (responses.map Response.plain, c'.plain) := by
  induction ops generalizing c st with
  | nil => exact ⟨h, rfl⟩
  | cons op ops ih =>
    unfold performAll Plain.performAll
    refine (h.ensures_perform op).bind fun response c₁ st₁ hk => ?_
    refine (ih hk.1).bind fun responses c' st' hk' => ensures_pure.mpr ⟨hk'.1, ?_⟩
    simp only [hk.2, hk'.2, List.map_cons]

end Settled

end Lru
end SegmentedCache
