import SegmentedCache.Proofs.Lru.Metered
import SegmentedCache.Proofs.Segmented.Histories
import SegmentedCache.Proofs.Segmented.Placement

/-!
# One segment

A segmented cache of a single segment has nowhere to promote or demote to. It differs
from the segment in what it does for an insertion: it takes out the object that is
replaced and evicts until there is room, so the segment finds neither the old object nor
anything left to evict (`Single.insert`). Those evictions are counted by the cache, and
the removal by the segment only. So the cache follows the same metered list as a
least-recently-used cache of its parameters, and the two cannot be told apart:
`performAll_single`.
-/
namespace SegmentedCache

namespace SegmentedCounters
variable {k k' : SegmentedCounters}

def meters (k : SegmentedCounters) : Meters := ⟨k.core, k.removals⟩

theorem meters_onCore {f : Counters → Except Fault Counters} (h : k.onCore f = .ok k') :
    k.meters.onCore f = .ok k'.meters := by
  obtain ⟨core, hcore, rfl⟩ := onCore_eq_ok h
  exact bind_eq_ok_iff.mpr ⟨core, hcore, rfl⟩

theorem meters_recordRemoval (h : k.recordRemoval = .ok k') :
    k.meters.recordRemoval = .ok k'.meters := by
  obtain ⟨removals, hadd, hk⟩ := bind_eq_ok_iff.mp h
  rw [← Except.ok.inj hk]
  exact bind_eq_ok_iff.mpr ⟨removals, hadd, rfl⟩

end SegmentedCounters

namespace Lru.Settled
open SegmentedCache.Action
variable {st st' : Store} {c c' : Lru} {r : Request}

/-- Where there is room, a new id comes in front of all that is there. -/
theorem plain_insert_of_room (h : Settled st c) {res : Option CacheObject}
    (hid : c.plain.find? r.id = none) (hroom : Policy.hasRoom c r.size = .ok true)
    (hy : (Lru.insert r).Yields c st res c' st') :
    c'.plain.entries = .ofRequest r :: c.plain.entries := by
  have hheld : r.id ∉ Policy.held st c := by
    rw [held_eq, mem_ids_iff]
    rintro ⟨o, ho⟩
    rw [h.find?_plain, ho] at hid
    cases hid
  rw [hasRoom_eq, Except.ok.injEq, decide_eq_true_eq] at hroom
  obtain ⟨o, -, hmade, hobjects⟩ :=
    Inserted.of_tidy h.tidy h.toLinked ((Lru.ensures_insert h.toCoherent r).apply hy) hheld hroom
  unfold plain
  rw [hobjects, List.map_cons]
  unfold CacheObject.entry Entry.ofRequest
  rw [hmade.id, hmade.size, hmade.expiry]

end Lru.Settled

namespace Segmented
open SegmentedCache.Action Policy
variable {st st' : Store} {s s' : Segmented Lru 0} {c : Lru} {r : Request} {id : ObjectId}

theorem meters_tally {top : Nat} {found : Option (Level top × Lookup)} {size : Bytes}
    {k k' : SegmentedCounters} (h : tally found size k = .ok k') :
    k.meters.onCore (·.recordLookup size (outcome found)) = .ok k'.meters := by
  match found with
  | none => exact SegmentedCounters.meters_onCore h
  | some (_, .miss) => exact SegmentedCounters.meters_onCore h
  | some (_, .expired) => exact SegmentedCounters.meters_onCore h
  | some (_, .hit) =>
    obtain ⟨core, hits, hcore, rfl⟩ := SegmentedCounters.recordSegmentHit_eq_ok h
    exact bind_eq_ok_iff.mpr ⟨core, hcore, rfl⟩

/-- The list of the only segment. -/
def plain (s : Segmented Lru 0) : Plain := (s.segment 0).plain

def metered (s : Segmented Lru 0) : Metered := ⟨s.plain, s.counters.meters⟩

/-- The only segment is settled, and charges and admits what the whole does. -/
structure Single (st : Store) (s : Segmented Lru 0) : Prop where
  settled : Lru.Settled st (s.segment 0)
  overhead : s.params.overhead = (s.segment 0).params.overhead
  limit : s.limit = (s.segment 0).params.capacity

namespace Single

theorem charge_eq (h : Single st s) (size : Bytes) : s.charge size = (s.segment 0).charge size := by
  unfold Segmented.charge Lru.charge
  rw [h.overhead]

theorem reported (h : Single st s) (es : Array Event) : Single { st with events := es } s :=
  ⟨h.settled.sheds (Lru.Sheds.report h.settled.toCoherent es _), h.overhead, h.limit⟩

theorem counted (h : Single st s) (counters : SegmentedCounters) :
    Single st { s with counters } := ⟨h.settled, h.overhead, h.limit⟩

/-- Work of the segment is work on the list. -/
theorem perform_segment (h : Single st s) (op : Operation) {response : Response}
    (hy : (Policy.perform op).Yields (s.segment 0) st response c st') :
    Single st' (s.setSegment 0 c) ∧ s.plain.perform op = (response.plain, c.plain) := by
  obtain ⟨hc, hlist⟩ := (h.settled.ensures_perform op).apply hy
  have hcapacity := (s.segment 0).plain.capacity_perform op
  have hoverhead := (s.segment 0).plain.overhead_perform op
  rw [hlist] at hcapacity hoverhead
  refine ⟨⟨?_, ?_, ?_⟩, hlist⟩
  · rwa [segment_setSegment, if_pos rfl]
  · rw [segment_setSegment, if_pos rfl]
    exact h.overhead.trans (UInt64.toNat_inj.mp hoverhead).symm
  · rw [segment_setSegment, if_pos rfl]
    exact h.limit.trans (UInt64.toNat_inj.mp hcapacity).symm

theorem plain_setSegment (s : Segmented Lru 0) (c : Lru) : (s.setSegment 0 c).plain = c.plain := by
  unfold Segmented.plain
  rw [segment_setSegment, if_pos rfl]

theorem isSome_segmentOf? (h : Single st s) (id : ObjectId) :
    (s.segmentOf? st id).isSome = (s.plain.find? id).isSome := by
  unfold Segmented.plain
  rw [h.settled.find?_plain, Option.isSome_map]
  change ([0].find? fun i => Policy.contains st (s.segment i) id).isSome =
    Policy.contains st (s.segment 0) id
  rw [List.find?_cons]
  cases Policy.contains st (s.segment 0) id <;> rfl

/-! ## Room -/

theorem displace (h : Single st s) (hy : (Segmented.displace id).Yields s st () s' st') :
    Single st' s' ∧ s'.plain = s.plain.erase id ∧ s'.counters = s.counters := by
  unfold Segmented.displace at hy
  rw [yields_get_bind_iff, yields_getThe_bind_iff] at hy
  have hfound := h.isSome_segmentOf? id
  cases hf : s.segmentOf? st id with
  | none =>
    rw [hf] at hy hfound
    obtain ⟨-, rfl, rfl⟩ := yields_pure_iff.mp hy
    have hnone := Option.isSome_eq_false_iff.mp hfound.symm
    exact ⟨h, (Plain.erase_of_find? (Option.isNone_iff_eq_none.mp hnone)).symm, rfl⟩
  | some level =>
    rw [hf] at hy
    obtain rfl : level = 0 := Fin.eq_zero level
    obtain ⟨removed, hremove⟩ := yields_discard_iff.mp hy
    obtain ⟨c, hc, rfl⟩ := yields_onSegment_iff.mp hremove
    obtain ⟨h', hlist⟩ := h.perform_segment (.remove id) (yields_map_iff.mpr ⟨_, hc, rfl⟩)
    exact ⟨h', (plain_setSegment s c).trans (Prod.mk.inj hlist).2.symm, rfl⟩

theorem evict (h : Single st s) {victim : Option CacheObject}
    (hy : (Segmented.evict : Action (Segmented Lru 0) _).Yields s st victim s' st') :
    Single st' s' ∧ s.plain.perform .evict = (.entry (victim.map CacheObject.entry), s'.plain) ∧
      s.counters.meters.recordEvictions victim.isSome.toNat = .ok s'.counters.meters := by
  obtain ⟨s₁, hevict, hafter⟩ := evict_cases hy
  obtain ⟨c, hc, rfl⟩ := yields_onSegment_iff.mp hevict
  obtain ⟨h', hlist⟩ := h.perform_segment .evict (yields_map_iff.mpr ⟨_, hc, rfl⟩)
  rw [← plain_setSegment s c] at hlist
  rcases hafter with ⟨rfl, rfl⟩ | ⟨v, counters, rfl, hok, rfl⟩
  · exact ⟨h', hlist, rfl⟩
  · refine ⟨h'.counted counters, hlist, ?_⟩
    exact (Meters.recordEvictions_one _).trans (SegmentedCounters.meters_onCore hok)

/-- Evictions of `n` entries that leave `kept` and end with room for the size. Nothing
is evicted that fits beside it. -/
structure Vacates (size : Bytes) (kept : List Entry) (n : ℕ) (s : Segmented Lru 0) (st' : Store)
    (s' : Segmented Lru 0) : Prop extends Single st' s' where
  room : hasRoom (s'.segment 0) size = .ok true
  list : s'.plain = { s.plain with entries := kept }
  shorter : kept <+: s.plain.entries
  fitting : keepWithin s.plain.cost (s.plain.capacity - s.plain.charge size) kept =
    keepWithin s.plain.cost (s.plain.capacity - s.plain.charge size) s.plain.entries
  length : kept.length + n = s.plain.entries.length
  counted : s.counters.meters.recordEvictions n = .ok s'.counters.meters

variable {size : Bytes}

theorem vacates_refl (h : Single st s) (hroom : hasRoom (s.segment 0) size = .ok true) :
    Vacates size s.plain.entries 0 s st s where
  toSingle := h
  room := hroom
  list := rfl
  shorter := List.prefix_rfl
  fitting := rfl
  length := rfl
  counted := rfl

/-- Without room, the charges of the entries leave too little for a further one. -/
theorem budget_lt (h : Single st s) (hle : s.plain.charge size ≤ s.plain.capacity)
    (hroom : hasRoom (s.segment 0) size = .ok false) :
    s.plain.capacity - s.plain.charge size < (s.plain.entries.map s.plain.cost).sum := by
  have hbytes : (s.plain.entries.map s.plain.cost).sum = (s.segment 0).occupied.toNat :=
    Lru.plain_bytes h.settled.toCharged
  have hcharge : s.plain.charge size = ((s.segment 0).charge size).toNat := Lru.plain_charge _ size
  rw [Lru.hasRoom_eq, Except.ok.injEq, decide_eq_false_iff_not, UInt64.not_le,
    UInt64.lt_iff_toNat_lt, Word.toNat_saturatingAdd] at hroom
  have hcapacity : s.plain.capacity = (s.segment 0).params.capacity.toNat := rfl
  omega

theorem evictUntilRoom (fuel : ℕ) (h : Single st s)
    (hle : s.plain.charge size ≤ s.plain.capacity) (hf : s.plain.entries.length < fuel)
    (hy : (Segmented.evictUntilRoom size fuel).Yields s st () s' st') :
    ∃ kept n, Vacates size kept n s st' s' := by
  induction fuel generalizing s st with
  | zero => cases hf
  | succ fuel ih =>
    rcases evictUntilRoom_cases hy with ⟨hroom, rfl, rfl⟩ | ⟨hroom, hpass⟩
    · exact ⟨_, _, h.vacates_refl hroom⟩
    · have hfull := h.budget_lt hle hroom
      rcases hpass with hevict | ⟨v, s₁, st₁, hevict, hrest⟩
      · obtain ⟨-, hlast, -⟩ := h.evict hevict
        have hanswer := Plain.Answer.entry.inj (Prod.mk.inj hlast).1
        rw [List.getLast?_eq_none_iff.mp hanswer] at hfull
        cases hfull
      · obtain ⟨hs₁, hlast, hcounted⟩ := h.evict hevict
        obtain ⟨hanswer, hlist⟩ := Prod.mk.inj hlast
        have hanswer := Plain.Answer.entry.inj hanswer
        have hc : s.plain.entries = s.plain.entries.dropLast ++ [v.entry] :=
          (List.dropLast_append_getLast? v.entry hanswer).symm
        have hlength := congrArg List.length hc
        rw [List.length_append, List.length_singleton] at hlength
        obtain ⟨kept, n, hv⟩ :=
          ih hs₁ (by rwa [← hlist]) (by rw [← hlist]; dsimp only; omega) hrest
        refine ⟨kept, n + 1, hv.toSingle, hv.room, ?_, ?_, ?_, ?_, ?_⟩
        · rw [hv.list, ← hlist]
        · have hshorter := hv.shorter
          rw [← hlist] at hshorter
          exact hshorter.trans (List.dropLast_prefix _)
        · have hfitting := hv.fitting
          rw [← hlist] at hfitting
          refine hfitting.trans ?_
          -- the entry that left would not have fitted beside the new one either
          rw [hc] at hfull ⊢
          rw [List.dropLast_concat]
          exact (keepWithin_concat hfull).symm
        · have hkept := hv.length
          rw [← hlist] at hkept
          dsimp only at hkept
          omega
        · exact bind_eq_ok_iff.mpr
            ⟨_, (Meters.recordEvictions_one _).symm.trans hcounted, hv.counted⟩

/-- The only level is chosen, after evictions if it has no room. -/
theorem levelFor (h : Single st s) (hle : s.plain.charge size ≤ s.plain.capacity)
    {level : Level 0} (hy : (Segmented.levelFor size).Yields s st level s' st') :
    ∃ kept n, Vacates size kept n s st' s' := by
  rcases levelFor_cases hy with ⟨hroom, rfl, rfl⟩ | ⟨-, hevict⟩
  · rw [Fin.eq_zero level] at hroom
    exact ⟨_, _, h.vacates_refl hroom⟩
  · refine h.evictUntilRoom _ hle ?_ hevict
    change (s.segment 0).plain.entries.length < (s.segment 0).queue.length + 1
    rw [← h.settled.length_objects]
    exact Nat.lt_succ_of_le (List.length_map ..).le

/-! ## The operations -/

theorem charge_le_iff (h : Single st s) :
    s.charge size ≤ (s.segment 0).params.capacity ↔ s.plain.charge size ≤ s.plain.capacity := by
  rw [h.charge_eq]
  exact Lru.plain_charge_le_iff.symm

/-- The segment takes a new object as it is where the old one is gone and there is room.
The list takes it with the same result, though some of its entries left beforehand. -/
theorem insert_segment (h : Single st s) {l : Plain} {rest : List Entry}
    {res : Option CacheObject} (hplain : s.plain = { l with entries := rest })
    (hid : s.plain.find? r.id = none) (hroom : hasRoom (s.segment 0) r.size = .ok true)
    (hle : l.charge r.size ≤ l.capacity)
    (hfitting : keepWithin l.cost (l.capacity - l.charge r.size) rest = l.kept r)
    (hy : (Policy.insert r).Yields (s.segment 0) st res c st') :
    Single st' (s.setSegment 0 c) ∧
      l.perform (.insert r) = (.entry (res.map CacheObject.entry), (s.setSegment 0 c).plain) ∧
      rest = l.kept r := by
  obtain ⟨h', hlist⟩ := h.perform_segment (.insert r) (yields_map_iff.mpr ⟨_, hy, rfl⟩)
  have hfront := h.settled.plain_insert_of_room hid hroom hy
  change c.plain.entries = .ofRequest r :: s.plain.entries at hfront
  rw [hplain] at hlist hid hfront
  rw [Plain.perform_insert_of_le (l := { l with entries := rest }) hle,
    Plain.kept_of_fitting hid hfitting, ← Plain.perform_insert_of_le (l := l) hle] at hlist
  refine ⟨h', by rw [hlist, plain_setSegment]; rfl, ?_⟩
  rw [Plain.perform_insert_of_le hle] at hlist
  rw [← (Prod.mk.inj hlist).2] at hfront
  exact (List.cons.inj hfront).2.symm

theorem insert (h : Single st s) {res : Option CacheObject}
    (hy : (Segmented.insert r).Yields s st res s' st') :
    Single st' s' ∧ s.plain.perform (.insert r) = (.entry (res.map CacheObject.entry), s'.plain) ∧
      s.plain.countEnter r s.counters.meters = .ok s'.counters.meters := by
  unfold Segmented.insert at hy
  rw [yields_get_bind_iff] at hy
  dsimp only at hy
  split at hy
  next hgt =>
    have hgt : ¬ s.plain.charge r.size ≤ s.plain.capacity :=
      h.charge_le_iff.not.mp (UInt64.not_le.mpr hgt)
    obtain ⟨_, s₁, st₁, hemit, hpure⟩ := yields_bind_iff.mp hy
    obtain ⟨rfl, rfl⟩ := yields_emit_iff.mp hemit
    obtain ⟨rfl, rfl, rfl⟩ := yields_pure_iff.mp hpure
    refine ⟨h.reported _, ?_, if_neg hgt⟩
    simp only [Plain.perform, Plain.enter, if_neg hgt, Option.map_none]
  next hle =>
    have hle : s.plain.charge r.size ≤ s.plain.capacity := h.charge_le_iff.mp (UInt64.not_lt.mp hle)
    obtain ⟨_, s₁, st₁, hdisplace, h₁⟩ := yields_bind_iff.mp hy
    obtain ⟨level, s₂, st₂, hlevel, h₂⟩ := yields_bind_iff.mp h₁
    obtain ⟨res₁, s₃, st₃, hinsert, h₃⟩ := yields_bind_iff.mp h₂
    obtain ⟨hs₁, hplain₁, hcounters₁⟩ := h.displace hdisplace
    obtain ⟨rest, n, hv⟩ := hs₁.levelFor (by rwa [hplain₁]) hlevel
    obtain ⟨hs₂, hroom, hplain₂, hshorter, hfitting, hlength, hcounted⟩ := hv
    rw [hplain₁] at hplain₂ hshorter hfitting hlength
    rw [hcounters₁] at hcounted
    have hid : s₂.plain.find? r.id = none := by
      refine Plain.find?_eq_none_of_subset (s.plain.find?_erase r.id) fun e he => ?_
      rw [hplain₂] at he
      exact hshorter.subset he
    rw [Fin.eq_zero level] at hinsert
    obtain ⟨c, hc, rfl⟩ := yields_onSegment_iff.mp hinsert
    obtain ⟨hs₃, hlist, hrest⟩ := hs₂.insert_segment (l := s.plain) hplain₂ hid hroom hle hfitting hc
    cases res₁ with
    | none =>
      rw [Plain.perform_insert_of_le hle] at hlist
      cases Plain.Answer.entry.inj (Prod.mk.inj hlist).1
    | some o =>
      obtain ⟨_, s₄, st₄, hrecord, hpure⟩ := yields_bind_iff.mp h₃
      obtain ⟨counters, hok, rfl, rfl⟩ := yields_record_iff.mp hrecord
      obtain ⟨rfl, rfl, rfl⟩ := yields_pure_iff.mp hpure
      refine ⟨hs₃.counted counters, hlist, ?_⟩
      -- the segment evicted nothing, so the cache has counted all that left
      have hn : n = (s.plain.erase r.id).entries.length - (s.plain.kept r).length := by
        rw [← hrest, ← hlength]
        exact (Nat.add_sub_cancel_left ..).symm
      unfold Plain.countEnter
      rw [if_pos hle, ← hn]
      exact bind_eq_ok_iff.mpr ⟨_, hcounted, SegmentedCounters.meters_onCore hok⟩

/-- There is no level to promote to, so a lookup is one in the segment. -/
theorem probe {update : Bool} {found : Option (Level 0 × Lookup)}
    (hy : (Segmented.probe r update (levels 0)).Yields s st found s' st') :
    ∃ c, (Policy.check r update).Yields (s.segment 0) st (outcome found) c st' ∧
      s' = s.setSegment 0 c := by
  change (Segmented.probe r update [0]).Yields s st found s' st' at hy
  unfold Segmented.probe at hy
  obtain ⟨lookup, s₁, st₁, hcheck, h₁⟩ := yields_bind_iff.mp hy
  obtain ⟨c, hc, rfl⟩ := yields_onSegment_iff.mp hcheck
  cases lookup with
  | miss =>
    obtain ⟨rfl, rfl, rfl⟩ := yields_pure_iff.mp h₁
    exact ⟨c, hc, rfl⟩
  | expired =>
    obtain ⟨rfl, rfl, rfl⟩ := yields_pure_iff.mp h₁
    exact ⟨c, hc, rfl⟩
  | hit =>
    have hstays : (pure (some (0, .hit)) : Action (Segmented Lru 0) _).Yields
        (s.setSegment 0 c) st₁ found s' st' := by
      cases update <;> exact h₁
    obtain ⟨rfl, rfl, rfl⟩ := yields_pure_iff.mp hstays
    exact ⟨c, hc, rfl⟩

theorem check (h : Single st s) {update : Bool} {found : Lookup}
    (hy : (Segmented.check r update).Yields s st found s' st') :
    Single st' s' ∧ s.plain.perform (.check r update) = (.found found, s'.plain) ∧
      s'.counters = s.counters := by
  rw [check_eq, yields_map_iff] at hy
  obtain ⟨looked, hprobe, rfl⟩ := hy
  obtain ⟨c, hc, rfl⟩ := probe hprobe
  obtain ⟨h', hlist⟩ := h.perform_segment (.check r update) (yields_map_iff.mpr ⟨_, hc, rfl⟩)
  exact ⟨h', by rw [hlist, plain_setSegment]; rfl, rfl⟩

theorem remove (h : Single st s) {removed : Option CacheObject}
    (hy : (Segmented.remove id).Yields s st removed s' st') :
    Single st' s' ∧
      s.plain.perform (.remove id) = (.entry (removed.map CacheObject.entry), s'.plain) ∧
      s.plain.count s.counters.meters (.remove id) = .ok s'.counters.meters := by
  unfold Segmented.remove at hy
  rw [yields_get_bind_iff, yields_getThe_bind_iff] at hy
  unfold Plain.count
  dsimp only
  rw [← h.isSome_segmentOf?]
  have hfound := h.isSome_segmentOf? id
  cases hf : s.segmentOf? st id with
  | none =>
    rw [hf] at hy hfound
    obtain ⟨_, s₁, st₁, hemit, hpure⟩ := yields_bind_iff.mp hy
    obtain ⟨rfl, rfl⟩ := yields_emit_iff.mp hemit
    obtain ⟨rfl, rfl, rfl⟩ := yields_pure_iff.mp hpure
    have hnone := Option.isNone_iff_eq_none.mp (Option.isSome_eq_false_iff.mp hfound.symm)
    refine ⟨h.reported _, ?_, rfl⟩
    simp only [Plain.perform, hnone, Plain.erase_of_find? hnone, Option.map_none]
  | some level =>
    rw [hf] at hy
    obtain rfl : level = 0 := Fin.eq_zero level
    obtain ⟨removed, s₁, st₁, hremove, h₁⟩ := yields_bind_iff.mp hy
    obtain ⟨_, s₂, st₂, hrecord, hpure⟩ := yields_bind_iff.mp h₁
    obtain ⟨c, hc, rfl⟩ := yields_onSegment_iff.mp hremove
    obtain ⟨counters, hok, rfl, rfl⟩ := yields_record_iff.mp hrecord
    obtain ⟨rfl, rfl, rfl⟩ := yields_pure_iff.mp hpure
    obtain ⟨h', hlist⟩ := h.perform_segment (.remove id) (yields_map_iff.mpr ⟨_, hc, rfl⟩)
    refine ⟨h'.counted counters, ?_, SegmentedCounters.meters_recordRemoval hok⟩
    rw [hlist]
    exact congrArg _ (plain_setSegment s c).symm

theorem serve (h : Single st s) {found : Lookup}
    (hy : (Segmented.serve r).Yields s st found s' st') :
    Single st' s' ∧ s.plain.perform (.serve r) = (.found found, s'.plain) ∧
      s.plain.count s.counters.meters (.serve r) = .ok s'.counters.meters := by
  rw [serve_eq] at hy
  obtain ⟨looked, s₁, st₁, hprobe, h₁⟩ := yields_bind_iff.mp hy
  obtain ⟨_, s₂, st₂, hrecord, h₂⟩ := yields_bind_iff.mp h₁
  obtain ⟨counters, hok, rfl, rfl⟩ := yields_record_iff.mp hrecord
  obtain ⟨c, hc, rfl⟩ := probe hprobe
  obtain ⟨hs₁, hlist⟩ := h.perform_segment (.check r true) (yields_map_iff.mpr ⟨_, hc, rfl⟩)
  obtain ⟨s₂, hs₂⟩ : ∃ s₂, s₂ = { s.setSegment 0 c with counters } := ⟨_, rfl⟩
  have hsingle : Single st₂ s₂ := hs₂ ▸ hs₁.counted counters
  have hcheck : s.plain.check r true = (outcome looked, s₂.plain) := by
    obtain ⟨hanswer, hrest⟩ := Prod.mk.inj hlist
    rw [hs₂]
    exact Prod.ext (Plain.Answer.found.inj hanswer) (hrest.trans (plain_setSegment s c).symm)
  have hlookup : s.counters.meters.onCore (·.recordLookup r.size (outcome looked)) =
      .ok s₂.counters.meters := by
    rw [hs₂]
    exact meters_tally hok
  rw [← hs₂] at h₂
  unfold Plain.perform Plain.serve Plain.count
  dsimp only
  rw [hcheck]
  unfold admission at h₂
  split at h₂
  next hmiss =>
    rw [yields_get_bind_iff] at h₂
    dsimp only at h₂
    rw [if_neg hmiss]
    split at h₂
    next hle =>
      obtain ⟨_, s₃, st₃, hinsert, hpure⟩ := yields_bind_iff.mp h₂
      obtain ⟨o, hinsert⟩ := yields_discard_iff.mp hinsert
      obtain ⟨rfl, rfl, rfl⟩ := yields_pure_iff.mp hpure
      obtain ⟨h', hlist', hcounted⟩ := hsingle.insert hinsert
      refine ⟨h', ?_, bind_eq_ok_iff.mpr ⟨_, hlookup, ?_⟩⟩
      · exact congrArg _ (Prod.mk.inj hlist').2
      · rwa [if_neg hmiss]
    next hgt =>
      rw [hsingle.limit, hsingle.charge_le_iff] at hgt
      obtain ⟨_, s₃, st₃, hemit, hpure⟩ := yields_bind_iff.mp h₂
      obtain ⟨rfl, rfl⟩ := yields_emit_iff.mp hemit
      obtain ⟨rfl, rfl, rfl⟩ := yields_pure_iff.mp hpure
      refine ⟨hsingle.reported _, ?_, bind_eq_ok_iff.mpr ⟨_, hlookup, ?_⟩⟩
      · exact congrArg _ (if_neg hgt)
      · rw [if_neg hmiss]
        exact if_neg hgt
  next hhit =>
    obtain ⟨rfl, rfl, rfl⟩ := yields_pure_iff.mp h₂
    rw [if_pos (not_not.mp hhit)]
    refine ⟨hsingle, rfl, bind_eq_ok_iff.mpr ⟨_, hlookup, ?_⟩⟩
    exact if_pos (not_not.mp hhit)

end Single

/-- A cache of one segment answers and counts as its list does. -/
theorem follows_plain : Follows metered Single := by
  intro op st s response s' st' h hy
  cases op with
  | serve r =>
    obtain ⟨found, hserve, rfl⟩ := yields_map_iff.mp hy
    obtain ⟨h', hlist, hmeters⟩ := h.serve hserve
    exact ⟨h', Metered.perform_eq_ok hlist hmeters⟩
  | check r update =>
    obtain ⟨found, hcheck, rfl⟩ := yields_map_iff.mp hy
    obtain ⟨h', hlist, hcounters⟩ := h.check hcheck
    exact ⟨h', Metered.perform_eq_ok hlist (by rw [hcounters]; rfl)⟩
  | insert r =>
    obtain ⟨o, hinsert, rfl⟩ := yields_map_iff.mp hy
    obtain ⟨h', hlist, hmeters⟩ := h.insert hinsert
    exact ⟨h', Metered.perform_eq_ok hlist hmeters⟩
  | evict =>
    obtain ⟨victim, hevict, rfl⟩ := yields_map_iff.mp hy
    obtain ⟨h', hlist, hmeters⟩ := h.evict hevict
    refine ⟨h', Metered.perform_eq_ok hlist ?_⟩
    change s.counters.meters.recordEvictions s.plain.entries.getLast?.isSome.toNat = _
    rw [Plain.Answer.entry.inj (Prod.mk.inj hlist).1, Option.isSome_map]
    exact hmeters
  | remove id =>
    obtain ⟨removed, hremove, rfl⟩ := yields_map_iff.mp hy
    obtain ⟨h', hlist, hmeters⟩ := h.remove hremove
    exact ⟨h', Metered.perform_eq_ok hlist hmeters⟩


/-! ## Whole runs -/

/-- The only segment has the whole capacity. -/
theorem share_one (capacity : Bytes) : Segmentation.share ⟨1⟩ capacity 0 = capacity := by
  simp [Segmentation.share]

theorem toList_single (s : Segmented Lru 0) : s.segments.toList = [s.segment 0] := by
  have hlength : s.segments.toList.tail.length = 0 := by
    rw [List.length_tail, Vector.length_toList]
  rw [toList_eq_cons, List.eq_nil_of_length_eq_zero hlength]

/-- A new cache of one segment, and what it starts from. -/
theorem single_of_create {p : Params} {vouched : Nat → Bool} {top : Nat} {s : Segmented Lru top}
    {st₀ : Store}
    (h : (create p ⟨1⟩ (Lru.factory (fun _ q => q) vouched)).run st₀ = .ok (.ok ⟨top, s⟩) st) :
    ∃ s₀ : Segmented Lru 0, (⟨top, s⟩ : Σ top, Segmented Lru top) = ⟨0, s₀⟩ ∧ Single st s₀ ∧
      s₀.metered = .initial p := by
  obtain ⟨-, hQ⟩ := leads_create (P := fun _ q c => c.Fresh q)
    (fun i q st => Lru.leads_factory (fun _ q => q) vouched i q st) p ⟨1⟩ _ _ h
  obtain ⟨hnew, hfresh, hparts⟩ := hQ ⟨top, s⟩ rfl
  dsimp only at hnew hfresh hparts
  have hlength := hparts.length_eq
  rw [List.length_range, Vector.length_toList] at hlength
  obtain rfl : top = 0 := by omega
  obtain ⟨-, hpart⟩ := segment_of_forall₂ hparts 0
  have hparams : (s.segment 0).params = p := by
    rw [hpart.params]
    change { p with capacity := Segmentation.share ⟨1⟩ p.capacity 0 } = p
    rw [share_one]
  have hunused := hnew.unused (s.segment 0) (mem_leaves_iff.mpr ⟨0, List.mem_singleton_self _⟩)
  refine ⟨s, rfl, ⟨hunused.settled, ?_, ?_⟩, ?_⟩
  · rw [hfresh.params, hparams]
  · rw [hfresh.limit, toList_single]
    rfl
  · unfold metered plain Lru.plain Metered.initial Lru.emptyPlain
    rw [hunused.objects_eq, hparams, hfresh.counters]
    rfl

theorem occupied_single (s : Segmented Lru 0) :
    Policy.occupied s = .ok (s.segment 0).occupied := by
  change s.segments.toList.foldlM _ 0 = _
  rw [toList_single]
  change (Word.add 0 (s.segment 0).occupied >>= pure) = _
  have hadd : Word.add 0 (s.segment 0).occupied = .ok (s.segment 0).occupied := by
    rw [Word.add_eq_ok_iff, UInt64.toNat_zero, Nat.zero_add]
  rw [hadd]
  rfl

/-- A segmented cache of one segment is a least-recently-used cache. Made for the same
parameters and worked with in the same way, both give the same responses as long as
neither faults. They end with the same queue, as many bytes, and the same core counters
and removals. Since this holds of every run, it holds after each of its steps. -/
theorem performAll_single {p : Params} {vouched : Nat → Bool} {top : Nat}
    {s s' : Segmented Lru top} {c c' : Lru} {st₀ st st' st₁ st₂ st₃ : Store}
    {ops : List Operation} {responses responses' : List Response} (hc : Lru.Created p st₀ c st)
    (hs : (create p ⟨1⟩ (Lru.factory (fun _ q => q) vouched)).run st₁ = .ok (.ok ⟨top, s⟩) st₂)
    (hy : (performAll ops).Yields c st responses c' st')
    (hy' : (performAll ops).Yields s st₂ responses' s' st₃) :
    responses'.map Response.plain = responses.map Response.plain ∧
      s'.segments.toList.map (fun d => d.objects.map CacheObject.entry) =
        [c'.objects.map CacheObject.entry] ∧
      Policy.occupied s' = Policy.occupied c' ∧
      s'.counters.core = c'.counters.core ∧ s'.counters.removals = c'.counters.removals := by
  obtain ⟨s₀, htop, hsingle, hstart⟩ := single_of_create hs
  cases htop
  obtain ⟨hanswers, hend⟩ := follows_plain.alike Lru.follows_plain hsingle hc.settled
    (hstart.trans hc.metered_eq.symm) hy' hy
  have hc' := (Lru.follows_plain.performAll hc.settled hy).1
  have hs' := (follows_plain.performAll hsingle hy').1
  obtain ⟨hplain, hmeters⟩ := Metered.mk.inj hend
  obtain ⟨hcore, hremovals⟩ := Meters.mk.inj hmeters
  have hbytes : (s'.segment 0).occupied = c'.occupied := by
    rw [← UInt64.toNat_inj, ← Lru.plain_bytes hs'.settled.toCharged, ← Lru.plain_bytes hc'.toCharged]
    exact congrArg Plain.bytes hplain
  refine ⟨hanswers, ?_, ?_, hcore, hremovals⟩
  · rw [toList_single]
    exact congrArg (fun l => [l.entries]) hplain
  · rw [occupied_single, hbytes]
    rfl

/-- Makes a cache in an empty store and performs the operations on it. Returns the states
before and after, with the responses. -/
def rehearse (p : Params) (n : Segmentation) (ops : List Operation) :
    Option (Σ top, (Segmented Lru top × Store) × List Response × Segmented Lru top × Store) :=
  match (create p n (Lru.factory (fun _ q => q) fun _ => false)).run {} with
  | .ok (.ok s) st =>
    match performAll ops s.2 st with
    | .ok (responses, s') st' => some ⟨s.1, (s.2, st), responses, s', st'⟩
    | .error _ _ => none
  | _ => none

theorem create_of_rehearse {p : Params} {n : Segmentation} {ops : List Operation} {top : Nat}
    {x y : Segmented Lru top × Store} {responses : List Response}
    (h : rehearse p n ops = some ⟨top, x, responses, y⟩) :
    (create p n (Lru.factory (fun _ q => q) fun _ => false)).run {} = .ok (.ok ⟨top, x.1⟩) x.2 ∧
      (performAll ops).Yields x.1 x.2 responses y.1 y.2 := by
  unfold rehearse at h
  split at h
  next s st hcreate =>
    split at h
    next responses s' st' hy =>
      obtain ⟨rfl, hxy⟩ := Sigma.mk.inj (Option.some.inj h)
      obtain ⟨rfl, hrest⟩ := Prod.mk.inj (eq_of_heq hxy)
      obtain ⟨rfl, rfl⟩ := Prod.mk.inj hrest
      exact ⟨hcreate, hy⟩
    next => cases h
  next => cases h

/-- An object expires, one is replaced, and others are evicted, refused and removed. -/
theorem performAll_single_crowding :
    ∃ (top : Nat) (s s' : Segmented Lru top) (c c' : Lru) (st st' st₁ st₂ : Store)
      (responses responses' : List Response),
      Lru.Created ⟨100, 2, 0⟩ {} c st ∧
      (create ⟨100, 2, 0⟩ ⟨1⟩ (Lru.factory (fun _ q => q) fun _ => false)).run {} =
        .ok (.ok ⟨top, s⟩) st₁ ∧
      (performAll (Lru.crowding ++ [.serve ⟨6, 20, 8, none⟩, .remove 4])).Yields c st
        responses c' st' ∧
      (performAll (Lru.crowding ++ [.serve ⟨6, 20, 8, none⟩, .remove 4])).Yields s st₁
        responses' s' st₂ ∧
      responses'.map Response.plain = responses.map Response.plain ∧
      s'.segments.toList.map (fun d => d.objects.map CacheObject.entry) = [[⟨6, 20, none⟩]] ∧
      Policy.occupied s' = .ok 22 ∧
      s'.counters.core.insertions = 6 ∧ s'.counters.core.evictions = 2 ∧
      s'.counters.removals = 1 := by
  obtain ⟨⟨x, responses, y⟩, hx, hlru⟩ := (Option.any_eq_true _ _).mp
    (show (Lru.trial ⟨100, 2, 0⟩ (Lru.crowding ++ [.serve ⟨6, 20, 8, none⟩, .remove 4])).any
      (fun t => t.2.2.1.objects.map CacheObject.entry == [⟨6, 20, none⟩] &&
        t.2.2.1.occupied == 22 && t.2.2.1.counters.core.insertions == 6 &&
        t.2.2.1.counters.core.evictions == 2 && t.2.2.1.counters.removals == 1) = true by
      decide +kernel)
  obtain ⟨⟨top, x', responses', y'⟩, hx'⟩ := Option.isSome_iff_exists.mp
    (show (rehearse ⟨100, 2, 0⟩ ⟨1⟩
      (Lru.crowding ++ [.serve ⟨6, 20, 8, none⟩, .remove 4])).isSome by decide +kernel)
  obtain ⟨hc, hy⟩ := Lru.created_of_trial hx
  obtain ⟨hs, hy'⟩ := create_of_rehearse hx'
  obtain ⟨hanswers, hqueue, hbytes, hcore, hremovals⟩ := performAll_single hc hs hy hy'
  simp only [Bool.and_eq_true, beq_iff_eq] at hlru
  obtain ⟨⟨⟨⟨hentries, hoccupied⟩, hinsertions⟩, hevictions⟩, hremoved⟩ := hlru
  exact ⟨top, x'.1, y'.1, x.1, y.1, x.2, y.2, x'.2, y'.2, responses, responses', hc, hs, hy, hy',
    hanswers, hqueue.trans (congrArg (fun l => [l]) hentries),
    hbytes.trans (congrArg Except.ok hoccupied), (congrArg _ hcore).trans hinsertions,
    (congrArg _ hcore).trans hevictions, hremovals.trans hremoved⟩

end Segmented
end SegmentedCache
