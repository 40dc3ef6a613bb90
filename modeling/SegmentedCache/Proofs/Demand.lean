import SegmentedCache.Proofs.Counting
import SegmentedCache.Proofs.Segmented.Settings

/-!
# What is counted of the requests

A log has the requests that a cache served, with the answers. The counters tell the log
if they have its length, its hits and its expired lookups, and the bytes of both the
requests and the hits. Every record of a request adds an entry; no other record and no
work on the objects touches these counters. A segmented cache also counts its hits by
the segment in which the object was found.
-/
namespace SegmentedCache

/-- A request that was served, with its answer and the segment that had the id before,
if a segment had it. -/
structure Served where
  request : Request
  answer : Lookup
  segment : Option Nat

namespace Served

def hits (log : List Served) : List Served := log.filter fun x => x.answer = .hit

/-- The sizes asked for. -/
def bytes (log : List Served) : Nat := (log.map fun x => x.request.size.toNat).sum

variable {log : List Served} {r : Request} {answer : Lookup} {segment : Option Nat}

@[simp] theorem bytes_cons :
    bytes (⟨r, answer, segment⟩ :: log) = bytes log + r.size.toNat := by
  unfold bytes
  rw [List.map_cons, List.sum_cons, Nat.add_comm]

@[simp] theorem hits_cons_hit :
    hits (⟨r, .hit, segment⟩ :: log) = ⟨r, .hit, segment⟩ :: hits log := by
  simp [hits]

theorem hits_cons_of_ne (h : answer ≠ .hit) : hits (⟨r, answer, segment⟩ :: log) = hits log := by
  simp [hits, h]

@[simp] theorem hits_cons_miss : hits (⟨r, .miss, segment⟩ :: log) = hits log :=
  hits_cons_of_ne (by decide)

@[simp] theorem hits_cons_expired : hits (⟨r, .expired, segment⟩ :: log) = hits log :=
  hits_cons_of_ne (by decide)

end Served

/-! ## Counters -/

namespace Counters
variable {k k' : Counters} {log : List Served} {r : Request} {found : Lookup}
variable {segment : Option Nat}

/-- The counters of the requests. -/
def demand (k : Counters) : UInt64 × UInt64 × UInt64 × Bytes × Bytes :=
  (k.requests, k.hits, k.expired, k.bytesRequested, k.bytesServed)

structure Tells (k : Counters) (log : List Served) : Prop where
  requests : k.requests.toNat = log.length
  hits : k.hits.toNat = (Served.hits log).length
  expired : k.expired.toNat = log.countP fun x => x.answer = .expired
  bytesRequested : k.bytesRequested.toNat = Served.bytes log
  bytesServed : k.bytesServed.toNat = Served.bytes (Served.hits log)

theorem Tells.congr (h : k.Tells log) (hk : k'.demand = k.demand) : k'.Tells log := by
  simp only [demand, Prod.mk.injEq] at hk
  obtain ⟨hrequests, hhits, hexpired, hasked, hserved⟩ := hk
  exact ⟨hrequests ▸ h.requests, hhits ▸ h.hits, hexpired ▸ h.expired, hasked ▸ h.bytesRequested,
    hserved ▸ h.bytesServed⟩

theorem Tells.recordHit (h : k.Tells log) (hk : k.recordHit r.size = .ok k') :
    k'.Tells (⟨r, .hit, segment⟩ :: log) := by
  obtain ⟨requests, hrequests, h₁⟩ := bind_eq_ok_iff.mp hk
  obtain ⟨hits, hhits, h₂⟩ := bind_eq_ok_iff.mp h₁
  obtain ⟨asked, hasked, h₃⟩ := bind_eq_ok_iff.mp h₂
  obtain ⟨served, hserved, h₄⟩ := bind_eq_ok_iff.mp h₃
  obtain rfl := Except.ok.inj h₄
  rw [Word.add_eq_ok_iff, UInt64.toNat_one] at hrequests hhits
  rw [Word.add_eq_ok_iff] at hasked hserved
  constructor
  · simp [← hrequests, h.requests]
  · simp [← hhits, h.hits]
  · simp [h.expired]
  · simp [← hasked, h.bytesRequested]
  · simp [← hserved, h.bytesServed]

theorem Tells.recordMiss (h : k.Tells log) (hk : k.recordMiss r.size = .ok k') :
    k'.Tells (⟨r, .miss, segment⟩ :: log) := by
  obtain ⟨requests, hrequests, h₁⟩ := bind_eq_ok_iff.mp hk
  obtain ⟨asked, hasked, h₂⟩ := bind_eq_ok_iff.mp h₁
  obtain rfl := Except.ok.inj h₂
  rw [Word.add_eq_ok_iff, UInt64.toNat_one] at hrequests
  rw [Word.add_eq_ok_iff] at hasked
  constructor
  · simp [← hrequests, h.requests]
  · simp [h.hits]
  · simp [h.expired]
  · simp [← hasked, h.bytesRequested]
  · simp [h.bytesServed]

/-- An expired lookup is counted as a miss and once more. -/
theorem Tells.recordExpired (h : k.Tells log) (hk : k.recordExpired r.size = .ok k') :
    k'.Tells (⟨r, .expired, segment⟩ :: log) := by
  obtain ⟨k₁, hmiss, h₁⟩ := bind_eq_ok_iff.mp hk
  obtain ⟨expired, hexpired, h₂⟩ := bind_eq_ok_iff.mp h₁
  obtain rfl := Except.ok.inj h₂
  rw [Word.add_eq_ok_iff, UInt64.toNat_one] at hexpired
  have hm : k₁.Tells (⟨r, .miss, segment⟩ :: log) := h.recordMiss hmiss
  constructor
  · simpa using hm.requests
  · simpa using hm.hits
  · simpa [← hexpired] using hm.expired
  · simpa using hm.bytesRequested
  · simpa using hm.bytesServed

theorem Tells.recordLookup (h : k.Tells log) (hk : k.recordLookup r.size found = .ok k') :
    k'.Tells (⟨r, found, segment⟩ :: log) := by
  cases found with
  | hit => exact h.recordHit hk
  | miss => exact h.recordMiss hk
  | expired => exact h.recordExpired hk

theorem Tells.misses (h : k.Tells log) :
    ∃ n, k.misses = .ok n ∧ n.toNat = log.countP fun x => x.answer ≠ .hit := by
  have hsplit : log.length = (Served.hits log).length + log.countP fun x => x.answer ≠ .hit := by
    rw [List.length_eq_countP_add_countP (fun x : Served => decide (x.answer = .hit)),
      List.countP_eq_length_filter]
    simp [Served.hits]
  have hle : k.hits ≤ k.requests := by
    rw [UInt64.le_iff_toNat_le, h.requests, h.hits]
    omega
  refine ⟨k.requests - k.hits, Word.sub_eq_ok_iff.mpr ?_, ?_⟩
  · rw [UInt64.toNat_sub_of_le _ _ hle]
    have := UInt64.le_iff_toNat_le.mp hle
    omega
  · rw [UInt64.toNat_sub_of_le _ _ hle, h.requests, h.hits]
    omega

theorem demand_recordEviction (h : k.recordEviction = .ok k') : k'.demand = k.demand := by
  obtain ⟨n, -, rfl⟩ := recordEviction_eq_ok h
  rfl

theorem demand_recordInsertion {size : Bytes} (h : k.recordInsertion size = .ok k') :
    k'.demand = k.demand := by
  obtain ⟨insertions, -, h₁⟩ := bind_eq_ok_iff.mp h
  obtain ⟨bytesWritten, -, h₂⟩ := bind_eq_ok_iff.mp h₁
  rw [← Except.ok.inj h₂]
  rfl

end Counters

namespace Lru
open SegmentedCache.Action

def demand (c : Lru) : UInt64 × UInt64 × UInt64 × Bytes × Bytes := c.counters.core.demand

theorem spares_demand {f : LruCounters → Except Fault LruCounters}
    (hf : ∀ k k', f k = .ok k' → k'.core.demand = k.core.demand) : Spares demand (record f) := by
  intro c st u c' st' hy
  obtain ⟨counters, hcounters, rfl, -⟩ := yields_record_iff.mp hy
  exact hf _ _ hcounters

theorem spares_demand_core {f : Counters → Except Fault Counters}
    (hf : ∀ {k k'}, f k = .ok k' → k'.demand = k.demand) : Spares demand (recordCore f) := by
  refine spares_demand fun k k' hk => ?_
  obtain ⟨core, hcore, h₁⟩ := bind_eq_ok_iff.mp hk
  rw [← Except.ok.inj h₁]
  exact hf hcore

theorem blind_demand : Blind demand where
  shape _ _ _ := rfl
  eviction := spares_demand_core Counters.demand_recordEviction
  insertion _ := spares_demand_core Counters.demand_recordInsertion
  removal := spares_demand fun k k' hk => by
    obtain ⟨n, -, rfl⟩ := LruCounters.recordRemoval_eq_ok hk
    rfl
  expiredRemoval := spares_demand fun k k' hk => by
    obtain ⟨n, -, rfl⟩ := LruCounters.recordExpiredRemoval_eq_ok hk
    rfl

variable {c c' : Lru} {st st' : Store} {log : List Served}

theorem tells_performed (h : c.counters.core.Tells log) {op : Operation}
    (hop : ∀ r, op ≠ .serve r) {response : Response}
    (hy : (Policy.perform op).Yields c st response c' st') : c'.counters.core.Tells log :=
  h.congr (blind_demand.working.perform (fun r e => absurd e (hop r)) hy)

theorem tells_served (h : c.counters.core.Tells log) {r : Request} {found : Lookup}
    (hy : (serve r).Yields c st found c' st') (segment : Option Nat) :
    c'.counters.core.Tells (⟨r, found, segment⟩ :: log) := by
  obtain ⟨c₁, c₂, st₁, hbefore, hafter, hrecord⟩ := blind_demand.count_of_serve hy
  obtain ⟨counters, hcounters, rfl, -⟩ := yields_record_iff.mp hrecord
  obtain ⟨core, hcore, hk⟩ := bind_eq_ok_iff.mp hcounters
  have htold : core.Tells (⟨r, found, segment⟩ :: log) := (h.congr hbefore).recordLookup hcore
  refine htold.congr ?_
  rw [show c'.counters.core.demand = _ from hafter, show counters = _ from (Except.ok.inj hk).symm]
  rfl

end Lru

namespace SegmentedCounters
variable {k k' : SegmentedCounters} {n : Nat} {log : List Served} {r : Request}

/-- The hits are told for each of `n` segments, too. -/
structure Tells (k : SegmentedCounters) (n : Nat) (log : List Served) : Prop where
  core : k.core.Tells log
  segmentHits : k.segmentHits.map UInt64.toNat =
    (List.range n).map fun i => (Served.hits log).countP fun x => x.segment = some i
  sum : (k.segmentHits.map UInt64.toNat).sum = k.core.hits.toNat

def demand (k : SegmentedCounters) :
    (UInt64 × UInt64 × UInt64 × Bytes × Bytes) × List UInt64 := (k.core.demand, k.segmentHits)

theorem Tells.congr (h : k.Tells n log) (hk : k'.demand = k.demand) : k'.Tells n log := by
  obtain ⟨hcore, hsegments⟩ := Prod.mk.inj hk
  have hhits : k'.core.hits = k.core.hits := congrArg (fun x => x.2.1) hcore
  exact ⟨h.core.congr hcore, hsegments ▸ h.segmentHits, by rw [hsegments, hhits, h.sum]⟩

/-- A request that is no hit is told by the core counters alone. -/
theorem Tells.onCore {found : Lookup} {segment : Option Nat} (h : k.Tells n log)
    (hfound : found ≠ .hit) (hk : k.onCore (·.recordLookup r.size found) = .ok k') :
    k'.Tells n (⟨r, found, segment⟩ :: log) := by
  obtain ⟨core, hcore, rfl⟩ := onCore_eq_ok hk
  have htold : core.Tells (⟨r, found, segment⟩ :: log) := h.core.recordLookup hcore
  have hhits : Served.hits (⟨r, found, segment⟩ :: log) = Served.hits log :=
    Served.hits_cons_of_ne hfound
  refine ⟨htold, ?_, ?_⟩
  · rw [hhits]
    exact h.segmentHits
  · rw [htold.hits, hhits, ← h.core.hits]
    exact h.sum

theorem Tells.recordSegmentHit {i : Nat} (h : k.Tells n log) (hi : i < n)
    (hk : k.recordSegmentHit i r.size = .ok k') : k'.Tells n (⟨r, .hit, some i⟩ :: log) := by
  have hlength : k.segmentHits.length = n := by
    simpa using congrArg List.length h.segmentHits
  subst hlength
  obtain ⟨core, hcore, h₁⟩ := bind_eq_ok_iff.mp hk
  rw [List.getElem?_eq_getElem hi] at h₁
  obtain ⟨hits, hadd, h₂⟩ := bind_eq_ok_iff.mp h₁
  obtain rfl := Except.ok.inj h₂
  rw [Word.add_eq_ok_iff, UInt64.toNat_one] at hadd
  have htold : core.Tells (⟨r, .hit, some i⟩ :: log) := h.core.recordHit hcore
  have hold : ∀ j (hj : j < k.segmentHits.length), k.segmentHits[j].toNat =
      (Served.hits log).countP fun x => x.segment = some j := by
    intro j hj
    have hget := congrArg (·[j]?) h.segmentHits
    simpa [hj] using hget
  refine ⟨htold, ?_, ?_⟩
  · refine List.ext_getElem (by simp) fun j hj _ => ?_
    have hj : j < k.segmentHits.length := by simpa using hj
    simp only [List.getElem_map, List.getElem_set, List.getElem_range, Served.hits_cons_hit,
      List.countP_cons, Option.some.injEq, decide_eq_true_eq]
    split
    next e => rw [← e, ← hadd, hold i hi]
    next => rw [hold j hj, Nat.add_zero]
  · have hsum := h.sum
    rw [← List.set_getElem_self hi, List.map_set, List.sum_set] at hsum
    rw [List.map_set, List.sum_set, ← hadd, htold.hits, Served.hits_cons_hit, List.length_cons,
      ← h.core.hits]
    rw [List.length_map, if_pos hi] at hsum ⊢
    omega

/-- A request is told by what its lookup has seen. -/
theorem Tells.tally {top : Nat} {seen : Option (Level top × Lookup)} (h : k.Tells (top + 1) log)
    (hk : Segmented.tally seen r.size k = .ok k') :
    k'.Tells (top + 1) (⟨r, Segmented.outcome seen, seen.map fun x => x.1.val⟩ :: log) := by
  match seen with
  | none => exact h.onCore (show Lookup.miss ≠ .hit by decide) hk
  | some (_, .miss) => exact h.onCore (show Lookup.miss ≠ .hit by decide) hk
  | some (_, .expired) => exact h.onCore (show Lookup.expired ≠ .hit by decide) hk
  | some (i, .hit) => exact h.recordSegmentHit i.isLt hk

end SegmentedCounters

namespace Segmented
open SegmentedCache.Action Policy
variable {C : Type} {top : Nat} [Policy C] {s s' : Segmented C top} {st st' : Store}
variable {log : List Served}

def demand (s : Segmented C top) :
    (UInt64 × UInt64 × UInt64 × Bytes × Bytes) × List UInt64 := s.counters.demand

omit [Policy C] in
/-- The work on a segment is counted there. -/
theorem spares_demand_onSegment {α : Type} (i : Level top) (act : Action C α) :
    Spares demand (onSegment i act) := by
  intro s st a s' st' hy
  obtain ⟨c, -, rfl⟩ := yields_onSegment_iff.mp hy
  rfl

omit [Policy C] in
theorem spares_demand {f : SegmentedCounters → Except Fault SegmentedCounters}
    (hf : ∀ k k', f k = .ok k' → k'.demand = k.demand) :
    Spares demand (record f : Action (Segmented C top) Unit) := by
  intro s st u s' st' hy
  obtain ⟨counters, hcounters, rfl, -⟩ := yields_record_iff.mp hy
  exact hf _ _ hcounters

omit [Policy C] in
theorem spares_demand_core {f : Counters → Except Fault Counters}
    (hf : ∀ {k k'}, f k = .ok k' → k'.demand = k.demand) :
    Spares demand (recordCore f : Action (Segmented C top) Unit) := by
  refine spares_demand fun k k' hk => ?_
  obtain ⟨core, hcore, rfl⟩ := SegmentedCounters.onCore_eq_ok hk
  exact congrArg (·, k.segmentHits) (hf hcore)

theorem working_demand : Working fun (s : Segmented C top) _ s' _ => demand s' = demand s where
  toComposes := composes_spares demand
  emit _ := spares_lift _
  checkAt i _ _ := spares_demand_onSegment i _
  insertAt i _ := spares_demand_onSegment i _
  evictAt i := spares_demand_onSegment i _
  removeAt i _ := spares_demand_onSegment i _
  eviction := spares_demand_core Counters.demand_recordEviction
  insertion _ := spares_demand_core Counters.demand_recordInsertion
  promotion := spares_demand fun k k' hk => by
    obtain ⟨n, -, rfl⟩ := SegmentedCounters.recordPromotion_eq_ok hk
    rfl
  demotion := spares_demand fun k k' hk => by
    obtain ⟨n, -, rfl⟩ := SegmentedCounters.recordDemotion_eq_ok hk
    rfl
  coolingDrop := spares_demand fun k k' hk => by
    obtain ⟨n, core, -, hcore, rfl⟩ := SegmentedCounters.recordCoolingDrop_eq_ok hk
    exact congrArg (·, k.segmentHits) (Counters.demand_recordEviction hcore)
  removal := spares_demand fun k k' hk => by
    obtain ⟨n, -, h₁⟩ := bind_eq_ok_iff.mp hk
    rw [← Except.ok.inj h₁]
    rfl

theorem tells_performed (h : s.counters.Tells (top + 1) log) {op : Operation}
    (hop : ∀ r, op ≠ .serve r) {response : Response}
    (hy : (perform op).Yields s st response s' st') : s'.counters.Tells (top + 1) log :=
  h.congr (working_demand.perform (fun r e => absurd e (hop r)) hy)

theorem tells_served [Peeking C] (h : s.counters.Tells (top + 1) log) {r : Request}
    {found : Lookup} (hy : (serve r).Yields s st found s' st') :
    s'.counters.Tells (top + 1) (⟨r, found, (s.segmentOf? st r.id).map Fin.val⟩ :: log) := by
  obtain ⟨s₁, s₂, st₁, hbefore, hafter, hrecord⟩ := count_of_serve working_demand hy
  obtain ⟨counters, hcounters, rfl, -⟩ := yields_record_iff.mp hrecord
  have htold := (h.congr hbefore).tally hcounters
  have hsegment : (seen st s r (levels top)).map (fun x => x.1.val) =
      (s.segmentOf? st r.id).map Fin.val := by
    unfold seen segmentOf?
    rw [Option.map_map]
    rfl
  rw [hsegment, show outcome _ = found from (Peeking.eq_peek_of_serve hy).symm] at htold
  exact htold.congr hafter

end Segmented
end SegmentedCache
