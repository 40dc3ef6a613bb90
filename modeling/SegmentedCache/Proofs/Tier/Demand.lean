import SegmentedCache.Proofs.Demand
import SegmentedCache.Proofs.Tier.Ledger
import SegmentedCache.Proofs.Tier.Peeking

/-!
# The counters of the requests at any depth

A tier counts the requests of its clients, whatever other operations come in between and
whatever others do to the store. What it asks of its segments on the way is counted
there: the counters of the tier tell the log of its own requests and no more.
-/
namespace SegmentedCache

namespace Tier
open SegmentedCache.Action Policy
variable {d : Nat} {t₀ t t' : Tier d} {st₀ st st' : Store} {log : List Served}

/-- The core counters of the whole. -/
def core (t : Tier d) : Counters := t.counters.elim LruCounters.core SegmentedCounters.core

/-- The log of a tier, the last request first. Between two requests there may be other
operations on the tier and any work of others on the store. -/
inductive Logged (t₀ : Tier d) (st₀ : Store) : List Served → Tier d → Store → Prop
  | start : Logged t₀ st₀ [] t₀ st₀
  | served {log : List Served} {t t' : Tier d} {st st' : Store} {r : Request} {found : Lookup}
    (h : Logged t₀ st₀ log t st) (hy : (serve r).Yields t st found t' st') :
    Logged t₀ st₀ (⟨r, found, t.segmentOf? st r.id⟩ :: log) t' st'
  | performed {log : List Served} {t t' : Tier d} {st st' : Store} {op : Operation}
    {response : Response} (h : Logged t₀ st₀ log t st) (hop : ∀ r, op ≠ .serve r)
    (hy : (perform op).Yields t st response t' st') : Logged t₀ st₀ log t' st'
  | others {log : List Served} {t : Tier d} {st st' : Store} {α : Type} {work : CacheM α} {a : α}
    (h : Logged t₀ st₀ log t st) (hy : work st = .ok a st') : Logged t₀ st₀ log t st'

/-- The counters of the whole tell the log. -/
def Tells : {d : Nat} → Tier d → List Served → Prop
  | 0, c, log => (Lru.counters c).core.Tells log
  | _ + 1, .inl c, log => c.counters.core.Tells log
  | _ + 1, .inr ⟨top, s⟩, log => s.counters.Tells (top + 1) log

theorem Tells.core (h : t.Tells log) : t.core.Tells log := by
  match d, t with
  | 0, _ => exact h
  | _ + 1, .inl _ => exact h
  | _ + 1, .inr _ => exact SegmentedCounters.Tells.core h

theorem Unspent.tells (h : t.Unspent) : t.Tells [] := by
  have hcore : ∀ capacity : Bytes, Counters.Tells { capacity } [] := fun _ =>
    ⟨rfl, rfl, rfl, rfl, rfl⟩
  match d, t with
  | 0, c =>
    change (Lru.counters c).core.Tells []
    rw [show Lru.counters c = _ from h]
    exact hcore _
  | _ + 1, .inl c =>
    change c.counters.core.Tells []
    rw [show c.counters = _ from h]
    exact hcore _
  | _ + 1, .inr ⟨top, s⟩ =>
    change s.counters.Tells (top + 1) []
    rw [h.1]
    refine ⟨hcore _, ?_, ?_⟩
    · simp [SegmentedCounters.ofCapacity, Served.hits, List.map_const']
    · simp [SegmentedCounters.ofCapacity]

theorem Tells.performed (h : t.Tells log) {op : Operation} (hop : ∀ r, op ≠ .serve r)
    {response : Response} (hy : (perform op).Yields t st response t' st') : t'.Tells log := by
  match d, t with
  | 0, _ => exact Lru.tells_performed h hop hy
  | e + 1, .inl c =>
    rw [show (perform op : Action (Tier (e + 1)) Response) = _ from perform_either op] at hy
    obtain ⟨c', hc, rfl⟩ := yields_either_inl.mp hy
    exact Lru.tells_performed h hop hc
  | e + 1, .inr ⟨top, s⟩ =>
    rw [show (perform op : Action (Tier (e + 1)) Response) = _ from perform_either op] at hy
    obtain ⟨x, hx, rfl⟩ := yields_either_inr.mp hy
    rw [perform_family] at hx
    obtain ⟨s', hs, rfl⟩ := yields_family.mp hx
    exact Segmented.tells_performed h hop hs

theorem Tells.served (h : t.Tells log) {r : Request} {found : Lookup}
    (hy : (serve r).Yields t st found t' st') :
    t'.Tells (⟨r, found, t.segmentOf? st r.id⟩ :: log) := by
  match d, t with
  | 0, _ => exact Lru.tells_served h hy _
  | _ + 1, .inl c =>
    obtain ⟨c', hc, rfl⟩ := yields_either_inl.mp hy
    exact Lru.tells_served h hc _
  | _ + 1, .inr ⟨top, s⟩ =>
    obtain ⟨x, hx, rfl⟩ := yields_either_inr.mp hy
    obtain ⟨s', hs, rfl⟩ := yields_family.mp hx
    exact Segmented.tells_served h hs

theorem Logged.tells (h : Logged t₀ st₀ log t st) (h₀ : t₀.Tells []) : t.Tells log := by
  induction h with
  | start => exact h₀
  | served _ hy ih => exact ih.served hy
  | performed _ hop hy ih => exact ih.performed hop hy
  | others _ _ ih => exact ih

end Tier

namespace Blueprint
open Policy
variable {d : Nat} {b : Blueprint d} {p : Params} {st₀ st₁ st : Store} {t₀ t : Tier d}
variable {log : List Served}

/-- From its making on, a tier counts each of its requests once, by its answer, with its
bytes, and a hit also at the segment that had the object. The requests that were no hits
can be told from that at any time. -/
theorem requests_counted (hbuild : (b.build p).run st₀ = .ok (.ok t₀) st₁)
    (h : Tier.Logged t₀ st₁ log t st) :
    t.core.requests.toNat = log.length ∧
    t.core.hits.toNat = log.countP (·.answer = .hit) ∧
    t.core.expired.toNat = log.countP (·.answer = .expired) ∧
    t.core.bytesRequested.toNat = (log.map (·.request.size.toNat)).sum ∧
    t.core.bytesServed.toNat = ((log.filter (·.answer = .hit)).map (·.request.size.toNat)).sum ∧
    (∀ k, t.counters = .inr k →
      (k.segmentHits.map UInt64.toNat).sum = t.core.hits.toNat ∧
      k.segmentHits.map UInt64.toNat = (List.range t.segments.length).map fun i =>
        log.countP fun x => x.answer = .hit ∧ x.segment = some i) ∧
    ∃ n, t.core.misses = .ok n ∧ n.toNat = log.countP (·.answer ≠ .hit) := by
  obtain ⟨-, hbuilt⟩ := b.leads_build_unspent p st₀ _ _ hbuild
  have htold := h.tells (hbuilt t₀ rfl).2.tells
  have hcore := htold.core
  refine ⟨hcore.requests, ?_, hcore.expired, hcore.bytesRequested, hcore.bytesServed, ?_,
    hcore.misses⟩
  · rw [hcore.hits, List.countP_eq_length_filter]
    rfl
  · intro k hk
    match d, t with
    | 0, _ => cases hk
    | _ + 1, .inl _ => cases hk
    | _ + 1, .inr ⟨top, s⟩ =>
      obtain rfl := Sum.inr.inj hk
      have hsegments : s.counters.Tells (top + 1) log := htold
      have hlength : (Tier.ofSegmented s).segments.length = top + 1 := by
        simp [Tier.ofSegmented, Tier.segments]
      refine ⟨hsegments.sum, ?_⟩
      rw [hsegments.segmentHits, ← hlength]
      refine List.map_congr_left fun i _ => ?_
      unfold Served.hits
      rw [List.countP_filter]
      exact List.countP_congr fun x _ => by simp [and_comm]

/-! ## A log that computes -/

/-- Keeps the log over one more operation, if it does not fault. -/
def logNext (x : List Served × Tier d × Store) (op : Operation) :
    Option (List Served × Tier d × Store) :=
  match op with
  | .serve r =>
    match serve r x.2.1 x.2.2 with
    | .ok (found, t) st => some (⟨r, found, x.2.1.segmentOf? x.2.2 r.id⟩ :: x.1, t, st)
    | .error _ _ => none
  | op =>
    match perform op x.2.1 x.2.2 with
    | .ok (_, t) st => some (x.1, t, st)
    | .error _ _ => none

theorem logged_of_logNext {x y : List Served × Tier d × Store} {op : Operation}
    (h : Tier.Logged t₀ st₀ x.1 x.2.1 x.2.2) (hnext : logNext x op = some y) :
    Tier.Logged t₀ st₀ y.1 y.2.1 y.2.2 := by
  unfold logNext at hnext
  split at hnext
  next r =>
    split at hnext
    next found t st hy =>
      obtain rfl := Option.some.inj hnext
      exact h.served hy
    next => cases hnext
  next op hop =>
    split at hnext
    next response t st hy =>
      obtain rfl := Option.some.inj hnext
      exact h.performed hop hy
    next => cases hnext

theorem logged_foldlM {x y : List Served × Tier d × Store} {ops : List Operation}
    (h : Tier.Logged t₀ st₀ x.1 x.2.1 x.2.2) (hx : ops.foldlM logNext x = some y) :
    Tier.Logged t₀ st₀ y.1 y.2.1 y.2.2 := by
  induction ops generalizing x with
  | nil => exact Option.some.inj hx ▸ h
  | cons op rest ih =>
    rw [List.foldlM_cons] at hx
    obtain ⟨z, hnext, hrest⟩ := Option.bind_eq_some_iff.mp hx
    exact ih (logged_of_logNext h hnext) hrest

/-- The log of a tier that is built in an empty store and performs the operations. -/
def logAll (b : Blueprint d) (p : Params) (ops : List Operation) :
    Option ((Tier d × Store) × List Served × Tier d × Store) :=
  match (b.build p).run {} with
  | .ok (.ok t) st => (ops.foldlM logNext ([], t, st)).map fun x => ((t, st), x)
  | _ => none

theorem logged_of_logAll {ops : List Operation} {x : Tier d × Store}
    {y : List Served × Tier d × Store} (h : logAll b p ops = some (x, y)) :
    (b.build p).run {} = .ok (.ok x.1) x.2 ∧ Tier.Logged x.1 x.2 y.1 y.2.1 y.2.2 := by
  unfold logAll at h
  split at h
  next t st hbuild =>
    obtain ⟨z, hz, he⟩ := Option.map_eq_some_iff.mp h
    obtain ⟨rfl, rfl⟩ := Prod.mk.inj he
    exact ⟨hbuild, logged_foldlM .start hz⟩
  next => cases h

/-- A miss, a hit in each of two segments and an expired lookup. The insertion, the
lookup and the eviction in between are not counted. -/
theorem requests_counted_revisited :
    ∃ (t₀ t : Tier 1) (st₁ st : Store) (log : List Served) (k : SegmentedCounters),
      ((ofLrus {} false 2 : Blueprint 1).build ⟨20, 0, 0⟩).run {} = .ok (.ok t₀) st₁ ∧
      Tier.Logged t₀ st₁ log t st ∧
      (log.map fun x => (x.answer, x.segment)) =
        [(.expired, some 0), (.hit, some 1), (.hit, some 0), (.miss, none)] ∧
      t.core.requests.toNat = log.length ∧ t.counters = .inr k ∧
      (k.segmentHits.map UInt64.toNat).sum = t.core.hits.toNat ∧
      ∃ n, t.core.misses = .ok n ∧ n.toNat = log.countP (·.answer ≠ .hit) := by
  have h : (logAll (ofLrus {} false 2 : Blueprint 1) ⟨20, 0, 0⟩ [.serve ⟨1, 3, 0, none⟩,
      .serve ⟨1, 3, 1, none⟩, .insert ⟨2, 4, 1, some 2⟩, .check ⟨1, 3, 2, none⟩ true,
      .serve ⟨1, 3, 2, none⟩, .serve ⟨2, 4, 9, none⟩, .evict]).any (fun x =>
        x.2.2.1.counters.isRight && decide ((x.2.1.map fun x => (x.answer, x.segment)) =
          [(.expired, some 0), (.hit, some 1), (.hit, some 0), (.miss, none)])) = true := by
    decide +kernel
  obtain ⟨⟨x, log, t, st⟩, hall, hcheck⟩ := (Option.any_eq_true _ _).mp h
  obtain ⟨hbuild, hlogged⟩ := logged_of_logAll hall
  rw [Bool.and_eq_true, decide_eq_true_eq] at hcheck
  obtain ⟨k, hk⟩ := Sum.isRight_iff.mp hcheck.1
  obtain ⟨hrequests, -, -, -, -, hsegments, hmisses⟩ := requests_counted hbuild hlogged
  exact ⟨x.1, t, x.2, st, log, k, hbuild, hlogged, hcheck.2, hrequests, hk, (hsegments k hk).1,
    hmisses⟩

end Blueprint
end SegmentedCache
