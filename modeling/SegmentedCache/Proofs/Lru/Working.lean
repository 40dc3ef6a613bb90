import SegmentedCache.Proofs.Losses
import SegmentedCache.Proofs.Policy.Peeking

/-!
# What the operations have in common

Few steps make up all the operations of a least-recently-used cache. A relation between the
states before and after that every step keeps to is kept by every operation, provided that it
holds of doing nothing and of one run after another. So the operations are gone through once,
and what is said of all of them elsewhere need only be shown of the steps.

Linking a new object may lead further than the other steps do. Then what it leads to is
what an insertion leads to.
-/
namespace SegmentedCache.Lru
open SegmentedCache.Action Policy

/-! ## Displacing and linking -/

/-- The steps on single objects keep to `R`. -/
structure Handling (R : Lru → Store → Lru → Store → Prop) : Prop extends Composes R where
  emit : ∀ {e : Event}, e.isLoss = false → Relates R (liftM (CacheM.emit e))
  createFor : ∀ r, Relates R (liftM (CacheM.createFor r))
  enter : ∀ k o, Relates R (liftM (CacheM.onIndex k fun ix s => ix.insert s o))
  unlink : ∀ o, Relates R (unlink o)

namespace Handling
variable {R S : Lru → Store → Lru → Store → Prop} (h : Handling R)
include h

theorem dropOrphans (l : List CacheObject) : Relates R (dropOrphans l) := by
  induction l with
  | nil => exact h.pure ()
  | cons o rest ih => exact h.bind (h.emit rfl) fun _ => h.bind (h.unlink o).discard fun _ => ih

theorem purge : Relates R purge :=
  Relates.get_bind fun _ => Relates.getThe_bind fun _ => h.dropOrphans _

theorem displace (r : Request) : Relates R (displace r) := by
  refine Relates.get_bind fun c => Relates.getThe_bind fun st => ?_
  dsimp only
  split
  · split
    · exact (h.unlink _).discard
    · exact h.purge
  · split
    · exact h.purge
    · exact h.pure ()

theorem link (k : Absorbs R S) (hattach : ∀ r o, Relates S (attach r o)) (r : Request) :
    Relates S (link r) := by
  refine Relates.get_bind fun c => k.bind (h.createFor r) fun o =>
    k.bind (h.enter c.index o) fun stale => ?_
  cases stale with
  | none => exact hattach r o
  | some old => exact k.bind (h.unlink old).discard fun _ => hattach r o

end Handling

/-! ## Evicting, inserting and removing -/

/-- So does what is counted of objects that enter and leave. -/
structure Clearing (R : Lru → Store → Lru → Store → Prop) : Prop extends Handling R where
  eviction : Relates R (recordCore Counters.recordEviction)
  insertion : ∀ size, Relates R (recordCore (·.recordInsertion size))
  removal : Relates R (record LruCounters.recordRemoval)

namespace Clearing
variable {R S : Lru → Store → Lru → Store → Prop} (h : Clearing R)
include h

theorem evictWithin (fuel : Nat) : Relates R (evictWithin fuel) := by
  induction fuel with
  | zero => exact h.pure none
  | succ fuel ih =>
    refine Relates.get_bind fun c => ?_
    split
    · exact h.pure none
    · refine Relates.getThe_bind fun st => h.bind (h.unlink _) fun unlinked => ?_
      split
      · split
        · exact h.bind h.eviction fun _ => h.bind (h.emit rfl) fun _ => h.pure _
        · exact ih
      · exact h.pure none

theorem evict : Relates R evict := Relates.get_bind fun _ => h.evictWithin _

theorem makeRoomWithin (charge : Bytes) (fuel : Nat) : Relates R (makeRoomWithin charge fuel) := by
  induction fuel with
  | zero => exact h.pure ()
  | succ fuel ih =>
    refine Relates.get_bind fun c => h.bind (h.checked _) fun total => ?_
    split
    · refine h.bind h.evict fun victim => ?_
      cases victim with
      | none => exact h.pure ()
      | some o => exact ih
    · exact h.pure ()

theorem makeRoom (charge : Bytes) : Relates R (makeRoom charge) :=
  Relates.get_bind fun _ => h.makeRoomWithin charge _

theorem insert (k : Absorbs R S) (hattach : ∀ r o, Relates S (attach r o)) (r : Request) :
    Relates S (insert r) := by
  refine Relates.get_bind fun c => ?_
  dsimp only
  split
  · exact (h.bind (h.emit rfl) fun _ => h.pure none).mono k.of
  · exact k.bind (h.displace r) fun _ => k.bind (h.makeRoom _) fun _ =>
      k.bind_after (h.link k hattach r) fun _ => h.bind (h.insertion r.size) fun _ => h.pure _

theorem remove (id : ObjectId) : Relates R (remove id) := by
  refine Relates.get_bind fun c => Relates.getThe_bind fun st => ?_
  split
  · exact h.bind (h.emit rfl) fun _ => h.pure none
  · exact h.bind (h.unlink _) fun _ => h.bind h.removal fun _ => h.pure _

end Clearing

/-! ## Operations -/

/-- So do linking, a hit, and what is counted of expired objects. -/
structure Working (R : Lru → Store → Lru → Store → Prop) : Prop extends Clearing R where
  attach : ∀ r o, Relates R (attach r o)
  requeue : ∀ {c : Lru} {st : Store} {k : Nat} {queue : Recency},
    c.queue.moveToFront k = some queue → R c st { c with queue } st
  expiredRemoval : Relates R (record LruCounters.recordExpiredRemoval)

namespace Working
variable {R : Lru → Store → Lru → Store → Prop} (h : Working R)
include h

theorem insert (r : Request) : Relates R (insert r) :=
  h.toClearing.insert h.absorbs h.attach r

theorem check (r : Request) (update : Bool) : Relates R (check r update) := by
  intro c st found c' st' hy
  have hsame : ∀ {answer}, (Pure.pure answer : Action Lru Lookup).Yields c st found c' st' →
      R c st c' st' := fun hy => h.pure _ hy
  unfold Lru.check at hy
  rw [yields_get_bind_iff, yields_getThe_bind_iff] at hy
  split at hy
  · exact hsame hy
  · cases update with
    | false =>
      split at hy
      · exact hsame hy
      · exact hsame hy
    | true =>
      rw [if_pos rfl, if_pos rfl] at hy
      split at hy
      · exact h.bind (h.unlink _).discard (fun _ => h.bind h.expiredRemoval fun _ => h.pure _) hy
      · split at hy
        next queue hqueue =>
          obtain ⟨k, -, hmove⟩ := Option.bind_eq_some_iff.mp hqueue
          obtain ⟨_, c₁, st₁, hset, hpure⟩ := yields_bind_iff.mp hy
          obtain ⟨rfl, rfl⟩ := yields_set_iff.mp hset
          obtain ⟨-, rfl, rfl⟩ := yields_pure_iff.mp hpure
          exact h.requeue hmove
        next => exact hsame hy

theorem admission (r : Request) (answer : Lookup) : Relates R (admission r answer) := by
  unfold Lru.admission
  split
  · refine Relates.get_bind fun c => ?_
    dsimp only
    split
    · exact h.bind (h.insert r).discard fun _ => h.pure answer
    · exact h.bind (h.emit rfl) fun _ => h.pure answer
  · exact h.pure answer

theorem serve (hlookup : ∀ size found, Relates R (recordCore (·.recordLookup size found)))
    (r : Request) : Relates R (serve r) := by
  rw [serve_eq]
  exact h.bind (h.check r true) fun found => h.bind (hlookup r.size found) fun _ =>
    h.admission r found

/-- Requests are counted, so there it depends on what is recorded of them. -/
theorem perform {op : Operation} (hserve : ∀ r, op = .serve r → Relates R (Lru.serve r)) :
    Relates R (perform op : Action Lru Response) := by
  cases op with
  | serve r => exact relates_map_iff.mpr (hserve r rfl)
  | check r update => exact relates_map_iff.mpr (h.check r update)
  | insert r => exact relates_map_iff.mpr (h.insert r)
  | evict => exact relates_map_iff.mpr h.evict
  | remove id => exact relates_map_iff.mpr (h.remove id)

end Working
end SegmentedCache.Lru
