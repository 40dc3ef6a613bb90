import SegmentedCache.Operation
import SegmentedCache.Proofs.Segmented.Lawful

/-!
# What the operations of a segmented cache have in common

A segmented cache works on its segments and on its counters, and everything it does is put
together from such steps. As with the caches that are its segments, a relation between the
states before and after that every step keeps to is kept by every operation, provided that it
holds of doing nothing and of one run after another.

An insertion into a segment may lead further than the other steps do. Then what it leads to
is what an insertion into the whole leads to.
-/
namespace SegmentedCache.Segmented
open SegmentedCache.Action Policy
variable {C : Type} {top : Nat} [Policy C]

/-! ## Evicting, inserting and removing -/

/-- The steps that let objects go keep to `R`, and so do the reports. -/
structure Clearing (R : Segmented C top → Store → Segmented C top → Store → Prop) : Prop
    extends Composes R where
  emit : ∀ e : Event, Relates R (liftM (CacheM.emit e))
  evictAt : ∀ i, Relates R (onSegment i Policy.evict)
  removeAt : ∀ i id, Relates R (onSegment i (Policy.remove id))
  eviction : Relates R (recordCore Counters.recordEviction)
  insertion : ∀ size, Relates R (recordCore (·.recordInsertion size))
  removal : Relates R (record SegmentedCounters.recordRemoval)

namespace Clearing
variable {R S : Segmented C top → Store → Segmented C top → Store → Prop} (h : Clearing R)
include h

theorem evict : Relates R evict := by
  refine h.bind (h.evictAt 0) fun victim => ?_
  cases victim with
  | none => exact h.pure none
  | some v => exact h.bind h.eviction fun _ => h.pure _

theorem evictUntilRoom (size : Bytes) (fuel : ℕ) : Relates R (evictUntilRoom size fuel) := by
  induction fuel with
  | zero => exact h.pure ()
  | succ fuel ih =>
    refine Relates.get_bind fun s => h.bind (h.checked _) fun room => ?_
    split
    · exact h.pure ()
    · refine h.bind h.evict fun victim => ?_
      cases victim with
      | none => exact h.pure ()
      | some v => exact ih

theorem levelFor (size : Bytes) : Relates R (levelFor size) := by
  refine Relates.get_bind fun s => h.bind (h.checked _) fun found => ?_
  dsimp only
  split
  · exact h.bind (h.evictUntilRoom size _) fun _ => h.pure _
  · exact h.pure _

theorem displace (id : ObjectId) : Relates R (displace id) := by
  refine Relates.get_bind fun s => Relates.getThe_bind fun st => ?_
  split
  · exact h.pure ()
  · exact (h.removeAt _ id).discard

theorem insert (k : Absorbs R S) (hinsert : ∀ i r, Relates S (onSegment i (Policy.insert r)))
    (r : Request) : Relates S (insert r) := by
  refine Relates.get_bind fun s => ?_
  dsimp only
  split
  · exact (h.bind (h.emit _) fun _ => h.pure none).mono k.of
  · refine k.bind (h.displace r.id) fun _ => k.bind (h.levelFor r.size) fun level =>
      k.bind_after (hinsert level r) fun res => ?_
    cases res with
    | none => exact h.pure none
    | some o => exact h.bind (h.insertion r.size) fun _ => h.pure _

theorem remove (id : ObjectId) : Relates R (remove id) := by
  refine Relates.get_bind fun s => Relates.getThe_bind fun st => ?_
  split
  · exact h.bind (h.emit _) fun _ => h.pure none
  · exact h.bind (h.removeAt _ id) fun _ => h.bind h.removal fun _ => h.pure _

end Clearing

/-! ## Operations -/

/-- So do the other steps on segments, and what is counted of moves. -/
structure Working (R : Segmented C top → Store → Segmented C top → Store → Prop) : Prop
    extends Clearing R where
  checkAt : ∀ i r update, Relates R (onSegment i (Policy.check r update))
  insertAt : ∀ i r, Relates R (onSegment i (Policy.insert r))
  promotion : Relates R (record SegmentedCounters.recordPromotion)
  demotion : Relates R (record SegmentedCounters.recordDemotion)
  coolingDrop : Relates R (record SegmentedCounters.recordCoolingDrop)

namespace Working
variable {R : Segmented C top → Store → Segmented C top → Store → Prop} (h : Working R)
include h

theorem demote (time : Time) (level : Level top) (pending : List (Demotion top)) :
    Relates R (demote time level pending) := by
  refine h.bind (h.evictAt level) fun victim => ?_
  cases victim with
  | some v =>
    obtain ⟨i, hi⟩ := level
    cases i with
    | zero => exact h.bind h.eviction fun _ => h.pure _
    | succ below => exact h.bind h.demotion fun _ => h.bind (h.emit _) fun _ => h.pure _
  | none =>
    cases pending with
    | nil => exact h.pure []
    | cons d rest => exact h.bind (h.emit _) fun _ => h.bind h.coolingDrop fun _ => h.pure _

theorem settle (pending : List (Demotion top)) : Relates R (settle pending) := by
  induction pending with
  | nil => exact h.pure []
  | cons d rest ih =>
    refine Relates.get_bind fun s => h.bind (h.checked _) fun room => ?_
    split
    · exact h.bind (h.insertAt d.1 d.2).discard fun _ => ih
    · split
      · exact h.bind (h.emit _) fun _ => h.bind h.coolingDrop fun _ => ih
      · exact h.pure _

theorem coolWithin (time : Time) (fuel : ℕ) (level : Level top) (pending : List (Demotion top)) :
    Relates R (coolWithin time fuel level pending) := by
  induction fuel generalizing level pending with
  | zero => exact h.pure ()
  | succ fuel ih =>
    refine h.bind (h.demote time level pending) fun pending =>
      h.bind (h.settle pending) fun pending => ?_
    split
    · exact h.pure ()
    · exact ih _ _

theorem cool (time : Time) (level : Level top) : Relates R (cool time level) :=
  Relates.get_bind fun _ => h.coolWithin time _ level []

theorem makeRoomWithin (time : Time) (dest : Level top) (size : Bytes) (fuel : ℕ) :
    Relates R (makeRoomWithin time dest size fuel) := by
  induction fuel with
  | zero => exact h.pure ()
  | succ fuel ih =>
    refine Relates.get_bind fun s => h.bind (h.checked _) fun room => ?_
    split
    · exact h.pure ()
    · dsimp only
      split
      · exact h.pure ()
      · refine h.bind (h.cool time dest) fun _ => Relates.get_bind fun s => ?_
        split
        · exact h.pure ()
        · exact ih

theorem makeRoom (time : Time) (dest : Level top) (size : Bytes) :
    Relates R (makeRoom time dest size) :=
  Relates.get_bind fun _ => h.makeRoomWithin time dest size _

theorem promoteFrom (r : Request) (level : Level top) : Relates R (promoteFrom r level) := by
  unfold Segmented.promoteFrom
  split
  · refine h.bind (h.removeAt level r.id) fun removed => ?_
    cases removed with
    | none => exact h.pure ()
    | some o =>
      refine h.bind (h.makeRoom _ _ _) fun _ => Relates.get_bind fun s =>
        h.bind (h.checked _) fun room => ?_
      split
      · exact h.bind (h.insertAt _ _).discard fun _ => h.bind h.promotion fun _ => h.emit _
      · exact h.bind (h.emit _) fun _ => h.eviction
  · exact h.pure ()

theorem probe (r : Request) (update : Bool) (l : List (Level top)) :
    Relates R (probe r update l) := by
  induction l with
  | nil => exact h.pure none
  | cons level rest ih =>
    refine h.bind (h.checkAt level r update) fun found => ?_
    cases found with
    | miss => exact ih
    | expired => exact h.pure _
    | hit =>
      dsimp only
      split
      · exact h.bind (h.promoteFrom r level) fun _ => h.pure _
      · exact h.pure _

theorem check (r : Request) (update : Bool) : Relates R (check r update) := by
  rw [check_eq]
  exact relates_map_iff.mpr (h.probe r update _)

theorem insert (r : Request) : Relates R (insert r) :=
  h.toClearing.insert h.absorbs h.insertAt r

theorem admission (r : Request) (answer : Lookup) : Relates R (admission r answer) := by
  unfold Segmented.admission
  split
  · refine Relates.get_bind fun s => ?_
    split
    · exact h.bind (h.insert r).discard fun _ => h.pure _
    · exact h.bind (h.emit _) fun _ => h.pure _
  · exact h.pure _

theorem serve
    (htally : ∀ (found : Option (Level top × Lookup)) size, Relates R (record (tally found size)))
    (r : Request) : Relates R (serve r) := by
  rw [serve_eq]
  exact h.bind (h.probe r true _) fun found => h.bind (htally found r.size) fun _ =>
    h.admission r _

/-- Requests are counted, so there it depends on what is recorded of them. -/
theorem perform {op : Operation} (hserve : ∀ r, op = .serve r → Relates R (Segmented.serve r)) :
    Relates R (perform op : Action (Segmented C top) Response) := by
  cases op with
  | serve r => exact relates_map_iff.mpr (hserve r rfl)
  | check r update => exact relates_map_iff.mpr (h.check r update)
  | insert r => exact relates_map_iff.mpr (h.insert r)
  | evict => exact relates_map_iff.mpr h.evict
  | remove id => exact relates_map_iff.mpr (h.remove id)

end Working
end SegmentedCache.Segmented
