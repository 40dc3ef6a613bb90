import SegmentedCache.Proofs.World.Basic

/-!
# Residency and capacity

In a reachable world an id is found by at most one leaf of a cache. So at every
segmented cache inside it, of whatever depth, the segment that a lookup settles
on is the only one with the id, and a removal leaves none.

No leaf goes beyond its capacity. If every segment was built for its share of
the capacity above it, no segmented cache inside does so either, and the sum of
its bytes stays in range.
-/
namespace SegmentedCache

namespace Tier
open Policy
variable {e : Nat} {s : Tier e} {st : Store}

theorem sound_descend {d : Nat} {t : Tier d} (path : List Nat) (ht : Policy.Sound st t)
    (h : t.descend path = some ⟨e, s⟩) : Policy.Sound st s :=
  descend_induction (P := fun _ t => Policy.Sound st t)
    (fun _ hs i => Segmented.sound_segment hs.of_inr.of_mk i) path ht h

theorem fits_descend {d : Nat} {t : Tier d} (path : List Nat) (ht : Fits t)
    (h : t.descend path = some ⟨e, s⟩) : Fits s :=
  descend_induction (P := fun _ t => Fits t)
    (fun _ hs i => hs.2 _ (Segmented.mem_toList_iff.mpr ⟨i, rfl⟩)) path ht h

end Tier

namespace World
open Policy
variable {w : World} {m : Member}

/-- Every id has one home in a cache, and every cache keeps to its capacity. -/
theorem Reachable.residency (h : Reachable w) (hm : m ∈ w.members) :
    (m.tier.leaves.Pairwise fun c d =>
      ∀ id, ¬(contains w.store c id = true ∧ contains w.store d id = true)) ∧
    (∀ path d top (s : Segmented (Tier d) top),
      m.tier.descend path = some ⟨d + 1, .ofSegmented s⟩ →
      ∀ id i, s.segmentOf? w.store id = some i ↔ contains w.store (s.segment i) id = true) ∧
    (∀ id removed t st, Action.Yields (remove id) m.tier w.store removed t st →
      contains st t id = false) ∧
    (∀ c ∈ m.tier.leaves, c.occupied ≤ c.params.capacity) ∧
    (m.blueprint.Narrowing → ∀ path d (t : Tier d), m.tier.descend path = some ⟨d, t⟩ →
      ∃ bytes, occupied t = .ok bytes ∧ bytes ≤ capacity t) := by
  have hsound : Policy.Sound w.store m.tier := h.sound.member m hm
  have hleaves : ∀ c ∈ m.tier.leaves, c.Charged := by
    intro c hc
    rw [← Tier.leaves_eq] at hc
    exact hsound.charged c hc
  refine ⟨?sole, ?segment, ?removed, ?leaf, ?inner⟩
  case sole =>
    rw [← Tier.leaves_eq]
    apply hsound.sole.imp
    intro c d hcd id hid
    exact Set.disjoint_left.mp hcd hid.1 hid.2
  case segment =>
    intro path d top s hs id i
    have hs' : Policy.Sound w.store s := (Tier.sound_descend path hsound hs).of_inr.of_mk
    rw [Lawful.contains_iff]
    exact Segmented.segmentOf?_eq_some_iff hs'
  case removed =>
    intro id removed t st hr
    have hgone := ((Lawful.ensures_remove hsound id).apply hr).2.1
    rwa [← Lawful.contains_iff, Bool.not_eq_true] at hgone
  case leaf =>
    intro c hc
    exact UInt64.le_iff_toNat_le.mpr (hleaves c hc).within
  case inner =>
    intro hn path d t ht
    have hfits : Fits t := Tier.fits_descend path (h.sound.fits m hm hn) ht
    exact Lawful.occupied_le (Tier.sound_descend path hsound ht).charged hfits

/-- Two segments of two segments each. -/
def nested : Blueprint 2 := .segmented {} false 2 fun _ => .ofLrus {} false 2

/-- The second request moved the object from the lower half to the upper one. -/
def climbed : World :=
  ((empty.build nested ⟨20, 1, 0⟩).work (.serve ⟨1, 3, 0, none⟩)).work (.serve ⟨1, 3, 0, none⟩)

theorem residency_climbed :
    ∃ m ∈ climbed.members, contains climbed.store m.tier 1 = true ∧
      (m.tier.leaves.Pairwise fun c d =>
        ∀ id, ¬(contains climbed.store c id = true ∧ contains climbed.store d id = true)) ∧
      ∃ bytes, occupied m.tier = .ok bytes ∧ bytes ≤ capacity m.tier := by
  have hr : Reachable climbed := ((Reachable.start.build _ _).work _).work _
  have hm : ∃ m ∈ climbed.members, contains climbed.store m.tier 1 = true ∧
      m.blueprint.Narrowing := by decide +kernel
  obtain ⟨m, hm, hid, hn⟩ := hm
  obtain ⟨hsole, -, -, -, hinner⟩ := hr.residency hm
  exact ⟨m, hm, hid, hsole, hinner hn [] m.depth m.tier (by rw [Tier.descend])⟩

end World
end SegmentedCache
