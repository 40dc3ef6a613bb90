import SegmentedCache.Proofs.Segmented.Creation
import SegmentedCache.Proofs.Tier.Lawful

/-!
# What is built

The leaves of a tier that was built are empty caches, each on a new index of its
own, so the tier is sound. If a blueprint passes on to its segments the capacities
it is given, the tier also fits, since the shares of the segments add up to the
capacity of the whole.
-/
namespace SegmentedCache

namespace Blueprint
open Policy

def adjustment : {d : Nat} → Blueprint d → Adjustment
  | _, .lru adjust _ => adjust
  | _, .segmented adjust _ _ _ => adjust

/-- Every segment is built for the capacity that is its share. -/
def Narrowing : {d : Nat} → Blueprint d → Prop
  | _, .lru _ _ => True
  | _, .segmented _ _ count plan =>
    ∀ i < count, (plan i).adjustment.capacity = none ∧ (plan i).Narrowing

instance decidableNarrowing : {d : Nat} → (b : Blueprint d) → Decidable b.Narrowing
  | _, .lru _ _ => isTrue trivial
  | _, .segmented _ _ count plan =>
    letI := fun i => decidableNarrowing (plan i)
    inferInstanceAs (Decidable
      (∀ i < count, (plan i).adjustment.capacity = none ∧ (plan i).Narrowing))

/-- What holds of every cache that a blueprint may build, and passes from the
segments to the whole, holds of what is built. -/
theorem leads_build_of {P : {d : Nat} → Blueprint d → Params → Tier d → Prop}
    (lru : ∀ {d : Nat} (adjust : Adjustment) (vouched : Bool) (p : Params) (c : Lru),
      c.Fresh (adjust.apply p) → P (.lru adjust vouched : Blueprint d) p (.ofLru c))
    (segmented : ∀ {d : Nat} (adjust : Adjustment) (vouched : Bool) (count : Nat)
      (plan : Nat → Blueprint d) (p : Params) {top : Nat} (s : Segmented (Tier d) top),
      s.Fresh (adjust.apply p) ⟨count⟩ →
      List.Forall₂ (fun i c => P (plan i) { adjust.apply p with
        capacity := Segmentation.share ⟨count⟩ (adjust.apply p).capacity i } c)
        (List.range count) s.segments.toList →
      P (.segmented adjust vouched count plan) p (.ofSegmented s))
    {d : Nat} (b : Blueprint d) (p : Params) (st : Store) :
    (b.build p).Leads st fun t st' => Lru.New st st' (leaves t) ∧ P b p t := by
  induction b generalizing p st with
  | @lru d adjust vouched =>
    have hlru : ∀ (c : Lru) (st' : Store), Lru.New st st' [c] ∧ c.Fresh (adjust.apply p) →
        Lru.New st st' (leaves (Tier.ofLru c : Tier d)) ∧
          P (.lru adjust vouched : Blueprint d) p (.ofLru c) := by
      intro c st' hc
      cases d with
      | zero => exact ⟨hc.1, lru adjust vouched p c hc.2⟩
      | succ d => exact ⟨hc.1, lru adjust vouched p c hc.2⟩
    unfold build
    dsimp only
    split
    · apply (BuildM.leads_lift (Lru.leads_createVouched _)).bind
      intro c st₁ _ hc
      exact BuildM.leads_pure (hlru c st₁ hc)
    · apply (Lru.leads_create _).bind
      intro c st₁ _ hc
      exact BuildM.leads_pure (hlru c st₁ hc)
  | @segmented d adjust vouched count plan ih =>
    unfold build
    refine (BuildM.leads_fault (Q := fun n st' => n = ⟨count⟩ ∧ st' = st) fun n hn => ?_).bind
      fun n st₁ _ hn => ?_
    · unfold Segmentation.ofCount at hn
      split at hn
      · cases hn
      · injection hn with e
        exact ⟨e.symm, rfl⟩
    · obtain ⟨rfl, rfl⟩ := hn
      have hcreate : (Segmented.create (adjust.apply p) ⟨count⟩ fun i q => (plan i).build q).Leads
          st₁ _ :=
        Segmented.leads_create (P := fun i q c => P (plan i) q c) (fun i q st => ih i q st) _ _
      dsimp only
      split
      · apply (BuildM.leads_lift hcreate.orFault).bind
        intro s st₂ _ hs
        exact BuildM.leads_pure ⟨hs.1, segmented adjust vouched count plan p s.2 hs.2.1 hs.2.2⟩
      · apply hcreate.bind
        intro s st₂ _ hs
        exact BuildM.leads_pure ⟨hs.1, segmented adjust vouched count plan p s.2 hs.2.1 hs.2.2⟩

theorem leads_build {d : Nat} (b : Blueprint d) (p : Params) (st : Store) :
    (b.build p).Leads st fun t st' => Lru.New st st' (leaves t) ∧
      Policy.capacity t = b.adjustment.capacity.getD p.capacity ∧ (b.Narrowing → Fits t) := by
  apply leads_build_of (P := fun b p t =>
    Policy.capacity t = b.adjustment.capacity.getD p.capacity ∧ (b.Narrowing → Fits t))
  case lru =>
    intro d adjust vouched p c hc
    have hcap : c.params.capacity = adjust.capacity.getD p.capacity := by
      rw [hc.params]
      rfl
    cases d with
    | zero => exact ⟨hcap, fun _ => trivial⟩
    | succ d => exact ⟨hcap, fun _ => trivial⟩
  case segmented =>
    intro d adjust vouched count plan p top s hs hparts
    refine ⟨?_, fun hn => ?_⟩
    · change s.params.capacity = _
      rw [hs.params]
      rfl
    · have hall := ((List.forall₂_and_left _ _).mpr
        ⟨fun i hi => hn i (List.mem_range.mp hi), hparts⟩).imp
          (S := fun i c => Fits c ∧ (Segmentation.share ⟨count⟩ (adjust.apply p).capacity i).toNat =
            (Policy.capacity c).toNat) fun i c h => ⟨h.2.2 h.1.2, by rw [h.2.1, h.1.1]; rfl⟩
      obtain ⟨hfits, hsame⟩ := (List.forall₂_and_left (p := Fits) (R := fun c i =>
        (Segmentation.share ⟨count⟩ (adjust.apply p).capacity i).toNat =
          (Policy.capacity c).toNat) _ _).mp hall.flip
      have hsame := List.forall₂_map_left_iff.mpr (List.forall₂_map_right_iff.mpr hsame.flip)
      rw [List.forall₂_eq_eq_eq] at hsame
      refine ⟨?_, hfits⟩
      rw [hs.params, ← hsame, Segmentation.sum_share hs.valid]

end Blueprint
end SegmentedCache
