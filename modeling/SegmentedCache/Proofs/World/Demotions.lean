import SegmentedCache.Proofs.Segmented.Fates
import SegmentedCache.Proofs.World.Residency

/-!
# Demotions among clients

A cooling drops a demotion whose level is too small for it even when empty. It also
drops one that would fit, if clients have deleted everything that the level holds from
its index, and the orphans are in the way. The eviction drops the orphans then, but
as it returns none of them, the cooling takes it that the level cannot shrink.
-/
namespace SegmentedCache

namespace Segmented
variable {C : Type} {top : Nat} [Policy C] {time : Time} {p q : Point top}
  {s s' : Segmented C top} {st st' : Store}

/-- The point that a cooling gets to in so many steps, if it goes on for as long. -/
def Point.advance (time : Time) : ℕ → Point top → Segmented C top → Store →
    Option (Point top × Segmented C top × Store)
  | 0, p, s, st => some (p, s, st)
  | n + 1, p, s, st =>
    match p.next time s st with
    | .ok (some q, s₁) st₁ => Point.advance time n q s₁ st₁
    | _ => none

theorem visits_of_advance {n : ℕ} (h : p.advance time n s st = some (q, s', st')) :
    Visits time n p s st q s' st' := by
  induction n generalizing p s st with
  | zero =>
    obtain ⟨rfl, rfl, rfl⟩ := Option.some.inj h
    exact .here _ _ _
  | succ n ih =>
    unfold Point.advance at h
    split at h
    next q₁ s₁ st₁ hq => exact .next hq (ih h)
    next => cases h

end Segmented

/-- The cache itself, if its segments are least-recently-used caches. -/
def Member.segmented? : Member → Option (Σ top, Segmented Lru top)
  | ⟨1, _, _, .inr s⟩ => some s
  | _ => none

namespace World
open Policy Segmented
variable {w : World} {m : Member}

/-- In every world, at every level that an operation on a segmented cache cools, the cooling
carries each demotion on until the level that it waits for takes it in, or is empty and too
small for it, or turns out to hold nothing but orphans. -/
theorem Reachable.demotions_treated (h : Reachable w) (hm : m ∈ w.members) {path : List ℕ}
    {top : ℕ} {s₀ : Segmented Lru top}
    (hs : m.tier.descend path = some ⟨1, .ofSegmented (d := 0) s₀⟩)
    {s : Segmented Lru top} {st : Store} (hu : Underway s₀ w.store s st) (time : Time)
    (level : Level top) :
    (∀ s' st', (cool time level).Yields s st () s' st' →
      ∃ n, Visits time n (.cooling level []) s st (.settling []) s' st') ∧
    ∀ n p s₁ st₁, Visits time n (.cooling level []) s st p s₁ st₁ →
      ∀ q s₂ st₂, (p.next time).Yields s₁ st₁ (some q) s₂ st₂ →
        Treats time s₁ st₁ s₂ st₂ p.pending q.pending := by
  have hsound₀ : Policy.Sound w.store s₀ :=
    (Tier.sound_descend path (h.sound.member m hm) hs).of_inr.of_mk
  have hsound := hu.sound hsound₀
  constructor
  · intro s' st' hy
    refine visits_coolWithin ?_ hy
    rw [coolingBound_eq, burden_nil]
    omega
  · intro n p s₁ st₁ hv q s₂ st₂ hy
    have hneed : (Point.cooling level []).Needed s := fun d hd => by cases hd
    obtain ⟨hsound₁, -⟩ := hv.sound hsound (Waits.nil st s)
    exact treats_next hsound₁ (hv.needed hneed) hy

/-! ## Two segments -/

theorem descend_of_segmented? {top : ℕ} {s : Segmented Lru top}
    (h : m.segmented? = some ⟨top, s⟩) : m.tier.descend [] = some ⟨1, .ofSegmented (d := 0) s⟩ := by
  unfold Member.segmented? at h
  split at h
  next s' =>
    rw [Tier.descend, Option.some.inj h]
    rfl
  next => cases h

/-- An object is in the upper one of two segments. -/
def raised : World :=
  ((empty.build (.ofLrus {} false 2 : Blueprint 1) ⟨20, 0, 0⟩).work (.serve ⟨1, 10, 0, none⟩)).work
    (.serve ⟨1, 10, 0, none⟩)

/-- Another came into the lower one, and was deleted behind the back of the cache. -/
def deserted : World := (raised.work (.serve ⟨2, 5, 0, none⟩)).delete 0 2

theorem reachable_raised : Reachable raised := ((Reachable.start.build _ _).work _).work _

/-- The lower segment takes the object in. -/
theorem demotions_treated_raised :
    ∃ m ∈ raised.members, ∃ (top : ℕ) (s : Segmented Lru top), m.segmented? = some ⟨top, s⟩ ∧
      ∃ p q s₁ st₁ s₂ st₂,
        Visits 0 1 (.cooling (Fin.last top) []) s raised.store p s₁ st₁ ∧
        (p.next 0).Yields s₁ st₁ (some q) s₂ st₂ ∧ p.pending.length = 1 ∧ q.pending = [] ∧
        Treats 0 s₁ st₁ s₂ st₂ p.pending q.pending := by
  have hrun : ∃ m ∈ raised.members, m.segmented?.any (fun s =>
      (Point.advance 0 1 (.cooling (Fin.last s.1) []) s.2 raised.store).any fun x =>
        match x.1.next 0 x.2.1 x.2.2 with
        | .ok (q, _) _ => q.any fun q => x.1.pending.length == 1 && q.pending.length == 0
        | .error _ _ => false) = true := by
    decide +kernel
  obtain ⟨m, hm, hrun⟩ := hrun
  obtain ⟨⟨top, s⟩, hs, hrun⟩ := (Option.any_eq_true _ _).mp hrun
  obtain ⟨⟨p, s₁, st₁⟩, hadvance, hrun⟩ := (Option.any_eq_true _ _).mp hrun
  split at hrun
  next next s₂ st₂ hy =>
    obtain ⟨q, rfl, hlength⟩ := (Option.any_eq_true _ _).mp hrun
    rw [Bool.and_eq_true, beq_iff_eq, beq_iff_eq] at hlength
    have hv := visits_of_advance hadvance
    have htreats := (reachable_raised.demotions_treated hm (descend_of_segmented? hs) .start
      0 (Fin.last top)).2 1 p s₁ st₁ hv q s₂ st₂ hy
    exact ⟨m, hm, top, s, hs, p, q, s₁, st₁, s₂, st₂, hv, hy, hlength.1,
      List.eq_nil_of_length_eq_zero hlength.2, htreats⟩
  next => cases hrun

/-- The object is dropped, and it would fit into the lower segment. -/
theorem demotion_stranded :
    ¬ ∀ w, Reachable w → ∀ m ∈ w.members, ∀ path top (s : Segmented Lru top),
      m.tier.descend path = some ⟨1, .ofSegmented (d := 0) s⟩ → ∀ time level n p s₁ st₁,
      Visits time n (.cooling level []) s w.store p s₁ st₁ → ∀ q s₂ st₂,
      (p.next time).Yields s₁ st₁ (some q) s₂ st₂ →
      s₂.counters.coolingDrops ≠ s₁.counters.coolingDrops → ∀ d ∈ p.pending.head?,
      (s₁.segment d.1).params.capacity.toNat <
        d.2.size.toNat + (s₁.segment d.1).params.overhead.toNat := by
  intro hall
  have hr : Reachable deserted := (reachable_raised.work _).delete 0 2
  have hrun : ∃ m ∈ deserted.members, m.segmented?.any (fun s =>
      (Point.advance 0 2 (.cooling (Fin.last s.1) []) s.2 deserted.store).any fun x =>
        match x.1.next 0 x.2.1 x.2.2 with
        | .ok (q, s') _ => q.isSome && s'.counters.coolingDrops != x.2.1.counters.coolingDrops &&
          x.1.pending.head?.any fun d =>
            decide (d.2.size.toNat + (x.2.1.segment d.1).params.overhead.toNat ≤
              (x.2.1.segment d.1).params.capacity.toNat)
        | .error _ _ => false) = true := by
    decide +kernel
  obtain ⟨m, hm, hrun⟩ := hrun
  obtain ⟨⟨top, s⟩, hs, hrun⟩ := (Option.any_eq_true _ _).mp hrun
  obtain ⟨⟨p, s₁, st₁⟩, hadvance, hrun⟩ := (Option.any_eq_true _ _).mp hrun
  split at hrun
  next next s₂ st₂ hy =>
    rw [Bool.and_eq_true, Bool.and_eq_true, bne_iff_ne] at hrun
    obtain ⟨⟨hsome, hdrops⟩, hfits⟩ := hrun
    obtain ⟨q, rfl⟩ := Option.isSome_iff_exists.mp hsome
    obtain ⟨d, hd, hfits⟩ := (Option.any_eq_true _ _).mp hfits
    have hlarge := hall deserted hr m hm [] top s (descend_of_segmented? hs) 0 (Fin.last top) 2 p
      s₁ st₁ (visits_of_advance hadvance) q s₂ st₂ hy hdrops d hd
    exact absurd (of_decide_eq_true hfits) (Nat.not_le.mpr hlarge)
  next => cases hrun

end World
end SegmentedCache
