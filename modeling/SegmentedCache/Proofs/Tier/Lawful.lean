import SegmentedCache.Proofs.Lru.Lawful
import SegmentedCache.Proofs.Segmented.Lawful
import SegmentedCache.Tier.Blueprint

/-!
# Tiers are lawful

A choice between two lawful policies is lawful, and so is a family of them. By
recursion on the depth, every tier is lawful, with the leaves at its bottom.
-/
namespace SegmentedCache

namespace Policy
open SegmentedCache.Action
variable {C D I α : Type} {F : I → Type} {st : Store}

/-- An action on one kind of cache, seen as one on either kind. -/
theorem ensures_either_inl {f : Action C α} {g : Action D α} {c : C} {Q : α → C → Store → Prop}
    {R : α → C ⊕ D → Store → Prop} (h : f.Ensures c st Q)
    (hR : ∀ a c st', Q a c st' → R a (.inl c) st') : (Action.either f g).Ensures (.inl c) st R := by
  unfold Ensures at *
  rw [either_apply_inl]
  cases hx : f c st with
  | ok x st' =>
    rw [hx] at h
    exact hR _ _ _ h
  | error e st' =>
    rw [hx] at h
    exact h

theorem ensures_either_inr {f : Action C α} {g : Action D α} {d : D} {Q : α → D → Store → Prop}
    {R : α → C ⊕ D → Store → Prop} (h : g.Ensures d st Q)
    (hR : ∀ a d st', Q a d st' → R a (.inr d) st') : (Action.either f g).Ensures (.inr d) st R := by
  unfold Ensures at *
  rw [either_apply_inr]
  cases hx : g d st with
  | ok x st' =>
    rw [hx] at h
    exact hR _ _ _ h
  | error e st' =>
    rw [hx] at h
    exact h

theorem ensures_family {f : ∀ i, Action (F i) α} {i : I} {c : F i} {Q : α → F i → Store → Prop}
    {R : α → (Σ i, F i) → Store → Prop} (h : (f i).Ensures c st Q)
    (hR : ∀ a c st', Q a c st' → R a ⟨i, c⟩ st') : (Action.family f).Ensures ⟨i, c⟩ st R := by
  unfold Ensures at *
  rw [family_apply]
  cases hx : f i c st with
  | ok x st' =>
    rw [hx] at h
    exact hR _ _ _ h
  | error e st' =>
    rw [hx] at h
    exact h

instance [Policy C] [Policy D] [Composed C] [Composed D] : Composed (C ⊕ D) where
  leaves := Sum.elim leaves leaves
  Fits := Sum.elim Fits Fits
  Roomy := Sum.elim Roomy Roomy

instance [∀ i, Policy (F i)] [∀ i, Composed (F i)] : Composed (Σ i, F i) where
  leaves c := leaves c.2
  Fits c := Fits c.2
  Roomy c := Roomy c.2

section
variable [Policy C] [Policy D] [Lawful C] [Lawful D] {st' : Store} {c c' : C} {d d' : D}

theorem Sound.of_inl (h : Sound st (Sum.inl c : C ⊕ D)) : Sound st c := ⟨h.together, h.charged, h.sole⟩

theorem Sound.of_inr (h : Sound st (Sum.inr d : C ⊕ D)) : Sound st d := ⟨h.together, h.charged, h.sole⟩

theorem Kept.inl (h : Kept st c st' c') : Kept st (Sum.inl c : C ⊕ D) st' (.inl c') :=
  ⟨⟨h.together, h.charged, h.sole⟩, h.confined, h.capacity, h.overhead, h.limit, h.fits, h.roomy,
    h.tidy⟩

theorem Kept.inr (h : Kept st d st' d') : Kept st (Sum.inr d : C ⊕ D) st' (.inr d') :=
  ⟨⟨h.together, h.charged, h.sole⟩, h.confined, h.capacity, h.overhead, h.limit, h.fits, h.roomy,
    h.tidy⟩

theorem Shrinks.inl (h : Shrinks st c st' c') : Shrinks st (Sum.inl c : C ⊕ D) st' (.inl c') :=
  ⟨h.toKept.inl, h.stock_subset⟩

theorem Shrinks.inr (h : Shrinks st d st' d') : Shrinks st (Sum.inr d : C ⊕ D) st' (.inr d') :=
  ⟨h.toKept.inr, h.stock_subset⟩

instance : Lawful (C ⊕ D) where
  contains_iff st
    | .inl c, id => Lawful.contains_iff st c id
    | .inr d, id => Lawful.contains_iff st d id
  sums_occupied
    | .inl c => Lawful.sums_occupied c
    | .inr d => Lawful.sums_occupied d
  occupied_le {c} h hf := by
    cases c with
    | inl c => exact Lawful.occupied_le (c := c) h hf
    | inr d => exact Lawful.occupied_le (c := d) h hf
  ensures_check {st c} h r update := by
    cases c with
    | inl c => exact ensures_either_inl (Lawful.ensures_check h.of_inl r update) fun _ _ _ k => ⟨k.1.inl, k.2⟩
    | inr d => exact ensures_either_inr (Lawful.ensures_check h.of_inr r update) fun _ _ _ k => ⟨k.1.inr, k.2⟩
  ensures_serve {st c} h r := by
    cases c with
    | inl c => exact ensures_either_inl (Lawful.ensures_serve h.of_inl r) fun _ _ _ k => ⟨k.1.inl, k.2⟩
    | inr d => exact ensures_either_inr (Lawful.ensures_serve h.of_inr r) fun _ _ _ k => ⟨k.1.inr, k.2⟩
  ensures_insert {st c} h r := by
    cases c with
    | inl c => exact ensures_either_inl (Lawful.ensures_insert h.of_inl r) fun _ _ _ k => ⟨k.1.inl, k.2⟩
    | inr d => exact ensures_either_inr (Lawful.ensures_insert h.of_inr r) fun _ _ _ k => ⟨k.1.inr, k.2⟩
  ensures_evict {st c} h := by
    cases c with
    | inl c => exact ensures_either_inl (Lawful.ensures_evict h.of_inl) fun _ _ _ k => ⟨k.1.inl, k.2⟩
    | inr d => exact ensures_either_inr (Lawful.ensures_evict h.of_inr) fun _ _ _ k => ⟨k.1.inr, k.2⟩
  ensures_remove {st c} h id := by
    cases c with
    | inl c => exact ensures_either_inl (Lawful.ensures_remove h.of_inl id) fun _ _ _ k => ⟨k.1.inl, k.2⟩
    | inr d => exact ensures_either_inr (Lawful.ensures_remove h.of_inr id) fun _ _ _ k => ⟨k.1.inr, k.2⟩
  ensures_release {st c} h := by
    cases c with
    | inl c => exact ensures_either_inl (Lawful.ensures_release (c := c) h) fun _ _ _ k => k
    | inr d => exact ensures_either_inr (Lawful.ensures_release (c := d) h) fun _ _ _ k => k

end

section
variable [∀ i, Policy (F i)] [∀ i, Lawful (F i)] {st' : Store} {i : I} {c c' : F i}

theorem Sound.of_mk (h : Sound st (⟨i, c⟩ : Σ i, F i)) : Sound st c := ⟨h.together, h.charged, h.sole⟩

theorem Kept.family (h : Kept st c st' c') : Kept st (⟨i, c⟩ : Σ i, F i) st' ⟨i, c'⟩ :=
  ⟨⟨h.together, h.charged, h.sole⟩, h.confined, h.capacity, h.overhead, h.limit, h.fits, h.roomy,
    h.tidy⟩

theorem Shrinks.family (h : Shrinks st c st' c') : Shrinks st (⟨i, c⟩ : Σ i, F i) st' ⟨i, c'⟩ :=
  ⟨h.toKept.family, h.stock_subset⟩

instance : Lawful (Σ i, F i) where
  contains_iff st c id := Lawful.contains_iff st c.2 id
  sums_occupied c := Lawful.sums_occupied c.2
  occupied_le {c} h hf := Lawful.occupied_le (c := c.2) h hf
  ensures_check h r update :=
    ensures_family (Lawful.ensures_check h.of_mk r update) fun _ _ _ k => ⟨k.1.family, k.2⟩
  ensures_serve h r := ensures_family (Lawful.ensures_serve h.of_mk r) fun _ _ _ k => ⟨k.1.family, k.2⟩
  ensures_insert h r := ensures_family (Lawful.ensures_insert h.of_mk r) fun _ _ _ k => ⟨k.1.family, k.2⟩
  ensures_evict h := ensures_family (Lawful.ensures_evict h.of_mk) fun _ _ _ k => ⟨k.1.family, k.2⟩
  ensures_remove h id := ensures_family (Lawful.ensures_remove h.of_mk id) fun _ _ _ k => ⟨k.1.family, k.2⟩
  ensures_release {_ c} h := ensures_family (Lawful.ensures_release (c := c.2) h) fun _ _ _ k => k

end
end Policy

namespace Tier
open Policy

instance lawful : (d : Nat) → Lawful (Tier d)
  | 0 => inferInstanceAs (Lawful Lru)
  | d + 1 =>
    letI := lawful d
    inferInstanceAs (Lawful (Lru ⊕ (Σ top, Segmented (Tier d) top)))

theorem leaves_eq : {d : Nat} → (t : Tier d) → Policy.leaves t = t.leaves
  | 0, _ => rfl
  | _ + 1, .inl _ => rfl
  | d + 1, .inr ⟨_, s⟩ => by
    have ih : (Policy.leaves : Tier d → List Lru) = Tier.leaves := funext fun t => leaves_eq t
    change s.segments.toList.flatMap Policy.leaves = s.segments.toList.flatMap Tier.leaves
    rw [ih]

/-- What passes from a segmented cache to its segments holds of all tiers inside
a tier of which it holds. -/
theorem descend_induction {P : ∀ d, Tier d → Prop}
    (hP : ∀ {d top} (s : Segmented (Tier d) top), P (d + 1) (.ofSegmented s) →
      ∀ i, P d (s.segment i))
    {d e : Nat} {t : Tier d} {s : Tier e} (path : List Nat) (ht : P d t) (h : t.descend path = some ⟨e, s⟩) :
    P e s := by
  induction path generalizing d with
  | nil =>
    rw [descend] at h
    obtain ⟨rfl, hs⟩ := Sigma.mk.inj (Option.some.inj h)
    rwa [← eq_of_heq hs]
  | cons i rest ih =>
    cases d with
    | zero => cases h
    | succ d =>
      cases t with
      | inl c => cases h
      | inr t =>
        rw [descend] at h
        split at h
        · exact ih (hP t.2 ht _) h
        · cases h

end Tier
end SegmentedCache
