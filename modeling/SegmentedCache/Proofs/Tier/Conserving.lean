import SegmentedCache.Proofs.Lru.Conserving
import SegmentedCache.Proofs.Segmented.Conserving
import SegmentedCache.Proofs.Tier.Lawful

/-!
# Tiers are conserving

A choice between two conserving policies is conserving, and so is a family of
them. By recursion on the depth, no tier that is left to itself loses an object
on a move, whatever kinds of caches it is made of.
-/
namespace SegmentedCache

namespace Action
variable {C D I α β : Type} {F : I → Type} {st st' : Store} {a : α}

theorem yields_either_inl {f : Action C α} {g : Action D α} {c : C} {x : C ⊕ D} :
    (either f g).Yields (.inl c) st a x st' ↔ ∃ c', f.Yields c st a c' st' ∧ x = .inl c' := by
  unfold Yields
  rw [either_apply_inl]
  cases f c st with
  | ok p st₁ =>
    obtain ⟨b, d⟩ := p
    simp only [EStateM.Result.ok.injEq, Prod.mk.injEq]
    grind
  | error e st₁ => simp

theorem yields_either_inr {f : Action C α} {g : Action D α} {d : D} {x : C ⊕ D} :
    (either f g).Yields (.inr d) st a x st' ↔ ∃ d', g.Yields d st a d' st' ∧ x = .inr d' := by
  unfold Yields
  rw [either_apply_inr]
  cases g d st with
  | ok p st₁ =>
    obtain ⟨b, d⟩ := p
    simp only [EStateM.Result.ok.injEq, Prod.mk.injEq]
    grind
  | error e st₁ => simp

theorem yields_family {f : ∀ i, Action (F i) α} {i : I} {c : F i} {x : Σ i, F i} :
    (family f).Yields ⟨i, c⟩ st a x st' ↔ ∃ c', (f i).Yields c st a c' st' ∧ x = ⟨i, c'⟩ := by
  unfold Yields
  rw [family_apply]
  cases f i c st with
  | ok p st₁ =>
    obtain ⟨b, d⟩ := p
    simp only [EStateM.Result.ok.injEq, Prod.mk.injEq]
    grind
  | error e st₁ => simp

theorem map_either (g : α → β) (x : Action C α) (y : Action D α) :
    g <$> either x y = either (g <$> x) (g <$> y) := by
  funext c st
  cases c with
  | inl c =>
    rw [map_apply, either_apply_inl, either_apply_inl, map_apply]
    cases x c st <;> rfl
  | inr d =>
    rw [map_apply, either_apply_inr, either_apply_inr, map_apply]
    cases y d st <;> rfl

theorem map_family (g : α → β) (f : ∀ i, Action (F i) α) :
    g <$> family f = family fun i => g <$> f i := by
  funext c st
  obtain ⟨i, c⟩ := c
  rw [map_apply, family_apply, family_apply, map_apply]
  cases f i c st <;> rfl

end Action

namespace Policy
open SegmentedCache.Action
variable {C D I : Type} {F : I → Type} {st st' : Store}

section
variable [Policy C] [Policy D] [∀ i, Policy (F i)]

theorem perform_either (op : Operation) :
    (perform op : Action (C ⊕ D) Response) = either (perform op) (perform op) := by
  cases op <;> exact map_either _ _ _

theorem perform_family (op : Operation) :
    (perform op : Action (Σ i, F i) Response) = family fun _ => perform op := by
  cases op <;> exact map_family _ _

end

section
variable [Policy C] [Policy D] [Tallied C] [Tallied D]

instance : Tallied (C ⊕ D) where
  count_evict {c c' st st' victim} hy := by
    cases c with
    | inl c =>
      obtain ⟨c', hc, rfl⟩ := yields_either_inl.mp hy
      exact Counted.count_evict (c := c) hc
    | inr d =>
      obtain ⟨d', hd, rfl⟩ := yields_either_inr.mp hy
      exact Counted.count_evict (c := d) hd
  count_insert {c c' st st' r o} hy := by
    cases c with
    | inl c =>
      obtain ⟨c', hc, rfl⟩ := yields_either_inl.mp hy
      exact Counted.count_insert (c := c) hc
    | inr d =>
      obtain ⟨d', hd, rfl⟩ := yields_either_inr.mp hy
      exact Counted.count_insert (c := d) hd
  adds_remove id c st o c' st' hy := by
    cases c with
    | inl c =>
      obtain ⟨c', hc, rfl⟩ := yields_either_inl.mp hy
      exact Tallied.adds_remove (C := C) id hc
    | inr d =>
      obtain ⟨d', hd, rfl⟩ := yields_either_inr.mp hy
      exact Tallied.adds_remove (C := D) id hd

end

instance [∀ i, Policy (F i)] [∀ i, Tallied (F i)] : Tallied (Σ i, F i) where
  count_evict {c c' st st' victim} hy := by
    obtain ⟨c', hc, rfl⟩ := yields_family.mp hy
    exact Counted.count_evict (c := c.2) hc
  count_insert {c c' st st' r o} hy := by
    obtain ⟨c', hc, rfl⟩ := yields_family.mp hy
    exact Counted.count_insert (c := c.2) hc
  adds_remove id c st o c' st' hy := by
    obtain ⟨c', hc, rfl⟩ := yields_family.mp hy
    exact Tallied.adds_remove (C := F c.1) id hc

instance [Recorded C] [Recorded D] : Recorded (C ⊕ D) where
  Intact := Sum.elim Intact Intact

instance [∀ i, Recorded (F i)] : Recorded (Σ i, F i) where
  Intact c := Intact c.2

section
variable [Policy C] [Policy D] [Lawful C] [Lawful D] {c c' : C} {d d' : D}

theorem Steady.of_inl (h : Steady st (Sum.inl c : C ⊕ D)) : Steady st c :=
  ⟨⟨h.toSound.of_inl, h.tidy, h.roomy, h.small⟩, h.fits⟩

theorem Steady.of_inr (h : Steady st (Sum.inr d : C ⊕ D)) : Steady st d :=
  ⟨⟨h.toSound.of_inr, h.tidy, h.roomy, h.small⟩, h.fits⟩

omit [Policy C] [Policy D] [Lawful C] [Lawful D] in
theorem Conserves.inl [Recorded C] [Recorded D] (k : Conserves st c st' c') :
    Conserves st (Sum.inl c : C ⊕ D) st' (.inl c') := ⟨k.losses, k.intact⟩

omit [Policy C] [Policy D] [Lawful C] [Lawful D] in
theorem Conserves.inr [Recorded C] [Recorded D] (k : Conserves st d st' d') :
    Conserves st (Sum.inr d : C ⊕ D) st' (.inr d') := ⟨k.losses, k.intact⟩

instance [Conserving C] [Conserving D] : Conserving (C ⊕ D) where
  victim?_eq_none {st c} h hc := by
    cases c with
    | inl c => exact Conserving.victim?_eq_none (c := c) h.of_inl hc
    | inr d => exact Conserving.victim?_eq_none (c := d) h.of_inr hc
  limit_le {c} hf hr := by
    cases c with
    | inl c => exact Conserving.limit_le (c := c) hf hr
    | inr d => exact Conserving.limit_le (c := d) hf hr
  spare {st c} h hv := by
    cases c with
    | inl c => exact Conserving.spare (c := c) h.of_inl hv
    | inr d => exact Conserving.spare (c := d) h.of_inr hv
  conserves_check {st st' c c' r update found} h hy := by
    cases c with
    | inl c =>
      obtain ⟨c', hc, rfl⟩ := yields_either_inl.mp hy
      exact (Conserving.conserves_check h.of_inl hc).imp_left Conserves.inl
    | inr d =>
      obtain ⟨d', hd, rfl⟩ := yields_either_inr.mp hy
      exact (Conserving.conserves_check h.of_inr hd).imp_left Conserves.inr
  conserves_serve {st st' c c' r found} h hy := by
    cases c with
    | inl c =>
      obtain ⟨c', hc, rfl⟩ := yields_either_inl.mp hy
      exact (Conserving.conserves_serve h.of_inl hc).imp_left Conserves.inl
    | inr d =>
      obtain ⟨d', hd, rfl⟩ := yields_either_inr.mp hy
      exact (Conserving.conserves_serve h.of_inr hd).imp_left Conserves.inr
  conserves_insert {st st' c c' r o} h hid ha hy := by
    cases c with
    | inl c =>
      obtain ⟨c', hc, rfl⟩ := yields_either_inl.mp hy
      exact (Conserving.conserves_insert h.of_inl hid ha hc).imp_left Conserves.inl
    | inr d =>
      obtain ⟨d', hd, rfl⟩ := yields_either_inr.mp hy
      exact (Conserving.conserves_insert h.of_inr hid ha hd).imp_left Conserves.inr
  conserves_evict {st st' c c' victim} h hy := by
    cases c with
    | inl c =>
      obtain ⟨c', hc, rfl⟩ := yields_either_inl.mp hy
      exact (Conserving.conserves_evict h.of_inl hc).imp_left Conserves.inl
    | inr d =>
      obtain ⟨d', hd, rfl⟩ := yields_either_inr.mp hy
      exact (Conserving.conserves_evict h.of_inr hd).imp_left Conserves.inr
  conserves_remove {st st' c c' id removed} h hy := by
    cases c with
    | inl c =>
      obtain ⟨c', hc, rfl⟩ := yields_either_inl.mp hy
      exact (Conserving.conserves_remove h.of_inl hc).imp_left Conserves.inl
    | inr d =>
      obtain ⟨d', hd, rfl⟩ := yields_either_inr.mp hy
      exact (Conserving.conserves_remove h.of_inr hd).imp_left Conserves.inr

end

section
variable [∀ i, Policy (F i)] [∀ i, Lawful (F i)] {i : I} {c c' : F i}

theorem Steady.of_mk (h : Steady st (⟨i, c⟩ : Σ i, F i)) : Steady st c :=
  ⟨⟨h.toSound.of_mk, h.tidy, h.roomy, h.small⟩, h.fits⟩

omit [∀ i, Policy (F i)] [∀ i, Lawful (F i)] in
theorem Conserves.family [∀ i, Recorded (F i)] (k : Conserves st c st' c') :
    Conserves st (⟨i, c⟩ : Σ i, F i) st' ⟨i, c'⟩ := ⟨k.losses, k.intact⟩

instance [∀ i, Conserving (F i)] : Conserving (Σ i, F i) where
  victim?_eq_none {_ c} h hc := Conserving.victim?_eq_none (c := c.2) h.of_mk hc
  limit_le {c} hf hr := Conserving.limit_le (c := c.2) hf hr
  spare {_ c} h hv := Conserving.spare (c := c.2) h.of_mk hv
  conserves_check h hy := by
    obtain ⟨c', hc, rfl⟩ := yields_family.mp hy
    exact (Conserving.conserves_check h.of_mk hc).imp_left Conserves.family
  conserves_serve h hy := by
    obtain ⟨c', hc, rfl⟩ := yields_family.mp hy
    exact (Conserving.conserves_serve h.of_mk hc).imp_left Conserves.family
  conserves_insert h hid ha hy := by
    obtain ⟨c', hc, rfl⟩ := yields_family.mp hy
    exact (Conserving.conserves_insert h.of_mk hid ha hc).imp_left Conserves.family
  conserves_evict h hy := by
    obtain ⟨c', hc, rfl⟩ := yields_family.mp hy
    exact (Conserving.conserves_evict h.of_mk hc).imp_left Conserves.family
  conserves_remove h hy := by
    obtain ⟨c', hc, rfl⟩ := yields_family.mp hy
    exact (Conserving.conserves_remove h.of_mk hc).imp_left Conserves.family

end
end Policy

namespace Tier
open Policy

instance tallied : (d : Nat) → Tallied (Tier d)
  | 0 => inferInstanceAs (Tallied Lru)
  | d + 1 =>
    letI := tallied d
    inferInstanceAs (Tallied (Lru ⊕ (Σ top, Segmented (Tier d) top)))

instance conserving : (d : Nat) → Conserving (Tier d)
  | 0 => inferInstanceAs (Conserving Lru)
  | d + 1 =>
    letI := conserving d
    inferInstanceAs (Conserving (Lru ⊕ (Σ top, Segmented (Tier d) top)))

end Tier
end SegmentedCache
