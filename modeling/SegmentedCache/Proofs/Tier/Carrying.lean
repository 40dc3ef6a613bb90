import SegmentedCache.Proofs.Segmented.Carrying
import SegmentedCache.Proofs.Tier.Conserving

/-!
# Objects on the move at any depth

By recursion on the depth, every tier is carrying: whatever moves happen inside its
segments, at the levels of theirs and further down, what it finds afterwards goes back to
what it found before and to the requests that it admitted.
-/
namespace SegmentedCache

namespace Policy
open SegmentedCache.Action
variable {C D I : Type} {F : I → Type} {st st' : Store} {r : Request} {update : Bool}
variable {found : Lookup}

section
variable [Policy C] [Policy D] [Lawful C] [Lawful D] {c c' : C} {d d' : D}

theorem Looked.inl (h : Looked r update st c found c' st') :
    Looked r update st (Sum.inl c : C ⊕ D) found (.inl c') st' := by
  cases h with
  | unknown absent => exact .unknown absent
  | expired found id stale carries gone => exact .expired found id stale carries gone
  | hit found id alive carries => exact .hit found id alive carries

theorem Looked.inr (h : Looked r update st d found d' st') :
    Looked r update st (Sum.inr d : C ⊕ D) found (.inr d') st' := by
  cases h with
  | unknown absent => exact .unknown absent
  | expired found id stale carries gone => exact .expired found id stale carries gone
  | hit found id alive carries => exact .hit found id alive carries

instance [Carrying C] [Carrying D] : Carrying (C ⊕ D) where
  looked_check {_ _ c _ _ _ _} h hy := by
    cases c with
    | inl c =>
      obtain ⟨c', hc, rfl⟩ := yields_either_inl.mp hy
      exact (Carrying.looked_check h.of_inl hc).inl
    | inr d =>
      obtain ⟨d', hd, rfl⟩ := yields_either_inr.mp hy
      exact (Carrying.looked_check h.of_inr hd).inr
  lodged_insert {_ _ c _ _ _} h hy := by
    cases c with
    | inl c =>
      obtain ⟨c', hc, rfl⟩ := yields_either_inl.mp hy
      exact Carrying.lodged_insert (C := C) h.of_inl hc
    | inr d =>
      obtain ⟨d', hd, rfl⟩ := yields_either_inr.mp hy
      exact Carrying.lodged_insert (C := D) h.of_inr hd
  finds_evict {_ _ c _ _} h hy := by
    cases c with
    | inl c =>
      obtain ⟨c', hc, rfl⟩ := yields_either_inl.mp hy
      exact Carrying.finds_evict (C := C) h.of_inl hc
    | inr d =>
      obtain ⟨d', hd, rfl⟩ := yields_either_inr.mp hy
      exact Carrying.finds_evict (C := D) h.of_inr hd
  finds_remove {_ _ c _ _ _} h hy := by
    cases c with
    | inl c =>
      obtain ⟨c', hc, rfl⟩ := yields_either_inl.mp hy
      exact Carrying.finds_remove (C := C) h.of_inl hc
    | inr d =>
      obtain ⟨d', hd, rfl⟩ := yields_either_inr.mp hy
      exact Carrying.finds_remove (C := D) h.of_inr hd
  looked_serve {_ _ c _ _ _} h hy := by
    cases c with
    | inl c =>
      obtain ⟨c', hc, rfl⟩ := yields_either_inl.mp hy
      obtain ⟨c₁, st₁, hj, hsame, hsub⟩ := Carrying.looked_serve h.of_inl hc
      exact ⟨.inl c₁, st₁, hj.inl, hsame, hsub⟩
    | inr d =>
      obtain ⟨d', hd, rfl⟩ := yields_either_inr.mp hy
      obtain ⟨d₁, st₁, hj, hsame, hsub⟩ := Carrying.looked_serve h.of_inr hd
      exact ⟨.inr d₁, st₁, hj.inr, hsame, hsub⟩

end

section
variable [∀ i, Policy (F i)] [∀ i, Lawful (F i)] {i : I} {c c' : F i}

theorem Looked.family (h : Looked r update st c found c' st') :
    Looked r update st (⟨i, c⟩ : Σ i, F i) found ⟨i, c'⟩ st' := by
  cases h with
  | unknown absent => exact .unknown absent
  | expired found id stale carries gone => exact .expired found id stale carries gone
  | hit found id alive carries => exact .hit found id alive carries

instance [∀ i, Carrying (F i)] : Carrying (Σ i, F i) where
  looked_check h hy := by
    obtain ⟨c', hc, rfl⟩ := yields_family.mp hy
    exact (Carrying.looked_check h.of_mk hc).family
  lodged_insert h hy := by
    obtain ⟨c', hc, rfl⟩ := yields_family.mp hy
    exact Carrying.lodged_insert (C := F _) h.of_mk hc
  finds_evict h hy := by
    obtain ⟨c', hc, rfl⟩ := yields_family.mp hy
    exact Carrying.finds_evict (C := F _) h.of_mk hc
  finds_remove h hy := by
    obtain ⟨c', hc, rfl⟩ := yields_family.mp hy
    exact Carrying.finds_remove (C := F _) h.of_mk hc
  looked_serve h hy := by
    obtain ⟨c', hc, rfl⟩ := yields_family.mp hy
    obtain ⟨c₁, st₁, hj, hsame, hsub⟩ := Carrying.looked_serve h.of_mk hc
    exact ⟨⟨_, c₁⟩, st₁, hj.family, hsame, hsub⟩

end
end Policy

instance Tier.carrying : (d : Nat) → Policy.Carrying (Tier d)
  | 0 => inferInstanceAs (Policy.Carrying Lru)
  | d + 1 =>
    letI := carrying d
    inferInstanceAs (Policy.Carrying (Lru ⊕ (Σ top, Segmented (Tier d) top)))

end SegmentedCache
