import SegmentedCache.Proofs.Segmented.Peeking
import SegmentedCache.Proofs.Tier.Conserving

/-!
# Peeks at any depth

By recursion on the depth, a peek into a tier leaves the tier and the whole store as they
are, whatever was written to the indexes before. It answers what a lookup with update and
a request would answer then. So a run can do without its peeks, and nobody can tell.
-/
namespace SegmentedCache

namespace Policy
open SegmentedCache.Action
variable {C D I : Type} {F : I → Type}

instance [Policy C] [Policy D] [Peeking C] [Peeking D] : Peeking (C ⊕ D) where
  peek st := Sum.elim (peek st) (peek st)
  peek_eq_miss_iff
    | st, .inl c => Peeking.peek_eq_miss_iff st c
    | st, .inr d => Peeking.peek_eq_miss_iff st d
  yields_peek
    | st, .inl c, r => yields_either_inl.mpr ⟨c, Peeking.yields_peek st c r, rfl⟩
    | st, .inr d, r => yields_either_inr.mpr ⟨d, Peeking.yields_peek st d r, rfl⟩
  yields_miss {st c r} h := by
    cases c with
    | inl c => exact yields_either_inl.mpr ⟨c, Peeking.yields_miss h, rfl⟩
    | inr d => exact yields_either_inr.mpr ⟨d, Peeking.yields_miss h, rfl⟩
  eq_peek_of_check {st st' c c' r found} hy := by
    cases c with
    | inl c =>
      obtain ⟨c', hc, rfl⟩ := yields_either_inl.mp hy
      exact Peeking.eq_peek_of_check hc
    | inr d =>
      obtain ⟨d', hd, rfl⟩ := yields_either_inr.mp hy
      exact Peeking.eq_peek_of_check hd
  eq_peek_of_serve {st st' c c' r found} hy := by
    cases c with
    | inl c =>
      obtain ⟨c', hc, rfl⟩ := yields_either_inl.mp hy
      exact Peeking.eq_peek_of_serve hc
    | inr d =>
      obtain ⟨d', hd, rfl⟩ := yields_either_inr.mp hy
      exact Peeking.eq_peek_of_serve hd

instance [∀ i, Policy (F i)] [∀ i, Peeking (F i)] : Peeking (Σ i, F i) where
  peek st c := peek st c.2
  peek_eq_miss_iff st c := Peeking.peek_eq_miss_iff st c.2
  yields_peek st c r := yields_family.mpr ⟨c.2, Peeking.yields_peek st c.2 r, rfl⟩
  yields_miss {_ c _} h := yields_family.mpr ⟨c.2, Peeking.yields_miss h, rfl⟩
  eq_peek_of_check hy := by
    obtain ⟨c', hc, rfl⟩ := yields_family.mp hy
    exact Peeking.eq_peek_of_check hc
  eq_peek_of_serve hy := by
    obtain ⟨c', hc, rfl⟩ := yields_family.mp hy
    exact Peeking.eq_peek_of_serve hc

end Policy

namespace Tier
open SegmentedCache.Action Policy

instance peeking : (d : Nat) → Peeking (Tier d)
  | 0 => inferInstanceAs (Peeking Lru)
  | d + 1 =>
    letI := peeking d
    inferInstanceAs (Peeking (Lru ⊕ (Σ top, Segmented (Tier d) top)))

/-- A peek changes nothing and answers what a lookup with update and a request answer,
unless they fault. Taken out of a run, peeks are missed by nobody. -/
theorem peek_invisible {d : Nat} (t : Tier d) (st : Store) (r : Request) :
    ∃ found, (check r false).Yields t st found t st ∧
      (∀ found' t' st', (check r true).Yields t st found' t' st' → found' = found) ∧
      (∀ found' t' st', (serve r).Yields t st found' t' st' → found' = found) ∧
      ∀ (α : Type) (turns : List (Turn α)),
        runAll (turns.filter fun turn => !turn.isPeek) t st =
          ((List.filter fun x => !x.1.isPeek) <$> runAll turns) t st :=
  ⟨peek st t r, Peeking.yields_peek st t r, fun _ _ _ hy => Peeking.eq_peek_of_check hy,
    fun _ _ _ hy => Peeking.eq_peek_of_serve hy, fun _ turns => by rw [runAll_filter]⟩

end Tier
end SegmentedCache
