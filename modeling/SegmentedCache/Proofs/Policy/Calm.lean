import SegmentedCache.Operation
import SegmentedCache.Proofs.Policy.Lawful

/-!
# Caches that are left to themselves

A cache is calm if it is sound, tidy and roomy, and would itself admit every
object that it stocks. A cache that is calm stays so as long as nobody else
writes to its indexes and no client inserts into it directly, since what a
lookup brings in has been found admissible. It stays sound and tidy, which is
called neat here, even if clients do insert.
-/
namespace SegmentedCache.Policy
open SegmentedCache.Action
variable {C : Type} [Policy C] [Lawful C] {st st' : Store} {c c' : C}

theorem ensures_perform (h : Sound st c) (op : Operation) :
    (perform op : Action C _).Ensures c st fun _ c' st' => Kept st c st' c' := by
  cases op with
  | serve r => exact ensures_map.mpr ((Lawful.ensures_serve h r).mono fun _ _ _ k => k.1)
  | check r update =>
    exact ensures_map.mpr ((Lawful.ensures_check h r update).mono fun _ _ _ k => k.1.toKept)
  | insert r => exact ensures_map.mpr ((Lawful.ensures_insert h r).mono fun _ _ _ k => k.1)
  | evict => exact ensures_map.mpr ((Lawful.ensures_evict h).mono fun _ _ _ k => k.1.toKept)
  | remove id =>
    exact ensures_map.mpr ((Lawful.ensures_remove h id).mono fun _ _ _ k => k.1.toKept)

theorem kept_performAll (h : Sound st c) {ops : List Operation} {responses : List Response}
    (hy : (performAll ops).Yields c st responses c' st') : Kept st c st' c' := by
  induction ops generalizing c st responses with
  | nil =>
    obtain ⟨-, rfl, rfl⟩ := yields_pure_iff.mp hy
    exact .refl h
  | cons op rest ih =>
    obtain ⟨response, c₁, st₁, hop, hy⟩ := yields_bind_iff.mp hy
    obtain ⟨others, c₂, st₂, hrest, hpure⟩ := yields_bind_iff.mp hy
    obtain ⟨-, rfl, rfl⟩ := yields_pure_iff.mp hpure
    have k := (ensures_perform h op).apply hop
    exact k.trans (ih k.toSound hrest)

/-- Every queued object is resident, as it is if nobody else writes to the indexes. -/
structure Neat (st : Store) (c : C) : Prop extends Sound st c where
  tidy : Tidy st c

theorem Neat.of_kept (h : Neat st c) (k : Kept st c st' c') : Neat st' c' :=
  ⟨k.toSound, k.tidy h.tidy⟩

structure Calm (st : Store) (c : C) : Prop extends Sound st c where
  tidy : Tidy st c
  roomy : Roomy c
  small : ∀ x ∈ stock st c, canAdmit c x.2

/-- A calm cache stays calm if what it did brought in nothing inadmissible. -/
theorem Calm.of_kept (h : Calm st c) (k : Kept st c st' c')
    (hs : stock st' c' ⊆ stock st c ∪ {x | canAdmit c x.2}) : Calm st' c' where
  toSound := k.toSound
  tidy := k.tidy h.tidy
  roomy := k.roomy h.roomy
  small x hx := by
    rw [k.canAdmit_eq]
    rcases hs hx with hx | hx
    · exact h.small x hx
    · exact hx

theorem Calm.shrinks (h : Calm st c) (k : Shrinks st c st' c') : Calm st' c' :=
  h.of_kept k.toKept (k.stock_subset.trans Set.subset_union_left)

theorem ensures_perform_calm (h : Calm st c) {op : Operation} (hop : ∀ r, op ≠ .insert r) :
    (perform op : Action C _).Ensures c st fun _ c' st' => Calm st' c' := by
  cases op with
  | serve r =>
    refine ensures_map.mpr ((Lawful.ensures_serve h.toSound r).mono fun _ c' st' k => ?_)
    refine h.of_kept k.1 (k.2.trans (Set.union_subset_union_right _ fun x hx => ?_))
    rw [hx.1]
    exact hx.2
  | check r update =>
    exact ensures_map.mpr ((Lawful.ensures_check h.toSound r update).mono fun _ _ _ k => h.shrinks k.1)
  | insert r => exact absurd rfl (hop r)
  | evict => exact ensures_map.mpr ((Lawful.ensures_evict h.toSound).mono fun _ _ _ k => h.shrinks k.1)
  | remove id =>
    exact ensures_map.mpr ((Lawful.ensures_remove h.toSound id).mono fun _ _ _ k => h.shrinks k.1)

end SegmentedCache.Policy
