import SegmentedCache.Proofs.Segmented.Ledger
import SegmentedCache.Proofs.Tier.Histories

/-!
# The ledger of a cache from its making on

The counters of a new tier are all zero. So a cache has no surplus when it is made,
and gets none as long as only ids that it does not hold are inserted: what entered
is cached or was counted on its way out.

This is said of least-recently-used caches and of segmented caches of such. A deeper
tier counts what it moves from segment to segment as insertions there.
-/
namespace SegmentedCache

namespace Policy
open SegmentedCache.Action
variable {C : Type} [Policy C]

/-- Whether an operation inserts an id that the cache holds already. -/
def replaces (st : Store) (c : C) : Operation → Bool
  | .insert r => contains st c r.id
  | _ => false

/-- The states that a cache gets into by operations none of which replaces an object. -/
inductive Fed (c : C) (st : Store) : C → Store → Prop
  | start : Fed c st c st
  | performed {c' c'' : C} {st' st'' : Store} {op : Operation} {response : Response}
    (h : Fed c st c' st') (hnew : replaces st' c' op = false)
    (hy : (perform op).Yields c' st' response c'' st'') : Fed c st c'' st''

theorem Fed.kept [Lawful C] {c c' : C} {st st' : Store} (h : Fed c st c' st') (hs : Sound st c) :
    Kept st c st' c' := by
  induction h with
  | start => exact Kept.refl hs
  | performed _ _ hy ih => exact ih.trans ((ensures_perform ih.toSound _).apply hy)

/-- Performs operations, up to one that would fault or replace an object. -/
def feed : List Operation → C × Store → C × Store
  | [], x => x
  | op :: rest, x =>
    if replaces x.2 x.1 op then x
    else
      match perform op x.1 x.2 with
      | .ok (_, c) st => feed rest (c, st)
      | .error _ _ => x

theorem Fed.feed {c : C} {st : Store} {x : C × Store} (h : Fed c st x.1 x.2)
    (ops : List Operation) : Fed c st (feed ops x).1 (feed ops x).2 := by
  induction ops generalizing x with
  | nil => exact h
  | cons op rest ih =>
    unfold Policy.feed
    split
    next => exact h
    next hnew =>
      split
      next response c' st' hy => exact ih (h.performed (Bool.not_eq_true _ ▸ hnew) hy)
      next => exact h

end Policy

namespace Tier
open SegmentedCache.Action Policy
variable {st st' : Store} {t t' : Tier 1} {op : Operation} {response : Response}

/-- No counter of the tier has counted anything. -/
def Unspent : {d : Nat} → Tier d → Prop
  | 0, c => Lru.counters c = .ofCapacity (Lru.params c).capacity
  | _ + 1, .inl c => c.counters = .ofCapacity c.params.capacity
  | _ + 1, .inr ⟨top, s⟩ =>
    s.counters = .ofCapacity s.params.capacity (top + 1) ∧ ∀ i, Unspent (s.segment i)

/-- Every object that entered is accounted for. -/
def Balanced : Tier 1 → Prop
  | .inl c => c.surplus = 0
  | .inr ⟨_, s⟩ => Segmented.surplus s = 0

theorem balanced_of_new {st₀ : Store} (hnew : Lru.New st₀ st (Policy.leaves t)) (h : t.Unspent) :
    t.Balanced := by
  cases t with
  | inl c => exact Lru.surplus_of_new (hnew.unused c (List.mem_singleton_self c)).queue h
  | inr t =>
    obtain ⟨top, s⟩ := t
    refine Segmented.surplus_of_new h.1 fun i => ⟨(hnew.unused _ ?_).queue, h.2 i⟩
    exact Segmented.mem_leaves_iff.mpr ⟨i, List.mem_singleton_self _⟩

/-- An operation that replaces nothing keeps the balance. -/
theorem Balanced.perform (h : t.Balanced) (hneat : Neat st t)
    (hnew : ∀ r, op = .insert r → r.id ∉ held st t)
    (hy : (Policy.perform op).Yields t st response t' st') : t'.Balanced := by
  have hsize : ∀ x : UInt64, x.toNat ≤ UInt64.size := fun x => x.toNat_lt_size.le
  have hbytes : op.bytes ≤ UInt64.size := by
    cases op <;> first | exact hsize _ | exact Nat.zero_le _
  cases t with
  | inl c =>
    rw [show (Policy.perform op : Action (Tier 1) Response) = _ from perform_either op] at hy
    obtain ⟨c', hc, rfl⟩ := yields_either_inl.mp hy
    have hruns := Lru.runs_perform (Lru.sound_iff.mp hneat.toSound.of_inl) hbytes
    exact (hruns.apply hc hneat.tidy hnew).trans h
  | inr t =>
    obtain ⟨top, s⟩ := t
    rw [show (Policy.perform op : Action (Tier 1) Response) = _ from perform_either op] at hy
    obtain ⟨x, hx, rfl⟩ := yields_either_inr.mp hy
    rw [show (Policy.perform op : Action (Σ top, Segmented (Tier 0) top) Response) = _ from
      perform_family op] at hx
    obtain ⟨s', hs, rfl⟩ := yields_family.mp hx
    obtain ⟨k, hcosts, hk⟩ := Segmented.costs_perform (s := (s : Segmented Lru top))
      ⟨hneat.toSound.of_inr.of_mk, fun x _ => hsize x.2⟩ hbytes
    obtain ⟨-, hmoved⟩ := hcosts.apply hs
    rw [hk hnew, add_zero] at hmoved
    exact (hmoved hneat.tidy).2.trans h

theorem Balanced.of_fed (h : t.Balanced) (hneat : Neat st t) (hfed : Fed t st t' st') :
    t'.Balanced := by
  induction hfed with
  | start => exact h
  | performed hfed hnew hy ih =>
    refine ih.perform (hneat.of_kept (hfed.kept hneat.toSound)) ?_ hy
    rintro r rfl hm
    rw [← Lawful.contains_iff] at hm
    cases hm.symm.trans hnew

end Tier

namespace Blueprint
open Policy
variable {p : Params} {st₀ st st' : Store}

theorem leads_build_unspent {d : Nat} (b : Blueprint d) (p : Params) (st : Store) :
    (b.build p).Leads st fun t st' => Lru.New st st' (leaves t) ∧ t.Unspent := by
  apply leads_build_of (P := fun _ _ t => t.Unspent)
  case lru =>
    intro d adjust vouched p c hc
    have hcounters : c.counters = .ofCapacity c.params.capacity := by
      rw [hc.counters, hc.params]
    cases d with
    | zero => exact hcounters
    | succ d => exact hcounters
  case segmented =>
    intro d adjust vouched count plan p top s hs hparts
    refine ⟨?_, fun i => (Segmented.segment_of_forall₂ hparts i).2⟩
    rw [hs.counters, hs.params]

/-- As long as no id is inserted that is held already, every object that entered a
cache is in it or was counted once: as evicted, removed or expired. -/
theorem insertions_accounted {b : Blueprint 1} {t t' : Tier 1}
    (hbuild : (b.build p).run st₀ = .ok (.ok t) st) (h : Fed t st t' st') :
    (∀ c : Lru, t' = .ofLru c → c.counters.core.insertions.toNat =
      Policy.count c + c.counters.core.evictions.toNat + c.counters.removals.toNat +
        c.counters.expiredRemovals.toNat) ∧
    ∀ (top : Nat) (s : Segmented Lru top), t' = .ofSegmented (d := 0) s →
      s.counters.core.insertions.toNat = Policy.count s + s.counters.core.evictions.toNat +
        s.counters.removals.toNat + ∑ i, (s.segment i).counters.expiredRemovals.toNat := by
  obtain ⟨-, hbuilt⟩ := b.leads_build_unspent p st₀ _ _ hbuild
  obtain ⟨hnew, hunspent⟩ := hbuilt t rfl
  have hbalanced : t'.Balanced := (Tier.balanced_of_new hnew hunspent).of_fed (.of_new hnew) h
  refine ⟨?_, ?_⟩
  · rintro c rfl
    exact Lru.surplus_eq_zero_iff.mp hbalanced
  · rintro top s rfl
    exact Segmented.surplus_eq_zero_iff.mp hbalanced

/-! ## Histories that compute -/

/-- Builds a cache in an empty store and performs operations, up to one that would
fault or replace an object. -/
def feeding {d : Nat} (b : Blueprint d) (p : Params) (ops : List Operation) :
    Option ((Tier d × Store) × (Tier d × Store)) :=
  match (b.build p).run {} with
  | .ok (.ok t) st => some ((t, st), feed ops (t, st))
  | _ => none

theorem fed_of_feeding {d : Nat} {b : Blueprint d} {ops : List Operation} {x y : Tier d × Store}
    (h : feeding b p ops = some (x, y)) :
    (b.build p).run {} = .ok (.ok x.1) x.2 ∧ Fed x.1 x.2 y.1 y.2 := by
  unfold feeding at h
  split at h
  next t st hbuild =>
    obtain ⟨rfl, rfl⟩ := Prod.mk.inj (Option.some.inj h)
    exact ⟨hbuild, Fed.start.feed ops⟩
  next => cases h

/-- The coldest segment charges more for an object than the hottest does. -/
def steep : Blueprint 1 :=
  .segmented {} false 2 fun i => .lru (if i = 0 then { overhead := some 3 } else {}) false

/-- Of five objects the first was dropped on its way down when the second was promoted,
the third expired, the fourth was evicted and the fifth removed. -/
theorem insertions_accounted_steep :
    ∃ (t t' : Tier 1) (st st' : Store) (s : Segmented Lru 1),
      (steep.build ⟨11, 0, 0⟩).run {} = .ok (.ok t) st ∧ Fed t st t' st' ∧
      t' = .ofSegmented (d := 0) s ∧ s.counters.promotions = 1 ∧ s.counters.coolingDrops = 1 ∧
      s.counters.core.insertions = 5 ∧
      s.counters.core.insertions.toNat = Policy.count s + s.counters.core.evictions.toNat +
        s.counters.removals.toNat + ∑ i, (s.segment i).counters.expiredRemovals.toNat := by
  have h : (feeding steep ⟨11, 0, 0⟩ [.insert ⟨1, 5, 0, none⟩, .insert ⟨2, 2, 0, none⟩,
      .serve ⟨2, 2, 0, none⟩, .insert ⟨3, 1, 0, some 5⟩, .check ⟨3, 1, 9, none⟩ true,
      .insert ⟨4, 3, 9, none⟩, .evict, .insert ⟨5, 1, 9, none⟩, .remove 5]).any (fun x =>
        match x.2.1 with
        | .inl _ => false
        | .inr ⟨1, s⟩ => s.counters.promotions == 1 && s.counters.coolingDrops == 1 &&
          s.counters.core.insertions == 5
        | .inr _ => false) = true := by
    decide +kernel
  obtain ⟨⟨x, y⟩, hfeeding, hcheck⟩ := (Option.any_eq_true _ _).mp h
  obtain ⟨hbuild, hfed⟩ := fed_of_feeding hfeeding
  dsimp only at hcheck
  split at hcheck
  next => cases hcheck
  next s hs =>
    simp only [Bool.and_eq_true, beq_iff_eq] at hcheck
    obtain ⟨⟨hpromotions, hdrops⟩, hinsertions⟩ := hcheck
    exact ⟨x.1, y.1, x.2, y.2, s, hbuild, hfed, hs, hpromotions, hdrops, hinsertions,
      (insertions_accounted hbuild hfed).2 1 s hs⟩
  next => cases hcheck

end Blueprint
end SegmentedCache
