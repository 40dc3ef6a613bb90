import SegmentedCache.Proofs.Segmented.Promise
import SegmentedCache.Proofs.Tier.Histories

/-!
# Promises at any depth

A tier that nobody else writes to keeps its promise of room if some leaf has the room
that is asked for: at every segmented cache on the way down, the first segment that
says it has room can be relied on. Where the room is spread over several leaves, the
promise is broken.
-/
namespace SegmentedCache

namespace Policy
open SegmentedCache.Action
variable {C D I : Type} {F : I → Type}

instance [Gauged C] [Gauged D] : Gauged (C ⊕ D) where
  Reliable := Sum.elim Reliable Reliable
  Spared M := Sum.elim (Spared M) (Spared M)

instance [∀ i, Gauged (F i)] : Gauged (Σ i, F i) where
  Reliable c size := Reliable c.2 size
  Spared M c := Spared M c.2

instance [Policy C] [Policy D] [Lawful C] [Lawful D] [Promising C] [Promising D] :
    Promising (C ⊕ D) where
  takes {_ c _} h hid hroom hreliable hspared := by
    cases c with
    | inl c =>
      obtain ⟨o, c', st', hy, k⟩ :=
        Promising.takes (c := c) ⟨h.toSound.of_inl, h.tidy⟩ hid hroom hreliable hspared
      exact ⟨o, .inl c', st', yields_either_inl.mpr ⟨c', hy, rfl⟩, k⟩
    | inr d =>
      obtain ⟨o, d', st', hy, k⟩ :=
        Promising.takes (c := d) ⟨h.toSound.of_inr, h.tidy⟩ hid hroom hreliable hspared
      exact ⟨o, .inr d', st', yields_either_inr.mpr ⟨d', hy, rfl⟩, k⟩

instance [∀ i, Policy (F i)] [∀ i, Lawful (F i)] [∀ i, Promising (F i)] : Promising (Σ i, F i) where
  takes {_ c _} h hid hroom hreliable hspared := by
    obtain ⟨o, c', st', hy, k⟩ :=
      Promising.takes (c := c.2) ⟨h.toSound.of_mk, h.tidy⟩ hid hroom hreliable hspared
    exact ⟨o, ⟨c.1, c'⟩, st', yields_family.mpr ⟨c', hy, rfl⟩, k⟩

end Policy

namespace Tier
open Policy

instance promising : (d : Nat) → Promising (Tier d)
  | 0 => inferInstanceAs (Promising Lru)
  | d + 1 =>
    letI := promising d
    inferInstanceAs (Promising (Lru ⊕ (Σ top, Segmented (Tier d) top)))

end Tier

namespace Blueprint
open Policy
variable {d : Nat} {b : Blueprint d} {p : Params} {st₀ st st' : Store} {t t' : Tier d}
variable {ops : List Operation} {responses : List Response} {r : Request}

/-- Where a tier says that it has room, can be relied on, and has headroom in its
counters, a new object is inserted at the front of one leaf, and all that was cached
still is. A least-recently-used cache below the largest capacity can be relied on. -/
theorem keeps_promise (hbuild : (b.build p).run st₀ = .ok (.ok t) st)
    (hrun : (performAll ops).Yields t st responses t' st') (hid : contains st' t' r.id = false)
    (hroom : hasRoom t' r.size = .ok true) :
    (Reliable t' r.size = true → Spared r.size.toNat t' = true →
      ∃ o t'' st'', (Policy.insert r).Yields t' st' (some o) t'' st'' ∧ Lru.Made r o ∧
        Gains o t'.leaves t''.leaves ∧
        ∀ id, contains st'' t'' id = true ↔ contains st' t' id = true ∨ id = r.id) ∧
    ∀ c : Lru, t' = .ofLru c → c.params.capacity ≠ Word.largest → Reliable t' r.size = true := by
  obtain ⟨-, hbuilt⟩ := b.leads_build p st₀ _ _ hbuild
  have hnew : Neat st t := .of_new (hbuilt t rfl).1
  have hneat : Neat st' t' := hnew.of_kept (kept_performAll hnew.toSound hrun)
  have hnot : r.id ∉ held st' t' := by rwa [← Lawful.contains_iff, Bool.not_eq_true]
  constructor
  case left =>
    intro hreliable hspared
    obtain ⟨o, t'', st'', hy, hmade, hgains⟩ := Promising.takes hneat hnot hroom hreliable hspared
    have hneat' : Neat st'' t'' :=
      hneat.of_kept ((Lawful.ensures_insert hneat.toSound r).apply hy).1
    refine ⟨o, t'', st'', hy, hmade, ?_, fun id => ?_⟩
    · rwa [← Tier.leaves_eq, ← Tier.leaves_eq]
    · rw [Lawful.contains_iff, Lawful.contains_iff, hgains.mem_held_iff hneat hneat', hmade.id]
  case right =>
    rintro c rfl hbelow
    cases d with
    | zero => exact Lru.reliable_of_hasRoom hbelow hroom
    | succ d => exact Lru.reliable_of_hasRoom hbelow hroom

/-- The coldest segment is full, and the other takes the object into its own coldest
one. -/
theorem keeps_promise_lopsided :
    ∃ (t t' t'' : Tier 2) (st st' st'' : Store) (responses : List Response) (o : CacheObject),
      (lopsided.build ⟨20, 1, 0⟩).run {} = .ok (.ok t) st ∧
      (performAll [.insert ⟨1, 8, 0, none⟩]).Yields t st responses t' st' ∧
      hasRoom t' 3 = .ok true ∧ (Policy.insert ⟨2, 3, 0, none⟩).Yields t' st' (some o) t'' st'' ∧
      Gains o t'.leaves t''.leaves ∧ contains st'' t'' 1 = true ∧ contains st'' t'' 2 = true := by
  have h : (trial lopsided ⟨20, 1, 0⟩ [.insert ⟨1, 8, 0, none⟩]).any (fun x =>
        contains x.2.2 x.2.1 1 && !contains x.2.2 x.2.1 2 && decide (hasRoom x.2.1 3 = .ok true) &&
          Reliable x.2.1 3 && Spared 3 x.2.1) = true := by
    decide +kernel
  obtain ⟨⟨x, y⟩, htrial, hcheck⟩ := (Option.any_eq_true _ _).mp h
  obtain ⟨hbuild, responses, hrun⟩ := build_of_trial htrial
  simp only [Bool.and_eq_true, Bool.not_eq_true', decide_eq_true_eq] at hcheck
  obtain ⟨⟨⟨⟨hfirst, hid⟩, hroom⟩, hreliable⟩, hspared⟩ := hcheck
  obtain ⟨o, t'', st'', hy, -, hgains, hcontains⟩ :=
    (keeps_promise (r := ⟨2, 3, 0, none⟩) hbuild hrun hid hroom).1 hreliable hspared
  exact ⟨x.1, y.1, t'', x.2, y.2, st'', responses, o, hbuild, hrun, hroom, hy, hgains,
    (hcontains 1).mpr (.inl hfirst), (hcontains 2).mpr (.inr rfl)⟩

/-- Each of two segments has two bytes left. The four are promised for one object, and
another is evicted for it. -/
theorem promise_broken :
    ∃ (t t' t'' : Tier 1) (st st' st'' : Store) (responses : List Response) (o : CacheObject),
      ((Blueprint.ofLrus {} false 2 : Blueprint 1).build ⟨10, 0, 0⟩).run {} = .ok (.ok t) st ∧
      (performAll [.insert ⟨1, 3, 0, none⟩, .serve ⟨1, 3, 0, none⟩,
        .insert ⟨2, 3, 0, none⟩]).Yields t st responses t' st' ∧
      hasRoom t' 4 = .ok true ∧ contains st' t' 3 = false ∧
      (Policy.insert ⟨3, 4, 0, none⟩).Yields t' st' (some o) t'' st'' ∧
      contains st' t' 2 = true ∧ contains st'' t'' 2 = false := by
  have h : (trial (.ofLrus {} false 2 : Blueprint 1) ⟨10, 0, 0⟩ [.insert ⟨1, 3, 0, none⟩,
      .serve ⟨1, 3, 0, none⟩, .insert ⟨2, 3, 0, none⟩]).any (fun x =>
        match Policy.insert ⟨3, 4, 0, none⟩ x.2.1 x.2.2 with
        | .ok (res, t) st => decide (hasRoom x.2.1 4 = .ok true) && !contains x.2.2 x.2.1 3 &&
          contains x.2.2 x.2.1 2 && !contains st t 2 && res.isSome
        | .error _ _ => false) = true := by
    decide +kernel
  obtain ⟨⟨x, y⟩, htrial, hcheck⟩ := (Option.any_eq_true _ _).mp h
  obtain ⟨hbuild, responses, hrun⟩ := build_of_trial htrial
  dsimp only at hcheck
  split at hcheck
  next res t'' st'' hinsert =>
    simp only [Bool.and_eq_true, Bool.not_eq_true', decide_eq_true_eq] at hcheck
    obtain ⟨⟨⟨⟨hroom, hid⟩, hbefore⟩, hafter⟩, hres⟩ := hcheck
    obtain ⟨o, rfl⟩ := Option.isSome_iff_exists.mp hres
    exact ⟨x.1, y.1, t'', x.2, y.2, st'', responses, o, hbuild, hrun, hroom, hid, hinsert, hbefore,
      hafter⟩
  next => cases hcheck

end Blueprint
end SegmentedCache
