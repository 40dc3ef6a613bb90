import SegmentedCache.Proofs.Segmented.Screening
import SegmentedCache.Proofs.Tier.Histories

/-!
# Refusals at any depth

A tier of segmented caches may refuse an object late, when a segmented cache inside
is narrower than the tier itself. As long as none is, a refused insertion leaves
every leaf of the tier as it was.
-/
namespace SegmentedCache

namespace Policy
open SegmentedCache.Action
variable {C D I : Type} {F : I → Type}

instance [Screened C] [Screened D] : Screened (C ⊕ D) where
  Bars := Sum.elim Screened.Bars Screened.Bars
  Open := Sum.elim Screened.Open Screened.Open

instance [∀ i, Screened (F i)] : Screened (Σ i, F i) where
  Bars c size := Screened.Bars c.2 size
  Open c size := Screened.Open c.2 size

instance [Policy C] [Policy D] [Screening C] [Screening D] : Screening (C ⊕ D) where
  refuses {c _ _ _ _ _} hbars hy := by
    cases c with
    | inl c =>
      obtain ⟨c', hc, rfl⟩ := yields_either_inl.mp hy
      obtain ⟨ho, rfl, hst⟩ := Screening.refuses (c := c) hbars hc
      exact ⟨ho, rfl, hst⟩
    | inr d =>
      obtain ⟨d', hd, rfl⟩ := yields_either_inr.mp hy
      obtain ⟨ho, rfl, hst⟩ := Screening.refuses (c := d) hbars hd
      exact ⟨ho, rfl, hst⟩
  accepts {c _ _ _ _ _} hopen hbars hy := by
    cases c with
    | inl c =>
      obtain ⟨c', hc, rfl⟩ := yields_either_inl.mp hy
      exact Screening.accepts (c := c) hopen hbars hc
    | inr d =>
      obtain ⟨d', hd, rfl⟩ := yields_either_inr.mp hy
      exact Screening.accepts (c := d) hopen hbars hd
  not_bars {c _} hopen hroom := by
    cases c with
    | inl c => exact Screening.not_bars (c := c) hopen hroom
    | inr d => exact Screening.not_bars (c := d) hopen hroom
  constant_screen op c st a c' st' hy := by
    rw [perform_either] at hy
    cases c with
    | inl c =>
      obtain ⟨c', hc, rfl⟩ := yields_either_inl.mp hy
      exact Screening.constant_screen (C := C) op hc
    | inr d =>
      obtain ⟨d', hd, rfl⟩ := yields_either_inr.mp hy
      exact Screening.constant_screen (C := D) op hd

instance [∀ i, Policy (F i)] [∀ i, Screening (F i)] : Screening (Σ i, F i) where
  refuses {c _ _ _ _ _} hbars hy := by
    obtain ⟨c', hc, rfl⟩ := yields_family.mp hy
    obtain ⟨ho, rfl, hst⟩ := Screening.refuses (c := c.2) hbars hc
    exact ⟨ho, rfl, hst⟩
  accepts {c _ _ _ _ _} hopen hbars hy := by
    obtain ⟨c', hc, rfl⟩ := yields_family.mp hy
    exact Screening.accepts (c := c.2) hopen hbars hc
  not_bars {c _} hopen hroom := Screening.not_bars (c := c.2) hopen hroom
  constant_screen op c st a c' st' hy := by
    rw [perform_family] at hy
    obtain ⟨c', hc, rfl⟩ := yields_family.mp hy
    exact Screening.constant_screen (C := F c.1) op hc

end Policy

namespace Tier
open Policy
variable {d e : Nat} {t : Tier d} {s : Tier e} {size : Bytes}

instance screening : (d : Nat) → Screening (Tier d)
  | 0 => inferInstanceAs (Screening Lru)
  | d + 1 =>
    letI := screening d
    inferInstanceAs (Screening (Lru ⊕ (Σ top, Segmented (Tier d) top)))

theorem descend_segment {d top : Nat} (s : Segmented (Tier d) top) (i : Level top)
    (path : List Nat) : descend (ofSegmented s) (i.val :: path) = (s.segment i).descend path := by
  change (if h : i.val < top + 1 then (s.segment ⟨i.val, h⟩).descend path else none) = _
  rw [dif_pos i.isLt]

/-- A tier that is charged no more for an object than the cache around it bars
nothing that fits its capacity, unless it is segmented. -/
theorem not_bars_of_fits (hfits : Policy.charge t size ≤ Policy.capacity t)
    (hbars : ∀ e top (s : Segmented (Tier e) top),
      t.descend [] = some ⟨e + 1, .ofSegmented s⟩ → ¬ Screened.Bars s size) :
    ¬ Screened.Bars t size := by
  match d, t with
  | 0, c => exact mt of_decide_eq_true (UInt64.not_lt.mpr hfits)
  | _ + 1, .inl c => exact mt of_decide_eq_true (UInt64.not_lt.mpr hfits)
  | _ + 1, .inr ⟨top, s⟩ => exact hbars _ top s rfl

/-- A tier is open to a size that no segmented cache in it bars. -/
theorem open_of_descend {d : Nat} {t : Tier d} (hr : Roomy t)
    (hbars : ∀ path e top (s : Segmented (Tier e) top),
      t.descend path = some ⟨e + 1, .ofSegmented s⟩ → ¬ Screened.Bars s size) :
    Screened.Open t size := by
  match d, t with
  | 0, _ => trivial
  | _ + 1, .inl _ => trivial
  | d + 1, .inr ⟨top, s⟩ =>
    have hfits : s.charge size ≤ Policy.capacity (s.segment 0) :=
      UInt64.not_lt.mp (mt decide_eq_true (hbars [] d top s rfl))
    have hpart : ∀ i path e top' (s' : Segmented (Tier e) top'),
        (s.segment i).descend path = some ⟨e + 1, .ofSegmented s'⟩ → ¬ Screened.Bars s' size := by
      intro i path e top' s' h
      refine hbars (i.val :: path) e top' s' ?_
      rw [← h]
      exact descend_segment s i path
    refine ⟨hfits, ?_, fun i => open_of_descend (hr i).2.2 (hpart i)⟩
    refine not_bars_of_fits (UInt64.le_trans ?_ hfits) (hpart 0 [])
    exact Word.saturatingAdd_le_right (hr 0).1 size

end Tier

namespace Blueprint
open Policy
variable {d : Nat} {b : Blueprint d} {p : Params} {st₀ st st' st'' : Store} {t t' t'' : Tier d}
variable {ops : List Operation} {responses : List Response} {r : Request}

/-- In a tier from a forwarding blueprint, whatever has been done with it, a refused
insertion changes nothing, provided that the tier itself bars what a segmented cache
in it bars. There is no such cache in a segmented cache of least-recently-used ones. -/
theorem Forwarding.refused_unchanged (h : b.Forwarding)
    (hbuild : (b.build p).run st₀ = .ok (.ok t) st)
    (hrun : (performAll ops).Yields t st responses t' st')
    (hbars : ∀ path e top (s : Segmented (Tier e) top),
      t'.descend path = some ⟨e + 1, .ofSegmented s⟩ →
        Screened.Bars s r.size → Screened.Bars t' r.size)
    (hy : (Policy.insert r).Yields t' st' none t'' st'') :
    t'' = t' ∧ ∃ events, st'' = { st' with events } := by
  obtain ⟨-, hbuilt⟩ := h.leads_build_steady p st₀ _ _ hbuild
  obtain ⟨hsteady, -⟩ := hbuilt t rfl
  have hroomy : Roomy t' := (kept_performAll hsteady.toSound hrun).roomy hsteady.roomy
  apply unchanged_of_refused _ hy
  intro hnot
  exact Tier.open_of_descend hroomy fun path e top s hs hb => hnot (hbars path e top s hs hb)

/-- Two segments of two segments each, as wide as they can be. -/
def halves : Blueprint 2 := .segmented {} false 2 fun _ => .ofLrus {} false 2

/-- An object that the whole tier bars. The one cached under its id stays. -/
theorem refused_unchanged_halves :
    ∃ (t t' t'' : Tier 2) (st st' st'' : Store) (responses : List Response),
      halves.Forwarding ∧ (halves.build ⟨20, 0, 0⟩).run {} = .ok (.ok t) st ∧
      (performAll [.insert ⟨1, 3, 0, none⟩, .insert ⟨2, 4, 0, none⟩]).Yields t st responses t' st' ∧
      (Policy.insert ⟨1, 11, 0, none⟩).Yields t' st' none t'' st'' ∧ t'' = t' ∧
      (∃ events, st'' = { st' with events }) ∧ contains st' t' 1 = true := by
  have hforwarding : halves.Forwarding := by decide
  have h : (trial halves ⟨20, 0, 0⟩ [.insert ⟨1, 3, 0, none⟩, .insert ⟨2, 4, 0, none⟩]).any (fun x =>
        match Policy.insert ⟨1, 11, 0, none⟩ x.2.1 x.2.2 with
        | .ok (res, _) _ => res.isNone && (contains x.2.2 x.2.1 1 && Screened.Bars x.2.1 11)
        | .error _ _ => false) = true := by
    decide +kernel
  obtain ⟨⟨x, y⟩, htrial, hcheck⟩ := (Option.any_eq_true _ _).mp h
  obtain ⟨hbuild, responses, hrun⟩ := build_of_trial htrial
  dsimp only at hcheck
  split at hcheck
  next res t'' st'' hinsert =>
    simp only [Bool.and_eq_true] at hcheck
    obtain ⟨hres, hcontains, hbars⟩ := hcheck
    obtain rfl := Option.isNone_iff_eq_none.mp hres
    obtain ⟨heq, hst⟩ := hforwarding.refused_unchanged hbuild hrun (r := ⟨1, 11, 0, none⟩)
      (fun _ _ _ _ _ _ => hbars) hinsert
    exact ⟨x.1, y.1, t'', x.2, y.2, st'', responses, hforwarding, hbuild, hrun, hinsert, heq, hst,
      hcontains⟩
  next => cases hcheck

/-- The coldest segment, segmented itself, has half the room for a single object that
the tier has. It refuses what the tier did not bar, and the object that was cached
under the id is gone by then. -/
theorem late_refusal_loses :
    ∃ (t t' t'' : Tier 2) (st st' st'' : Store) (responses : List Response),
      halves.Forwarding ∧ (halves.build ⟨20, 0, 0⟩).run {} = .ok (.ok t) st ∧
      (performAll [.insert ⟨1, 3, 0, none⟩]).Yields t st responses t' st' ∧
      (Policy.insert ⟨1, 8, 0, none⟩).Yields t' st' none t'' st'' ∧
      contains st' t' 1 = true ∧ contains st'' t'' 1 = false := by
  have h : (trial halves ⟨20, 0, 0⟩ [.insert ⟨1, 3, 0, none⟩]).any (fun x =>
        match Policy.insert ⟨1, 8, 0, none⟩ x.2.1 x.2.2 with
        | .ok (res, t) st => res.isNone && (contains x.2.2 x.2.1 1 && !contains st t 1)
        | .error _ _ => false) = true := by
    decide +kernel
  obtain ⟨⟨x, y⟩, htrial, hcheck⟩ := (Option.any_eq_true _ _).mp h
  obtain ⟨hbuild, responses, hrun⟩ := build_of_trial htrial
  dsimp only at hcheck
  split at hcheck
  next res t'' st'' hinsert =>
    simp only [Bool.and_eq_true, Bool.not_eq_true'] at hcheck
    obtain ⟨hres, hbefore, hafter⟩ := hcheck
    obtain rfl := Option.isNone_iff_eq_none.mp hres
    exact ⟨x.1, y.1, t'', x.2, y.2, st'', responses, by decide, hbuild, hrun, hinsert, hbefore,
      hafter⟩
  next => cases hcheck

end Blueprint
end SegmentedCache
