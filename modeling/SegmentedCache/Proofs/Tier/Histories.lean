import SegmentedCache.Proofs.Tier.Building
import SegmentedCache.Proofs.Tier.Conserving

/-!
# Histories of a tier that loses nothing

A blueprint is forwarding if every segment is built with the overhead of the
whole and for its share of the capacity. Then no segment charges more than the
whole or admits less, at any depth, so the tier is steady from the start. It
stays so until a client inserts into it directly or writes to its indexes.

Until then, what a request brought in can be moved anywhere. It leaves the tier
by an eviction, a removal or its expiry, and never because a segment could not
hold it.
-/
namespace SegmentedCache

namespace Blueprint
open Policy

/-- Segments are built with the overhead of the whole and for their share of its
capacity. -/
def Forwarding : {d : Nat} → Blueprint d → Prop
  | _, .lru _ _ => True
  | _, .segmented _ _ count plan => ∀ i < count,
    (plan i).adjustment.capacity = none ∧ (plan i).adjustment.overhead = none ∧
      (plan i).Forwarding

instance decidableForwarding : {d : Nat} → (b : Blueprint d) → Decidable b.Forwarding
  | _, .lru _ _ => isTrue trivial
  | _, .segmented _ _ count plan =>
    letI := fun i => decidableForwarding (plan i)
    inferInstanceAs (Decidable (∀ i < count, (plan i).adjustment.capacity = none ∧
      (plan i).adjustment.overhead = none ∧ (plan i).Forwarding))

variable {d : Nat} {b : Blueprint d}

theorem Forwarding.narrowing (h : b.Forwarding) : b.Narrowing := by
  induction b with
  | lru adjust vouched => trivial
  | segmented adjust vouched count plan ih =>
    exact fun i hi => ⟨(h i hi).1, ih i (h i hi).2.2⟩

/-- Nothing is on record of a new tier, and if its blueprint is forwarding, the
tier is roomy. -/
theorem leads_build_roomy (b : Blueprint d) (p : Params) (st : Store) :
    (b.build p).Leads st fun t st' => Lru.New st st' (leaves t) ∧
      overhead t = b.adjustment.overhead.getD p.overhead ∧ Intact t ∧
      (b.Forwarding → Roomy t) := by
  apply leads_build_of (P := fun b p t =>
    overhead t = b.adjustment.overhead.getD p.overhead ∧ Intact t ∧ (b.Forwarding → Roomy t))
  case lru =>
    intro d adjust vouched p c hc
    have hover : c.params.overhead = adjust.overhead.getD p.overhead := by
      rw [hc.params]
      rfl
    cases d with
    | zero => exact ⟨hover, trivial, fun _ => trivial⟩
    | succ d => exact ⟨hover, trivial, fun _ => trivial⟩
  case segmented =>
    intro d adjust vouched count plan p top s hs hparts
    have hover : s.params.overhead = adjust.overhead.getD p.overhead := by
      rw [hs.params]
      rfl
    have hpart := Segmented.segment_of_forall₂ hparts
    have hintact : s.counters.coolingDrops = 0 := by
      rw [hs.counters]
      rfl
    refine ⟨hover, ⟨hintact, fun i => (hpart i).2.2.1⟩, fun hf i => ?_⟩
    obtain ⟨hi, hsame, -, hroomy⟩ := hpart i
    obtain ⟨-, hnone, hforwarding⟩ := hf i.val hi
    refine ⟨?_, ?_, hroomy hforwarding⟩
    · rw [hsame, hnone, hs.params]
      exact UInt64.le_refl _
    · rw [hs.limit]
      exact Segmented.leastLimit_le (Segmented.mem_toList_iff.mpr ⟨i, rfl⟩)

theorem Forwarding.leads_build_steady (h : b.Forwarding) (p : Params) (st : Store) :
    (b.build p).Leads st fun t st' => Steady st' t ∧ Intact t := by
  intro r st' hr
  obtain ⟨hg, hbuild⟩ := b.leads_build p st r st' hr
  obtain ⟨-, hroomy⟩ := b.leads_build_roomy p st r st' hr
  refine ⟨hg, fun t ht => ?_⟩
  obtain ⟨hnew, -, hfits⟩ := hbuild t ht
  obtain ⟨-, -, hintact, hroomy⟩ := hroomy t ht
  exact ⟨⟨.of_new hnew (hroomy h), hfits h.narrowing⟩, hintact⟩

end Blueprint

namespace Tier
open Policy
variable {d e : Nat} {t : Tier d} {s : Tier e} {st : Store}

theorem intact_descend (path : List Nat) (ht : Intact t) (h : t.descend path = some ⟨e, s⟩) :
    Intact s :=
  descend_induction (P := fun _ t => Intact t) (fun _ hs i => hs.2 i) path ht h

/-- Every queued object is of a size that the whole tier admits. -/
theorem canAdmit_of_mem (h : Steady st t) {c : Lru} (hc : c ∈ t.leaves) {o : CacheObject}
    (ho : o ∈ c.objects) : canAdmit t o.size := by
  rw [← leaves_eq] at hc
  have hfind := (Lru.find?_eq_some_iff_of_tidy (h.together.linked c hc) (h.tidy c hc)).mpr ⟨ho, rfl⟩
  exact h.small (o.id, o.size) ⟨c, hc, o, hfind, rfl⟩

end Tier

namespace Policy
variable {C : Type} [Policy C] {c : C} {size : Bytes}

/-- What is admitted is within the limit as a number, unless there is no larger
limit. -/
theorem limit_eq_or_le_of_canAdmit (h : canAdmit c size) :
    admissionLimit c = Word.largest ∨
      size.toNat + (overhead c).toNat ≤ (admissionLimit c).toNat := by
  have hle := UInt64.le_iff_toNat_le.mp (of_decide_eq_true h)
  have hlt := (admissionLimit c).toNat_lt_size
  unfold charge at hle
  rw [Word.toNat_saturatingAdd] at hle
  rw [← UInt64.toNat_inj, Word.toNat_largest]
  omega

end Policy

namespace Blueprint
open Policy
variable {d : Nat} {b : Blueprint d} {p : Params} {st₀ st st' : Store} {t t' : Tier d}

/-- A tier from a forwarding blueprint loses nothing that a request brought in, as
long as no client inserts into it. Nothing is dropped on a move at any depth, every
queued object is of a size that the tier admits, and a request is followed by its
object being there if it was a hit or may be admitted. -/
theorem Forwarding.keeps_admitted (h : b.Forwarding)
    (hbuild : (b.build p).run st₀ = .ok (.ok t) st) {ops : List Operation}
    (hops : ∀ op ∈ ops, ∀ r, op ≠ .insert r) {responses : List Response}
    (hrun : (performAll ops).Yields t st responses t' st') :
    (∀ path e top (s : Segmented (Tier e) top),
      t'.descend path = some ⟨e + 1, .ofSegmented s⟩ → s.counters.coolingDrops = 0) ∧
    st'.losses = st.losses ∧
    (∀ c ∈ t'.leaves, ∀ o ∈ c.objects, admissionLimit t' = Word.largest ∨
      o.size.toNat + (overhead t').toNat ≤ (admissionLimit t').toNat) ∧
    ∀ r found t'' st'', (serve r).Yields t' st' found t'' st'' →
      (contains st'' t'' r.id = true ↔ found = .hit ∨ canAdmit t' r.size = true) := by
  obtain ⟨-, hbuilt⟩ := h.leads_build_steady p st₀ _ _ hbuild
  obtain ⟨hsteady, hintact⟩ := hbuilt t rfl
  obtain ⟨hsteady', k⟩ := conserves_performAll hsteady hops hrun
  refine ⟨?counters, k.losses, ?sizes, ?requests⟩
  case counters =>
    intro path e top s hs
    have hs' : Intact s := Tier.intact_descend path (k.intact hintact) hs
    exact hs'.1
  case sizes =>
    intro c hc o ho
    exact limit_eq_or_le_of_canAdmit (Tier.canAdmit_of_mem hsteady' hc ho)
  case requests =>
    intro r found t'' st'' hserve
    rw [Lawful.contains_iff]
    exact (Conserving.conserves_serve hsteady' hserve).2

/-! ## Histories that compute -/

/-- Builds a tier in an empty store and works with it. Returns the states before and
after the work. -/
def trial (b : Blueprint d) (p : Params) (ops : List Operation) :
    Option ((Tier d × Store) × (Tier d × Store)) :=
  match (b.build p).run {} with
  | .ok (.ok t) st =>
    match performAll ops t st with
    | .ok (_, t') st' => some ((t, st), (t', st'))
    | .error _ _ => none
  | _ => none

theorem build_of_trial {ops : List Operation} {x y : Tier d × Store}
    (h : trial b p ops = some (x, y)) :
    (b.build p).run {} = .ok (.ok x.1) x.2 ∧
      ∃ responses, (performAll ops).Yields x.1 x.2 responses y.1 y.2 := by
  unfold trial at h
  split at h
  next t st hbuild =>
    split at h
    next responses t' st' hrun =>
      obtain ⟨rfl, rfl⟩ := Prod.mk.inj (Option.some.inj h)
      exact ⟨hbuild, responses, hrun⟩
    next => cases h
  next => cases h

/-- A segmented cache over a coldest segment that is not segmented and a hottest one
that is. -/
def lopsided : Blueprint 2 :=
  .segmented {} false 2 fun i => if i = 0 then .lru {} false else .ofLrus {} false 2

/-- Objects of one size come, are asked for again and leave. -/
def traffic : List Operation :=
  ([1, 1, 2, 2, 3, 3, 3, 1, 4, 2] : List ObjectId).map (fun id => .serve ⟨id, 3, 0, none⟩) ++
    [.check ⟨2, 3, 0, none⟩ true, .evict, .remove 2]

/-- Five promotions that demote three objects, an eviction and a removal. -/
theorem keeps_admitted_lopsided :
    ∃ (t t' : Tier 2) (st st' : Store) (responses : List Response),
      lopsided.Forwarding ∧ (lopsided.build ⟨20, 1, 0⟩).run {} = .ok (.ok t) st ∧
      (performAll traffic).Yields t st responses t' st' ∧
      (∃ counters, t'.counters = .inr counters ∧ counters.promotions = 5 ∧
        counters.demotions = 3) ∧
      (∀ path e top (s : Segmented (Tier e) top),
        t'.descend path = some ⟨e + 1, .ofSegmented s⟩ → s.counters.coolingDrops = 0) ∧
      st'.losses = st.losses ∧
      ∃ c ∈ t'.leaves, ∃ o ∈ c.objects, o.id = 3 ∧ admissionLimit t' = 5 ∧
        o.size.toNat + (overhead t').toNat ≤ (admissionLimit t').toNat := by
  have hforwarding : lopsided.Forwarding := by decide
  have hops : ∀ op ∈ traffic, ∀ r, op ≠ .insert r := by simp [traffic]
  have h : (trial lopsided ⟨20, 1, 0⟩ traffic).any (fun x =>
        x.2.1.counters.elim (fun _ => false)
          (fun counters => counters.promotions == 5 && counters.demotions == 3) &&
        x.2.1.leaves.any (fun c => c.objects.any fun o => o.id == 3) &&
        admissionLimit x.2.1 == 5) = true := by
    decide +kernel
  obtain ⟨⟨x, y⟩, htrial, hcheck⟩ := (Option.any_eq_true _ _).mp h
  obtain ⟨hbuild, responses, hrun⟩ := build_of_trial htrial
  obtain ⟨hcounters, hlosses, hsizes, -⟩ := hforwarding.keeps_admitted hbuild hops hrun
  simp only [Bool.and_eq_true, beq_iff_eq] at hcheck
  obtain ⟨⟨hmoves, hleaf⟩, hlimit⟩ := hcheck
  obtain ⟨c, hc, hobject⟩ := List.any_eq_true.mp hleaf
  obtain ⟨o, ho, hid⟩ := List.any_eq_true.mp hobject
  refine ⟨x.1, y.1, x.2, y.2, responses, hforwarding, hbuild, hrun, ?_, hcounters, hlosses,
    c, hc, o, ho, beq_iff_eq.mp hid, hlimit, ?_⟩
  · cases hk : y.1.counters with
    | inl counters =>
      rw [hk] at hmoves
      cases hmoves
    | inr counters =>
      rw [hk] at hmoves
      exact ⟨counters, rfl, by simpa using hmoves⟩
  · refine (hsizes c hc o ho).resolve_left fun hlargest => ?_
    rw [hlimit] at hlargest
    cases hlargest

/-- A charge stops at the largest word, so where that is the limit, an object of the
largest size is admitted whatever is charged on top. -/
theorem largest_admitted :
    ∃ (b : Blueprint 0) (t t' : Tier 0) (st st' : Store) (r : Request) (responses : List Response),
      b.Forwarding ∧ (b.build ⟨Word.largest, 1, 0⟩).run {} = .ok (.ok t) st ∧
      (performAll [.serve r]).Yields t st responses t' st' ∧
      ∃ c ∈ t'.leaves, ∃ o ∈ c.objects,
        (admissionLimit t').toNat < o.size.toNat + (overhead t').toNat := by
  have h : (trial (.lru {} false : Blueprint 0) ⟨Word.largest, 1, 0⟩
      [.serve ⟨1, Word.largest, 0, none⟩]).any (fun x =>
        x.2.1.leaves.any fun c => c.objects.any fun o =>
          (admissionLimit x.2.1).toNat < o.size.toNat + (overhead x.2.1).toNat) = true := by
    decide +kernel
  obtain ⟨⟨x, y⟩, htrial, hcheck⟩ := (Option.any_eq_true _ _).mp h
  obtain ⟨hbuild, responses, hrun⟩ := build_of_trial htrial
  obtain ⟨c, hc, hobject⟩ := List.any_eq_true.mp hcheck
  obtain ⟨o, ho, hover⟩ := List.any_eq_true.mp hobject
  exact ⟨.lru {} false, x.1, y.1, x.2, y.2, _, responses, trivial, hbuild, hrun, c, hc, o, ho,
    of_decide_eq_true hover⟩

end Blueprint
end SegmentedCache
