import SegmentedCache.Proofs.Lru.Creation
import SegmentedCache.Proofs.Segmented.Levels
import SegmentedCache.Segmented.Creation

/-!
# New segmented caches

The segments of a new cache are new, each built for its share of the capacity. The
shares add up to the capacity, and the limit of the cache is the least of those of
its segments.
-/
namespace SegmentedCache

namespace Segmented
open Policy
variable {C : Type} [Policy C] [Lawful C] {st : Store}

/-- The parts are new one after another, each with what its own construction
ensures. -/
theorem leads_buildParts {build : Nat → BuildM C} {P : Nat → C → Prop}
    (h : ∀ i st, (build i).Leads st fun c st' => Lru.New st st' (leaves c) ∧ P i c)
    (l : List Nat) :
    (buildParts build l).Leads st fun cs st' =>
      Lru.New st st' (cs.flatMap leaves) ∧ List.Forall₂ P l cs := by
  induction l generalizing st with
  | nil => exact BuildM.leads_pure ⟨⟨by simp, by simp, .nil⟩, .nil⟩
  | cons i rest ih =>
    apply (h i st).bind
    intro c st₁ g hc
    refine ih.bind fun cs st₂ g' hcs => BuildM.leads_pure ⟨?_, .cons hc.2 hcs.2⟩
    rw [List.flatMap_cons]
    exact hc.1.append hcs.1 g g'

end Segmented

namespace Segmentation
variable {n : Segmentation} {capacity : Bytes}

theorem validate_eq_ok_iff :
    n.validate capacity = .ok () ↔ 1 ≤ n.count ∧ n.count ≤ capacity.toNat := by
  unfold validate
  split
  next h => simp [h]
  next h =>
    split
    next hlt => simp [hlt]
    next hle => simpa using ⟨Nat.pos_of_ne_zero h, Nat.not_lt.mp hle⟩

/-- The shares are even but for the remainder, which the coldest segment gets. -/
theorem toNat_share (h : n.validate capacity = .ok ()) (i : Nat) :
    (n.share capacity i).toNat =
      capacity.toNat / n.count + if i = 0 then capacity.toNat % n.count else 0 := by
  obtain ⟨hpos, hle⟩ := validate_eq_ok_iff.mp h
  have hlt := capacity.toNat_lt_size
  have hcount : (UInt64.ofNat n.count).toNat = n.count := by
    rw [UInt64.toNat_ofNat']
    exact Nat.mod_eq_of_lt (Nat.lt_of_le_of_lt hle hlt)
  have hdiv : (capacity / UInt64.ofNat n.count).toNat = capacity.toNat / n.count := by
    rw [UInt64.toNat_div, hcount]
  have hmod : (capacity % UInt64.ofNat n.count).toNat = capacity.toNat % n.count := by
    rw [UInt64.toNat_mod, hcount]
  have hdm := Nat.div_add_mod capacity.toNat n.count
  have hquot : capacity.toNat / n.count ≤ n.count * (capacity.toNat / n.count) :=
    Nat.le_mul_of_pos_left _ hpos
  unfold share
  dsimp only
  split
  · rw [Word.toNat_add_of_lt (by omega), hdiv, hmod]
  · rw [hdiv, Nat.add_zero]

theorem share_pos (h : n.validate capacity = .ok ()) (i : Nat) :
    1 ≤ (n.share capacity i).toNat := by
  obtain ⟨hpos, hle⟩ := validate_eq_ok_iff.mp h
  rw [toNat_share h]
  exact Nat.le_add_right_of_le (Nat.div_pos hle hpos)

/-- The shares of at least one and no more segments than bytes add up. -/
theorem sum_share (h : n.validate capacity = .ok ()) :
    ((List.range n.count).map fun i => (n.share capacity i).toNat).sum = capacity.toNat := by
  obtain ⟨m, hm⟩ := Nat.exists_eq_succ_of_ne_zero
    (Nat.ne_of_gt (validate_eq_ok_iff.mp h).1)
  have hdm := Nat.div_add_mod capacity.toNat n.count
  have hmap : (List.range m).map ((fun i => (n.share capacity i).toNat) ∘ Nat.succ) =
      List.replicate m (capacity.toNat / n.count) := by
    rw [List.eq_replicate_iff]
    refine ⟨by simp, fun b hb => ?_⟩
    obtain ⟨i, -, rfl⟩ := List.mem_map.mp hb
    simp [toNat_share h]
  rw [show List.range n.count = List.range (m + 1) by rw [hm], List.range_succ_eq_map,
    List.map_cons, List.sum_cons, List.map_map, hmap, List.sum_replicate_nat, toNat_share h,
    if_pos rfl]
  rw [hm, Nat.succ_mul] at hdm
  rw [hm]
  omega

end Segmentation

namespace Segmented
open Policy
variable {C : Type} [Policy C] [Lawful C] {st : Store}

omit [Lawful C] in
theorem toList_ofParts (p : Params) (cs : List C) {top : Nat} (h : cs.length = top + 1) :
    (ofParts p cs h).segments.toList = cs := by
  simp [ofParts]

omit [Lawful C] in
/-- The cache admits no more than each of its segments. -/
theorem leastLimit_le {segments : List C} {c : C} (h : c ∈ segments) :
    leastLimit segments ≤ admissionLimit c := by
  have hc : admissionLimit c ∈ segments.map admissionLimit := List.mem_map_of_mem h
  unfold leastLimit
  cases hl : segments.map admissionLimit with
  | nil =>
    rw [hl] at hc
    cases hc
  | cons limit rest =>
    rw [hl] at hc
    have hmin : (limit :: rest).min? = some (rest.foldl min limit) := List.min?_cons'
    exact (List.min?_eq_some_iff.mp hmin).2 _ hc

omit [Lawful C] in
/-- The limit of the cache is that of one of its segments. -/
theorem leastLimit_mem {segments : List C} (h : segments ≠ []) :
    ∃ c ∈ segments, admissionLimit c = leastLimit segments := by
  rw [← List.mem_map]
  unfold leastLimit
  cases hl : segments.map admissionLimit with
  | nil => exact absurd (List.map_eq_nil_iff.mp hl) h
  | cons limit rest => exact (List.min?_eq_some_iff.mp List.min?_cons').1

omit [Policy C] [Lawful C] in
/-- What holds of all segments in order holds of the segment at a level. -/
theorem segment_of_forall₂ {R : Nat → C → Prop} {count top : Nat} {s : Segmented C top}
    (h : List.Forall₂ R (List.range count) s.segments.toList) (i : Level top) :
    i.val < count ∧ R i.val (s.segment i) := by
  have hlen : s.segments.toList.length = top + 1 := Vector.length_toList
  have hi : i.val < (List.range count).length := by
    rw [h.length_eq, hlen]
    exact i.isLt
  have hR := h.get hi (by rw [hlen]; exact i.isLt)
  rw [List.get_eq_getElem, List.get_eq_getElem, List.getElem_range, Vector.getElem_toList] at hR
  rw [List.length_range] at hi
  exact ⟨hi, hR⟩

/-- What a construction sets of a segmented cache, its segments apart. -/
structure Fresh {top : Nat} (p : Params) (n : Segmentation) (s : Segmented C top) : Prop where
  params : s.params = p
  limit : s.limit = leastLimit s.segments.toList
  counters : s.counters = .ofCapacity p.capacity (top + 1)
  valid : n.validate p.capacity = .ok ()

/-- The segments of a new cache are new, and each was built for its share. -/
theorem leads_create {build : Nat → Params → BuildM C} {P : Nat → Params → C → Prop}
    (h : ∀ i p st, (build i p).Leads st fun c st' => Lru.New st st' (leaves c) ∧ P i p c)
    (p : Params) (n : Segmentation) :
    (create p n build).Leads st fun s st' => Lru.New st st' (leaves s.2) ∧ s.2.Fresh p n ∧
      List.Forall₂ (fun i c => P i { p with capacity := n.share p.capacity i } c)
        (List.range n.count) s.2.segments.toList := by
  unfold create
  refine (BuildM.leads_except (Q := fun _ st' => st' = st) fun _ _ => rfl).bind
    fun _ st₁ _ e₁ => ?_
  obtain rfl : st₁ = st := e₁
  refine (BuildM.leads_except (Q := fun _ st' => st' = st₁ ∧ n.validate p.capacity = .ok ())
    fun _ hv => ⟨rfl, hv⟩).bind fun _ st₂ _ e₂ => ?_
  obtain ⟨rfl, hv⟩ := e₂
  refine (leads_buildParts (P := fun i c => P i { p with capacity := n.share p.capacity i } c)
    (fun i st => h i { p with capacity := n.share p.capacity i } st) _).bind fun cs st₃ g hcs => ?_
  cases cs with
  | nil => exact BuildM.leads_throw _
  | cons c rest =>
    have hnew := hcs.1
    have hlist : (ofParts p (c :: rest) rfl).segments.toList = c :: rest := toList_ofParts _ _ rfl
    refine (BuildM.leads_lift (CacheM.leads_emit (Q := fun _ st' => Lru.New st₂ st'
      ((c :: rest).flatMap leaves)) _ ?_)).bind fun _ st₄ _ hk => BuildM.leads_pure ?_
    · exact ⟨fun d hd => (hnew.unused d hd).grown (Store.Grown.events st₃ _), hnew.late,
        hnew.distinct⟩
    · refine ⟨?_, ⟨rfl, ?_, rfl, hv⟩, ?_⟩
      · change Lru.New st₂ st₄ ((ofParts p (c :: rest) rfl).segments.toList.flatMap leaves)
        rwa [hlist]
      · rw [hlist]
        rfl
      · rw [hlist]
        exact hcs.2

omit [Policy C] [Lawful C] in
theorem buildParts_congr {build build' : Nat → BuildM C} {l : List Nat}
    (h : ∀ i ∈ l, build i = build' i) : buildParts build l = buildParts build' l := by
  induction l with
  | nil => rfl
  | cons i rest ih =>
    obtain ⟨hi, hrest⟩ := List.forall_mem_cons.mp h
    unfold buildParts
    rw [hi, ih hrest]

omit [Policy C] [Lawful C] in
/-- The first part that is refused is the refusal of the whole. -/
theorem settles_buildParts {build : Nat → BuildM C} {flaw : Nat → Option BuildError}
    {P : Nat → C → Prop} (h : ∀ i, (build i).Settles (flaw i) (P i)) (l : List Nat) :
    (buildParts build l).Settles (l.findSome? flaw) (List.Forall₂ P l) := by
  induction l with
  | nil => exact BuildM.settles_pure .nil
  | cons i rest ih =>
    have hor : (i :: rest).findSome? flaw = (flaw i).or ((rest.findSome? flaw).or none) := by
      rw [List.findSome?_cons]
      cases flaw i <;> simp
    rw [hor]
    exact (h i).bind fun c hc => ih.bind fun cs hcs => BuildM.settles_pure (.cons hc hcs)

omit [Lawful C] in
theorem settles_create {build : Nat → Params → BuildM C} {flaw : Nat → Params → Option BuildError}
    {P : Nat → Params → C → Prop} (h : ∀ i p, (build i p).Settles (flaw i p) (P i p)) (p : Params)
    (n : Segmentation) :
    (create p n build).Settles
      ((BuildM.refusal? p.validate).or ((BuildM.refusal? (n.validate p.capacity)).or
        ((List.range n.count).findSome? fun i =>
          flaw i { p with capacity := n.share p.capacity i })))
      fun s => s.2.Fresh p n ∧
        List.Forall₂ (fun i c => P i { p with capacity := n.share p.capacity i } c)
          (List.range n.count) s.2.segments.toList := by
  unfold create
  refine (BuildM.settles_except _).bind fun _ _ => (BuildM.settles_except _).bind fun _ hv => ?_
  rw [← @Option.or_none _ (List.findSome? _ _)]
  refine (settles_buildParts (fun i => h i _) _).bind fun cs hcs => ?_
  cases cs with
  | nil =>
    have hcount : n.count = 0 := by simpa using hcs.length_eq
    have := (Segmentation.validate_eq_ok_iff.mp hv).1
    omega
  | cons c rest =>
    refine (BuildM.settles_lift fun st => ⟨(), _, rfl⟩).bind fun _ _ => BuildM.settles_pure ?_
    have hlist : (ofParts p (c :: rest) rfl).segments.toList = c :: rest := toList_ofParts _ _ rfl
    rw [hlist]
    refine ⟨⟨rfl, ?_, rfl, hv⟩, hcs⟩
    rw [hlist]
    rfl

end Segmented
end SegmentedCache
