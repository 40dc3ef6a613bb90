import SegmentedCache.Proofs.Tier.Building

/-!
# A capacity divided

A layout says into how many segments a cache is divided, and each of the segments in turn;
every part is built from just the parameters that it is given. The parameters and the
numbers of segments decide whether all parts can be built, and which one is refused if not:
the first of the nodes, each before those below it and these coldest first. What is built
holds the whole capacity in its leaves, and none of them is empty: `Layout.build_divided`.
-/
namespace SegmentedCache

inductive Layout : Nat → Type
  | lru {d : Nat} : Layout d
  | segmented {d : Nat} (n : Segmentation) (plan : Nat → Layout d) : Layout (d + 1)

namespace Layout
open Policy

def build : {d : Nat} → Layout d → Params → BuildM (Tier d)
  | _, .lru, p => do
    let c ← Lru.create p
    pure (.ofLru c)
  | _, .segmented n plan, p => do
    let ⟨_, s⟩ ← Segmented.create p n fun i q => (plan i).build q
    pure (.ofSegmented s)

/-- The blueprint that adjusts nothing and that nobody vouches for. -/
def blueprint : {d : Nat} → Layout d → Blueprint d
  | _, .lru => .lru {} false
  | _, .segmented n plan => .segmented {} false n.count fun i => (plan i).blueprint

/-- The parameters of every part, and its segmentation if it has one: each before the parts
below it, and these coldest first. -/
def nodes : {d : Nat} → Layout d → Params → List (Params × Option Segmentation)
  | _, .lru, p => [(p, none)]
  | _, .segmented n plan, p =>
    (p, some n) :: (List.range n.count).flatMap fun i =>
      (plan i).nodes { p with capacity := n.share p.capacity i }

/-- The check of a single part, whatever its own parts may be. -/
def check : Params × Option Segmentation → Except BuildError Unit
  | (p, none) => p.validate
  | (p, some n) => do
    p.validate
    n.validate p.capacity

/-- What the first part fails for of those that fail their check. -/
def flaw? {d : Nat} (l : Layout d) (p : Params) : Option BuildError :=
  (l.nodes p).findSome? fun node => BuildM.refusal? (check node)

variable {d : Nat} {p : Params}

theorem flaw?_lru : (lru : Layout d).flaw? p = BuildM.refusal? p.validate := by
  unfold flaw? nodes
  rw [List.findSome?_singleton]
  rfl

theorem flaw?_segmented (n : Segmentation) (plan : Nat → Layout d) :
    (segmented n plan).flaw? p =
      (BuildM.refusal? p.validate).or ((BuildM.refusal? (n.validate p.capacity)).or
        ((List.range n.count).findSome? fun i =>
          (plan i).flaw? { p with capacity := n.share p.capacity i })) := by
  have hroot : BuildM.refusal? (check (p, some n)) =
      (BuildM.refusal? p.validate).or (BuildM.refusal? (n.validate p.capacity)) :=
    BuildM.refusal?_bind ..
  have hbelow : ((List.range n.count).flatMap fun i =>
      (plan i).nodes { p with capacity := n.share p.capacity i }).findSome?
        (fun node => BuildM.refusal? (check node)) =
      (List.range n.count).findSome? fun i =>
        (plan i).flaw? { p with capacity := n.share p.capacity i } := by
    rw [← List.head?_filterMap, List.filterMap_flatMap, List.head?_flatMap]
    simp only [List.head?_filterMap, flaw?]
  rw [← Option.or_assoc, ← hroot, ← hbelow]
  change List.findSome? _ ((p, some n) :: _) = _
  rw [List.findSome?_cons]
  cases BuildM.refusal? (check (p, some n)) <;> rfl

end Layout

/-! ## Divided tiers -/

/-- The leaves share a capacity without loss, none is empty, and what any part admits is
limited by the smallest of its leaves. -/
structure Tier.Divided (capacity : Bytes) {d : Nat} (t : Tier d) : Prop where
  total : (t.leaves.map fun c => c.params.capacity.toNat).sum = capacity.toNat
  pos : ∀ c ∈ t.leaves, 1 ≤ c.params.capacity.toNat
  limit : ∀ path, ∀ x ∈ t.descend path,
    (x.2.leaves.map fun c => c.params.capacity).min? = some (Policy.admissionLimit x.2)

namespace Tier
open Policy
variable {d : Nat} {p : Params}

theorem leaves_ofLru (c : Lru) : (ofLru c : Tier d).leaves = [c] := by cases d <;> rfl

theorem Divided.of_lru {c : Lru} (hv : p.validate = .ok ()) (hc : c.params = p) :
    Divided p.capacity (ofLru c : Tier d) := by
  constructor
  case total => simp [leaves_ofLru, hc]
  case pos => simpa [leaves_ofLru, hc] using (Params.validate_eq_ok_iff.mp hv).1
  case limit =>
    intro path x hx
    cases path with
    | nil =>
      rw [descend, Option.mem_some] at hx
      subst hx
      cases d <;> rfl
    | cons i rest => cases d <;> cases hx

/-- The smallest leaf is the smallest leaf of the segment with the least limit. -/
theorem limit_ofSegmented {top : Nat} {s : Segmented (Tier d) top}
    (hs : s.limit = Segmented.leastLimit s.segments.toList)
    (h : ∀ t ∈ s.segments.toList, (t.leaves.map fun c => c.params.capacity).min? =
      some (admissionLimit t)) :
    ((ofSegmented s).leaves.map fun c => c.params.capacity).min? = some s.limit := by
  have hne : s.segments.toList ≠ [] := by
    rw [← List.length_pos_iff, Vector.length_toList]
    exact Nat.succ_pos top
  obtain ⟨t, ht, hlimit⟩ := Segmented.leastLimit_mem hne
  change ((s.segments.toList.flatMap leaves).map _).min? = _
  rw [List.map_flatMap, List.min?_eq_some_iff, hs]
  refine ⟨?_, fun b hb => ?_⟩
  · rw [← hlimit]
    exact List.mem_flatMap.mpr ⟨t, ht, (List.min?_eq_some_iff.mp (h t ht)).1⟩
  · obtain ⟨u, hu, hb⟩ := List.mem_flatMap.mp hb
    exact UInt64.le_trans (Segmented.leastLimit_le hu) ((List.min?_eq_some_iff.mp (h u hu)).2 b hb)

theorem Divided.of_segmented {n : Segmentation} {top : Nat} {s : Segmented (Tier d) top}
    (hs : s.Fresh p n) (h : List.Forall₂ (fun i t => Divided (n.share p.capacity i) t)
      (List.range n.count) s.segments.toList) : Divided p.capacity (ofSegmented s) := by
  have hall : ∀ t ∈ s.segments.toList, ∃ capacity, Divided capacity t := fun t ht => by
    obtain ⟨i, hi, rfl⟩ := List.getElem_of_mem ht
    exact ⟨_, h.get (by rw [h.length_eq]; exact hi) hi⟩
  constructor
  case total =>
    have hsums :
        s.segments.toList.map (fun t => (t.leaves.map fun c => c.params.capacity.toNat).sum) =
          (List.range n.count).map fun i => (n.share p.capacity i).toNat := by
      rw [← List.forall₂_eq_eq_eq, List.forall₂_map_left_iff, List.forall₂_map_right_iff]
      exact h.flip.imp fun t i ht => ht.total
    change ((s.segments.toList.flatMap leaves).map _).sum = _
    rw [List.map_flatMap, List.flatMap, List.sum_flatten, List.map_map,
      ← Segmentation.sum_share hs.valid, ← hsums]
    rfl
  case pos =>
    intro c hc
    obtain ⟨t, ht, hc⟩ := List.mem_flatMap.mp hc
    obtain ⟨capacity, ht⟩ := hall t ht
    exact ht.pos c hc
  case limit =>
    intro path x hx
    cases path with
    | nil =>
      rw [descend, Option.mem_some] at hx
      subst hx
      refine limit_ofSegmented hs.limit fun t ht => ?_
      obtain ⟨capacity, ht⟩ := hall t ht
      exact ht.limit [] ⟨d, t⟩ (by rw [descend]; rfl)
    | cons i rest =>
      change (if hi : i < top + 1 then (s.segment ⟨i, hi⟩).descend rest else none) = some x at hx
      split at hx
      next hi => exact (Segmented.segment_of_forall₂ h ⟨i, hi⟩).2.limit rest x hx
      next => cases hx

end Tier

namespace Layout
variable {d : Nat}

theorem build_settles (l : Layout d) (p : Params) :
    (l.build p).Settles (l.flaw? p) (Tier.Divided p.capacity) := by
  induction l generalizing p with
  | lru =>
    rw [flaw?_lru, ← @Option.or_none _ (BuildM.refusal? _)]
    exact (Lru.settles_create p).bind fun c hc => BuildM.settles_pure (.of_lru hc.1 hc.2)
  | segmented n plan ih =>
    rw [flaw?_segmented, ← @Option.or_none _ (Option.or _ _)]
    exact (Segmented.settles_create (P := fun _ p => Tier.Divided p.capacity) ih p n).bind
      fun s hs => BuildM.settles_pure (.of_segmented hs.1 hs.2)

/-! ## Which layouts can be built -/

theorem check_eq_ok_iff {p : Params} {n? : Option Segmentation} :
    check (p, n?) = .ok () ↔ (1 ≤ p.capacity.toNat ∧ p.hashpower ≤ maxHashpower) ∧
      ∀ n ∈ n?, 1 ≤ n.count ∧ n.count ≤ p.capacity.toNat := by
  cases n? with
  | none => simp [check, Params.validate_eq_ok_iff]
  | some n =>
    rw [← BuildM.refusal?_eq_none_iff, check, BuildM.refusal?_bind, Option.or_eq_none_iff,
      BuildM.refusal?_eq_none_iff, BuildM.refusal?_eq_none_iff, Params.validate_eq_ok_iff,
      Segmentation.validate_eq_ok_iff]
    simp

/-- If every segmentation in it fits, every node of a layout has a capacity and the hash
power of the whole. -/
theorem of_mem_nodes (l : Layout d) {p : Params} (hp : 1 ≤ p.capacity.toNat)
    (h : ∀ x ∈ l.nodes p, ∀ n ∈ x.2, 1 ≤ n.count ∧ n.count ≤ x.1.capacity.toNat) :
    ∀ x ∈ l.nodes p, 1 ≤ x.1.capacity.toNat ∧ x.1.hashpower = p.hashpower := by
  induction l generalizing p with
  | lru =>
    intro x hx
    rw [List.mem_singleton.mp hx]
    exact ⟨hp, rfl⟩
  | segmented n plan ih =>
    obtain ⟨hroot, hbelow⟩ := List.forall_mem_cons.mp h
    intro x hx
    cases hx with
    | head => exact ⟨hp, rfl⟩
    | tail _ hx =>
      obtain ⟨i, hi, hx⟩ := List.mem_flatMap.mp hx
      have hshare := Segmentation.share_pos (Segmentation.validate_eq_ok_iff.mpr (hroot n rfl)) i
      exact ih i hshare (fun y hy => hbelow y (List.mem_flatMap.mpr ⟨i, hi, hy⟩)) x hx

theorem mem_nodes_self (l : Layout d) (p : Params) : ∃ n?, (p, n?) ∈ l.nodes p := by
  cases l with
  | lru => exact ⟨none, List.mem_cons_self⟩
  | segmented n plan => exact ⟨some n, List.mem_cons_self⟩

theorem flaw?_eq_none_iff (l : Layout d) (p : Params) :
    l.flaw? p = none ↔ 1 ≤ p.capacity.toNat ∧ p.hashpower ≤ maxHashpower ∧
      ∀ x ∈ l.nodes p, ∀ n ∈ x.2, 1 ≤ n.count ∧ n.count ≤ x.1.capacity.toNat := by
  simp only [flaw?, List.findSome?_eq_none_iff, BuildM.refusal?_eq_none_iff]
  constructor
  · intro h
    obtain ⟨n?, hself⟩ := l.mem_nodes_self p
    obtain ⟨⟨hcap, hpow⟩, -⟩ := check_eq_ok_iff.mp (h _ hself)
    exact ⟨hcap, hpow, fun x hx => (check_eq_ok_iff.mp (h x hx)).2⟩
  · rintro ⟨hcap, hpow, hfit⟩ x hx
    obtain ⟨hx', hsame⟩ := l.of_mem_nodes hcap hfit x hx
    exact check_eq_ok_iff.mpr ⟨⟨hx', hsame ▸ hpow⟩, hfit x hx⟩

/-- Without empty segmentations, the blueprint of a layout builds the same. -/
theorem blueprint_build (l : Layout d) (p : Params)
    (h : ∀ x ∈ l.nodes p, ∀ n ∈ x.2, n.count ≠ 0) : l.blueprint.build p = l.build p := by
  induction l generalizing p with
  | lru => rfl
  | segmented n plan ih =>
    obtain ⟨hroot, hbelow⟩ := List.forall_mem_cons.mp h
    have hcount : Segmentation.ofCount n.count = .ok n := if_neg (hroot n rfl)
    have hparts : Segmented.create p n (fun i q => (plan i).blueprint.build q) =
        Segmented.create p n fun i q => (plan i).build q := by
      unfold Segmented.create
      rw [Segmented.buildParts_congr fun i hi => ih i _ fun x hx =>
        hbelow x (List.mem_flatMap.mpr ⟨i, hi, hx⟩)]
    unfold blueprint Blueprint.build
    rw [hcount]
    change Segmented.create p n (fun i q => (plan i).blueprint.build q) >>= _ = _
    rw [hparts]
    rfl

/-- Whatever the layout, its construction does not fault. It succeeds exactly if there is
a byte to divide, the hash power is in range and every segmentation leaves a byte to every
segment; else it is refused for what the first failing part fails for. What is built has
the whole capacity in its leaves. A blueprint that adjusts nothing does the same. -/
theorem build_divided {d : Nat} (l : Layout d) (p : Params) (st : Store) :
    ∃ r st', (l.build p).run st = .ok r st' ∧
      ((∃ t, r = .ok t) ↔ 1 ≤ p.capacity.toNat ∧ p.hashpower ≤ maxHashpower ∧
        ∀ x ∈ l.nodes p, ∀ n ∈ x.2, 1 ≤ n.count ∧ n.count ≤ x.1.capacity.toNat) ∧
      (∀ e, r = .error e ↔ l.flaw? p = some e) ∧
      (∀ t, r = .ok t → t.Divided p.capacity) ∧
      ((∀ x ∈ l.nodes p, ∀ n ∈ x.2, n.count ≠ 0) → l.blueprint.build p = l.build p) := by
  obtain ⟨r, st', hrun, hr, hdivided⟩ := l.build_settles p st
  refine ⟨r, st', hrun, ?_, fun e => ?_, hdivided, l.blueprint_build p⟩
  · rw [← flaw?_eq_none_iff, ← hr]
    cases r <;> simp [BuildM.refusal?]
  · rw [← hr]
    cases r <;> simp [BuildM.refusal?]

/-- Three segments, of which the coldest is divided again in three and the hottest in two. -/
def uneven : Layout 2 :=
  .segmented ⟨3⟩ fun
    | 0 => .segmented ⟨3⟩ fun _ => .lru
    | 1 => .lru
    | _ => .segmented ⟨2⟩ fun _ => .lru

/-- Ten bytes go round. Of five the hottest segment gets one, which is too few for two. -/
theorem build_divided_uneven :
    (∃ t st', (uneven.build ⟨10, 0, 0⟩).run {} = .ok (.ok t) st' ∧ t.Divided 10 ∧
      uneven.blueprint.build ⟨10, 0, 0⟩ = uneven.build ⟨10, 0, 0⟩) ∧
      ∃ st', (uneven.build ⟨5, 0, 0⟩).run {} = .ok (.error (.config (.emptySegment 2 1))) st' := by
  constructor
  · obtain ⟨r, st', hrun, hok, -, hdivided, hblueprint⟩ := uneven.build_divided ⟨10, 0, 0⟩ {}
    obtain ⟨t, rfl⟩ := hok.mpr (by decide +kernel)
    exact ⟨t, st', hrun, hdivided t rfl, hblueprint (by decide +kernel)⟩
  · obtain ⟨r, st', hrun, -, herror, -⟩ := uneven.build_divided ⟨5, 0, 0⟩ {}
    obtain rfl := (herror (.config (.emptySegment 2 1))).mpr (by decide +kernel)
    exact ⟨st', hrun⟩

end Layout
end SegmentedCache
