import SegmentedCache.Proofs.Segmented.Creation
import SegmentedCache.Proofs.Segmented.Promotion

/-!
# Histories of a segmented cache

A segmented cache of least-recently-used segments is built by a factory, which
may choose the parameters of each segment, and is then worked with. As long as
no client inserts into it directly and the factory does not raise the charge for
an object, the cache stays calm, so a promotion keeps its order.
-/
namespace SegmentedCache

namespace Lru

/-- Builds the segments for parameters of its choice. -/
def factory (choose : Nat → Params → Params) (vouched : Nat → Bool) (i : Nat) (p : Params) :
    BuildM Lru :=
  if vouched i then ExceptT.lift (createVouched (choose i p)) else create (choose i p)

theorem leads_factory (choose : Nat → Params → Params) (vouched : Nat → Bool) (i : Nat)
    (p : Params) (st : Store) :
    (factory choose vouched i p).Leads st fun c st' =>
      New st st' [c] ∧ c.Fresh (choose i p) := by
  unfold factory
  split
  · exact BuildM.leads_lift (leads_createVouched _)
  · exact leads_create _

end Lru

namespace Segmented
open SegmentedCache.Action Policy
variable {p : Params} {n : Segmentation} {choose : Nat → Params → Params} {vouched : Nat → Bool}
variable {top : Nat} {s s' : Segmented Lru top} {st st' : Store}

/-- The states that a cache gets into by operations other than direct
insertions. -/
inductive Reached (p : Params) (n : Segmentation) (choose : Nat → Params → Params)
    (vouched : Nat → Bool) : {top : Nat} → Segmented Lru top → Store → Prop
  | created {top : Nat} {s : Segmented Lru top} {st st' : Store}
    (h : (create p n (Lru.factory choose vouched)).run st = .ok (.ok ⟨top, s⟩) st') :
    Reached p n choose vouched s st'
  | performed {top : Nat} {s s' : Segmented Lru top} {st st' : Store} {op : Operation}
    {response : Response} (h : Reached p n choose vouched s st) (hop : ∀ r, op ≠ .insert r)
    (hy : (perform op).Yields s st response s' st') : Reached p n choose vouched s' st'

theorem calm_of_created {st₀ : Store}
    (hover : ∀ i < n.count,
      (choose i { p with capacity := n.share p.capacity i }).overhead ≤ p.overhead)
    (h : (create p n (Lru.factory choose vouched)).run st₀ = .ok (.ok ⟨top, s⟩) st) :
    Calm st s := by
  obtain ⟨-, hQ⟩ := leads_create (P := fun i q c => c.Fresh (choose i q))
    (fun i q st => Lru.leads_factory choose vouched i q st) p n _ _ h
  obtain ⟨hnew, hfresh, hparts⟩ := hQ ⟨top, s⟩ rfl
  dsimp only at hnew hfresh hparts
  refine .of_new hnew fun i => ?_
  obtain ⟨hi, hpart⟩ := segment_of_forall₂ hparts i
  refine ⟨?_, ?_, trivial⟩
  · change (s.segment i).params.overhead ≤ s.params.overhead
    rw [hpart.params, hfresh.params]
    exact hover i.val hi
  · rw [hfresh.limit]
    exact leastLimit_le (mem_toList_iff.mpr ⟨i, rfl⟩)

theorem Reached.calm (h : Reached p n choose vouched s st)
    (hover : ∀ i < n.count,
      (choose i { p with capacity := n.share p.capacity i }).overhead ≤ p.overhead) :
    Calm st s := by
  induction h with
  | created h => exact calm_of_created hover h
  | performed _ hop hy ih => exact (ensures_perform_calm ih hop).apply hy

/-- A hit below the hottest segment moves the object to the front of the next
segment and keeps the order of all others, but for those that leave at the cold
end. -/
theorem Reached.promotion_keeps_order (h : Reached p n choose vouched s st)
    (hover : ∀ i < n.count,
      (choose i { p with capacity := n.share p.capacity i }).overhead ≤ p.overhead)
    {r : Request} {op : Operation} (hop : op = .serve r ∨ op = .check r true)
    (hhit : (perform op).Yields s st (.found .hit) s' st') {i : Level top}
    (hi : s.segmentOf? st r.id = some i) (ht : i.val + 1 < top + 1) :
    ∃ o, (s.segment i).find? st r.id = some o ∧ Promoted o ⟨i.val + 1, ht⟩ s s' :=
  promoted_of_hit (h.calm hover) hop hhit hi ht

/-! ## Histories that compute -/

/-- Serves requests. Where one would fault, the cache stays as it is. -/
def serveAll : List Request → Segmented Lru top × Store → Segmented Lru top × Store
  | [], x => x
  | r :: rest, x =>
    match perform (.serve r) x.1 x.2 with
    | .ok (_, s) st => serveAll rest (s, st)
    | .error _ _ => serveAll rest x

theorem Reached.serveAll {x : Segmented Lru top × Store}
    (h : Reached p n choose vouched x.1 x.2) (l : List Request) :
    Reached p n choose vouched (serveAll l x).1 (serveAll l x).2 := by
  induction l generalizing x with
  | nil => exact h
  | cons r rest ih =>
    unfold Segmented.serveAll
    split
    next response s st hy =>
      apply ih
      exact .performed h (fun _ e => by cases e) hy
    next => exact ih h

/-- Builds a cache in an empty store, serves requests, and then one that hits.
Returns the states before and after the hit. -/
def trial (p : Params) (n : Segmentation) (choose : Nat → Params → Params) (l : List Request)
    (r : Request) : Option (Σ top, (Segmented Lru top × Store) × (Segmented Lru top × Store)) :=
  match (create p n (Lru.factory choose fun _ => false)).run {} with
  | .ok (.ok s) st =>
    match perform (.serve r) (serveAll l (s.2, st)).1 (serveAll l (s.2, st)).2 with
    | .ok (.found .hit, s') st' => some ⟨s.1, serveAll l (s.2, st), s', st'⟩
    | _ => none
  | _ => none

theorem reached_of_trial {l : List Request} {r : Request} {x y : Segmented Lru top × Store}
    (h : trial p n choose l r = some ⟨top, x, y⟩) :
    Reached p n choose (fun _ => false) x.1 x.2 ∧
      (perform (.serve r)).Yields x.1 x.2 (.found .hit) y.1 y.2 := by
  unfold trial at h
  split at h
  next s st hcreate =>
    split at h
    next s' st' hy =>
      obtain ⟨rfl, hxy⟩ := Sigma.mk.inj (Option.some.inj h)
      obtain ⟨rfl, rfl⟩ := Prod.mk.inj (eq_of_heq hxy)
      exact ⟨(Reached.created hcreate).serveAll l, hy⟩
    next => cases h
  next => cases h

/-- Three objects come to the front one after another, and a promotion pushes two of
them one level down and another out. -/
theorem promotion_cascades :
    ∃ (top : Nat) (s s' : Segmented Lru top) (st : Store) (i : Level top) (ht : i.val + 1 < top + 1)
      (o : CacheObject),
      Reached ⟨9, 0, 0⟩ ⟨3⟩ (fun _ p => p) (fun _ => false) s st ∧
      s.order = [(1, 1), (2, 2), (3, 1), (4, 2), (5, 1), (6, 2)] ∧
      s'.order = [(3, 1), (1, 1), (2, 2), (4, 2), (5, 1)] ∧
      (s.segment i).find? st 3 = some o ∧ Promoted o ⟨i.val + 1, ht⟩ s s' := by
  have h : (trial ⟨9, 0, 0⟩ ⟨3⟩ (fun _ p => p)
      [⟨2, 2, 0, none⟩, ⟨2, 2, 0, none⟩, ⟨2, 2, 0, none⟩, ⟨1, 1, 0, none⟩, ⟨1, 1, 0, none⟩,
        ⟨1, 1, 0, none⟩, ⟨4, 2, 0, none⟩, ⟨4, 2, 0, none⟩, ⟨3, 1, 0, none⟩, ⟨3, 1, 0, none⟩,
        ⟨6, 2, 0, none⟩, ⟨5, 1, 0, none⟩] ⟨3, 1, 0, none⟩).any (fun t =>
        (t.2.1.1.segmentOf? t.2.1.2 3).any (fun i => i.val + 1 < t.1 + 1) &&
        t.2.1.1.order == [(1, 1), (2, 2), (3, 1), (4, 2), (5, 1), (6, 2)] &&
        t.2.2.1.order == [(3, 1), (1, 1), (2, 2), (4, 2), (5, 1)]) = true := by
    decide +kernel
  obtain ⟨⟨top, x, y⟩, htrial, hcheck⟩ := (Option.any_eq_true _ _).mp h
  obtain ⟨hreached, hhit⟩ := reached_of_trial htrial
  rw [Bool.and_eq_true, Bool.and_eq_true, beq_iff_eq, beq_iff_eq] at hcheck
  obtain ⟨⟨hlevel, hbefore⟩, hafter⟩ := hcheck
  obtain ⟨i, hi, ht⟩ := (Option.any_eq_true _ _).mp hlevel
  obtain ⟨o, ho, hp⟩ := hreached.promotion_keeps_order (fun _ _ => UInt64.le_refl _) (.inl rfl) hhit hi
    (of_decide_eq_true ht)
  exact ⟨top, x.1, y.1, x.2, i, of_decide_eq_true ht, o, hreached, hbefore, hafter, ho, hp⟩

/-- A segment that charges more than the cache does may be unable to hold what it
is to be promoted to it, and then the object is lost. -/
theorem promotion_lost :
    ∃ (top : Nat) (s s' : Segmented Lru top) (st st' : Store) (i : Level top)
      (ht : i.val + 1 < top + 1),
      Reached ⟨20, 0, 0⟩ ⟨2⟩ (fun i p => if i = 1 then { p with overhead := 10 } else p)
        (fun _ => false) s st ∧
      (perform (.serve ⟨1, 10, 0, none⟩)).Yields s st (.found .hit) s' st' ∧
      s.segmentOf? st 1 = some i ∧ s.order = [(1, 10)] ∧ s'.order = [] ∧
      ∀ o, ¬ Promoted o ⟨i.val + 1, ht⟩ s s' := by
  have h : (trial ⟨20, 0, 0⟩ ⟨2⟩ (fun i p => if i = 1 then { p with overhead := 10 } else p)
      [⟨1, 10, 0, none⟩] ⟨1, 10, 0, none⟩).any (fun t =>
        (t.2.1.1.segmentOf? t.2.1.2 1).any (fun i => i.val + 1 < t.1 + 1) &&
        t.2.1.1.order == [(1, 10)] && t.2.2.1.order == []) = true := by
    decide +kernel
  obtain ⟨⟨top, x, y⟩, htrial, hcheck⟩ := (Option.any_eq_true _ _).mp h
  obtain ⟨hreached, hhit⟩ := reached_of_trial htrial
  rw [Bool.and_eq_true, Bool.and_eq_true, beq_iff_eq, beq_iff_eq] at hcheck
  obtain ⟨⟨hlevel, hbefore⟩, hafter⟩ := hcheck
  obtain ⟨i, hi, ht⟩ := (Option.any_eq_true _ _).mp hlevel
  refine ⟨top, x.1, y.1, x.2, y.2, i, of_decide_eq_true ht, hreached, hhit, hi, hbefore, hafter,
    fun o hp => ?_⟩
  have hin : (o.id, o.size) ∈ y.1.order :=
    mem_order_iff.mpr ⟨_, List.mem_of_mem_head? (Option.mem_def.mpr hp.front)⟩
  rw [hafter] at hin
  cases hin

end Segmented
end SegmentedCache
