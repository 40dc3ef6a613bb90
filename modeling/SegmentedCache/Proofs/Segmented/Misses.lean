import SegmentedCache.Proofs.Segmented.Histories
import SegmentedCache.Proofs.Segmented.Insertion
import SegmentedCache.Proofs.Segmented.Settings

/-!
# Requests that do not hit

A request that misses passes all segments by without a trace. One that finds an expired
object takes it out. In either case nothing is held under the id, and what the request
does then is an insertion.

So a run of requests that never hit reaches the segments above the coldest only for the
ids that it asks for. And an expired object that is admitted again goes where every new
object goes, to the coldest segment with room, which need not be the coldest of all.
-/
namespace SegmentedCache.Segmented
open SegmentedCache.Action Policy
variable {top : Nat} {s s₁ s' : Segmented Lru top} {st st₁ st' : Store} {i : Level top}
variable {r : Request} {res : Option CacheObject} {answer : Lookup}
variable {found : Option (Level top × Lookup)}

namespace Queues

/-- Taking an id out twice does no more than once. -/
theorem without_eq (h : Queues s (fun j => (s.segment j).without r.id) st₁ s₁) (j : Level top) :
    (s₁.segment j).without r.id = (s.segment j).without r.id := by
  unfold Lru.without
  rw [h.objects]
  unfold Lru.without
  rw [List.filter_filter]
  simp only [Bool.and_self]

theorem roomFor_iff (h : Queues s (fun j => (s.segment j).without r.id) st₁ s₁) (j : Level top) :
    (s₁.segment j).RoomFor r ↔ (s.segment j).RoomFor r := by
  unfold Lru.RoomFor
  rw [h.without_eq]
  exact Lru.fitsBeside_congr (h.params j)

end Queues

/-- A lookup that does not hit takes out what has the id, which has expired. -/
theorem queues_probe {l : List (Level top)} (h : Neat st s)
    (hl : ∀ i ∉ l, r.id ∉ held st (s.segment i))
    (hy : (probe r true l).Yields s st found s' st') (hmiss : outcome found ≠ .hit) :
    Queues s (fun j => (s.segment j).without r.id) st' s' ∧ s'.counters = s.counters := by
  induction l with
  | nil =>
    obtain ⟨-, rfl, rfl⟩ := yields_pure_iff.mp hy
    refine ⟨queues_of_notMem h fun hm => ?_, rfl⟩
    obtain ⟨i, hi⟩ := mem_held_iff.mp hm
    exact hl i List.not_mem_nil hi
  | cons level rest ih =>
    obtain ⟨answer, s₁, st₁, hcheck, hy⟩ := yields_bind_iff.mp hy
    obtain ⟨c, hc, rfl⟩ := yields_onSegment_iff.mp hcheck
    cases (Lru.ensures_check ((Queues.refl h).coherent level) r true).apply hc with
    | miss habsent =>
      rw [setSegment_segment] at hy
      refine ih (fun i hi => ?_) hy
      by_cases e : i = level
      · rw [e]
        exact Lru.notMem_held_iff.mpr habsent
      · exact hl i (by simp [e, hi])
    | expired hfound _ hs =>
      obtain ⟨-, rfl, rfl⟩ := yields_pure_iff.mp hy
      exact ⟨queues_of_sheds h hfound hs, rfl⟩
    | hit _ _ _ =>
      dsimp only at hy
      obtain ⟨_, s₂, st₂, -, hpure⟩ := yields_bind_iff.mp hy
      obtain ⟨rfl, -, -⟩ := yields_pure_iff.mp hpure
      exact absurd rfl hmiss

/-- A request that does not hit inserts its object if that is admissible, with nothing
under its id. -/
theorem serve_parts (h : Neat st s) (hy : (serve r).Yields s st answer s' st')
    (hmiss : answer ≠ .hit) :
    ∃ s₁ st₁, Queues s (fun j => (s.segment j).without r.id) st₁ s₁ ∧
      (canAdmit s r.size = true ∧ (∃ res, (insert r).Yields s₁ st₁ res s' st') ∨
        canAdmit s r.size = false ∧ s' = s₁) := by
  rw [serve_eq] at hy
  obtain ⟨found, s₁, st₁, hprobe, hrest⟩ := yields_bind_iff.mp hy
  obtain ⟨_, s₂, st₂, hrecord, hend⟩ := yields_bind_iff.mp hrest
  obtain ⟨counters, -, rfl, rfl⟩ := yields_record_iff.mp hrecord
  obtain rfl := answer_admission hend
  have hprobed := ((ensures_probe h.toSound r true _).apply hprobe).1
  have hreported := hprobed.trans (shrinks_report hprobed.toSound st₂.events counters)
  obtain ⟨hq, -⟩ := queues_probe h (fun i hi => absurd (List.mem_finRange i) hi) hprobe hmiss
  refine ⟨_, _, hq.counted counters, ?_⟩
  rw [← hreported.canAdmit_eq]
  unfold admission at hend
  rw [if_pos hmiss, yields_get_bind_iff] at hend
  split at hend
  next hle =>
    left
    refine ⟨decide_eq_true hle, ?_⟩
    obtain ⟨_, s₃, st₃, hinsert, hpure⟩ := yields_bind_iff.mp hend
    obtain ⟨-, rfl, rfl⟩ := yields_pure_iff.mp hpure
    exact yields_discard_iff.mp hinsert
  next hgt =>
    right
    refine ⟨decide_eq_false hgt, ?_⟩
    obtain ⟨_, s₃, st₃, hemit, hpure⟩ := yields_bind_iff.mp hend
    obtain ⟨-, rfl, rfl⟩ := yields_pure_iff.mp hpure
    exact (yields_emit_iff.mp hemit).1

/-! ## Scans -/

/-- Above the coldest segment, an insertion moves nothing but what has its id. -/
theorem Placed.filter_objects (h : Placed r s res s') (hi : 0 < i.val) {p : CacheObject → Bool}
    (hp : ∀ o, p o = true → o.id ≠ r.id) :
    (s'.segment i).objects.filter p = (s.segment i).objects.filter p := by
  have hrest := Lru.filter_without (c := s.segment i) hp
  cases h with
  | refused _ => rfl
  | @roomy _ o j _ made _ _ entered others _ _ =>
    by_cases e : i = j
    · have ho : ¬ p o = true := fun ho => hp o ho made.id
      rw [e, entered, List.filter_cons_of_neg ho, ← e, hrest]
    · rw [others i e, hrest]
  | crowded _ _ _ _ _ _ _ others _ _ => rw [others i hi, hrest]
  | barred _ _ _ _ others _ _ => rw [others i hi, hrest]

theorem filter_serve (h : Neat st s) (hy : (serve r).Yields s st answer s' st')
    (hmiss : answer ≠ .hit) (hi : 0 < i.val) {p : CacheObject → Bool}
    (hp : ∀ o, p o = true → o.id ≠ r.id) :
    (s'.segment i).objects.filter p = (s.segment i).objects.filter p := by
  obtain ⟨s₁, st₁, hq, hend⟩ := serve_parts h hy hmiss
  have hfirst : (s₁.segment i).objects.filter p = (s.segment i).objects.filter p := by
    rw [hq.objects]
    exact Lru.filter_without hp
  rw [← hfirst]
  rcases hend with ⟨-, res, hinsert⟩ | ⟨-, rfl⟩
  · exact (placed_insert hq.toNeat hinsert).filter_objects hi hp
  · rfl

/-- A run of requests that never hit leaves alone, above the coldest segment, what it does
not ask for. -/
theorem filter_performAll {rs : List Request} {responses : List Response} (h : Neat st s)
    (hy : (performAll (rs.map .serve)).Yields s st responses s' st')
    (hmiss : .found .hit ∉ responses) (hi : 0 < i.val) {p : CacheObject → Bool}
    (hp : ∀ o, p o = true → ∀ r ∈ rs, o.id ≠ r.id) :
    (s'.segment i).objects.filter p = (s.segment i).objects.filter p := by
  induction rs generalizing s st responses with
  | nil =>
    obtain ⟨-, rfl, rfl⟩ := yields_pure_iff.mp hy
    rfl
  | cons r rest ih =>
    obtain ⟨response, s₁, st₁, hop, hy⟩ := yields_bind_iff.mp hy
    obtain ⟨others, s₂, st₂, hrest, hpure⟩ := yields_bind_iff.mp hy
    obtain ⟨rfl, rfl, rfl⟩ := yields_pure_iff.mp hpure
    obtain ⟨answer, hserve, rfl⟩ := yields_map_iff.mp hop
    rw [List.mem_cons, not_or] at hmiss
    have hanswer : answer ≠ .hit := fun e => hmiss.1 (by rw [e])
    have hneat := h.of_kept ((ensures_serve h.toSound r).apply hserve).1
    exact (ih hneat hrest hmiss.2 fun o ho q hq => hp o ho q (List.mem_cons_of_mem _ hq)).trans
      (filter_serve h hserve hanswer hi fun o ho => hp o ho r List.mem_cons_self)

/-! ## Histories -/

section
variable {p : Params} {n : Segmentation} {choose : Nat → Params → Params} {vouched : Nat → Bool}
variable {s₀ : Segmented Lru top} {st₀ : Store} {ops : List Operation} {responses : List Response}

theorem neat_of_run
    (hcreate : (create p n (Lru.factory choose vouched)).run st₀ = .ok (.ok ⟨top, s₀⟩) st₁)
    (hrun : (performAll ops).Yields s₀ st₁ responses s st) : Neat st s := by
  obtain ⟨-, hnew⟩ := leads_create (P := fun i q c => c.Fresh (choose i q))
    (fun i q st => Lru.leads_factory choose vouched i q st) p n _ _ hcreate
  have hneat : Neat st₁ s₀ := .of_new (hnew ⟨top, s₀⟩ rfl).1
  exact hneat.of_kept (kept_performAll hneat.toSound hrun)

/-- What may be admitted is within the capacity of the coldest segment. -/
theorem limit_le_of_run
    (hcreate : (create p n (Lru.factory choose vouched)).run st₀ = .ok (.ok ⟨top, s₀⟩) st₁)
    (hrun : (performAll ops).Yields s₀ st₁ responses s st) :
    s.limit ≤ s.coldest.params.capacity := by
  obtain ⟨-, hnew⟩ := leads_create (P := fun i q c => c.Fresh (choose i q))
    (fun i q st => Lru.leads_factory choose vouched i q st) p n _ _ hcreate
  have hlimit : s₀.limit ≤ (s₀.segment 0).params.capacity := by
    rw [(hnew ⟨top, s₀⟩ rfl).2.1.limit]
    exact leastLimit_le (mem_toList_iff.mpr ⟨0, rfl⟩)
  obtain ⟨-, hrest⟩ := Prod.mk.inj ((constant_settings Lru.constant_params).performAll ops hrun)
  obtain ⟨hsame, hsegments⟩ := Prod.mk.inj hrest
  rwa [hsame, coldest_eq, congrFun hsegments 0]

end

/-- Makes a cache in an empty store, performs the operations on it, and then one more.
Returns the states in between, and the last response. -/
def lastOf (p : Params) (n : Segmentation) (choose : Nat → Params → Params)
    (ops : List Operation) (op : Operation) :
    Option (Σ top, (Segmented Lru top × Store) × (Segmented Lru top × Store) ×
      Response × Segmented Lru top × Store) :=
  match (create p n (Lru.factory choose fun _ => false)).run {} with
  | .ok (.ok s) st =>
    match performAll ops s.2 st with
    | .ok (_, s') st' =>
      match perform op s' st' with
      | .ok (response, s'') st'' => some ⟨s.1, (s.2, st), (s', st'), response, s'', st''⟩
      | .error _ _ => none
    | .error _ _ => none
  | _ => none

theorem run_of_lastOf {p : Params} {n : Segmentation} {choose : Nat → Params → Params}
    {ops : List Operation} {op : Operation} {x y z : Segmented Lru top × Store}
    {response : Response} (h : lastOf p n choose ops op = some ⟨top, x, y, response, z⟩) :
    (create p n (Lru.factory choose fun _ => false)).run {} = .ok (.ok ⟨top, x.1⟩) x.2 ∧
      (∃ responses, (performAll ops).Yields x.1 x.2 responses y.1 y.2) ∧
      (perform op).Yields y.1 y.2 response z.1 z.2 := by
  unfold lastOf at h
  split at h
  next s st hcreate =>
    split at h
    next responses s' st' hrun =>
      split at h
      next response s'' st'' hop =>
        obtain ⟨rfl, hall⟩ := Sigma.mk.inj (Option.some.inj h)
        obtain ⟨rfl, hlater⟩ := Prod.mk.inj (eq_of_heq hall)
        obtain ⟨rfl, hend⟩ := Prod.mk.inj hlater
        obtain ⟨rfl, rfl⟩ := Prod.mk.inj hend
        exact ⟨hcreate, ⟨responses, hrun⟩, hop⟩
      next => cases h
    next => cases h
  next => cases h

/-- What an insertion does, whatever has been done with the cache before, and that a run
of requests that never hit takes nothing else from the segments above the coldest. -/
theorem placed_of_run {p : Params} {n : Segmentation} {choose : Nat → Params → Params}
    {vouched : Nat → Bool} {s₀ : Segmented Lru top} {st₀ : Store} {ops : List Operation}
    {responses : List Response}
    (hcreate : (create p n (Lru.factory choose vouched)).run st₀ = .ok (.ok ⟨top, s₀⟩) st₁)
    (hrun : (performAll ops).Yields s₀ st₁ responses s st) :
    (∀ {r : Request} {res : Option CacheObject} {s' : Segmented Lru top} {st' : Store},
      (insert r).Yields s st res s' st' → Placed r s res s' ∧
        (res = none ↔ s.coldest.params.capacity < s.charge r.size ∨
          (∀ j, ¬ (s.segment j).RoomFor r) ∧
            s.coldest.params.capacity < s.coldest.charge r.size)) ∧
    ∀ {rs : List Request} {responses : List Response} {s' : Segmented Lru top} {st' : Store},
      (performAll (rs.map .serve)).Yields s st responses s' st' → .found .hit ∉ responses →
        ∀ i : Level top, 0 < i.val →
          (s'.segment i).objects.filter (fun o => o.id ∉ rs.map Request.id) =
            (s.segment i).objects.filter fun o => o.id ∉ rs.map Request.id := by
  have hneat := neat_of_run hcreate hrun
  constructor
  · intro r res s' st' hy
    have hplaced := placed_insert hneat hy
    exact ⟨hplaced, hplaced.eq_none_iff⟩
  · intro rs responses s' st' hy hmiss i hi
    refine filter_performAll hneat hy hmiss hi fun o ho r hr e => ?_
    exact of_decide_eq_true ho (List.mem_map.mpr ⟨r, hr, e.symm⟩)

/-- Two of the three objects in the coldest segment leave for a new one. -/
theorem placed_of_run_crowded :
    ∃ (top : Nat) (s₀ s s' : Segmented Lru top) (st₀ st st' : Store) (responses : List Response)
      (o : CacheObject),
      (create ⟨30, 0, 0⟩ ⟨3⟩ (Lru.factory (fun _ p => p) fun _ => false)).run {} =
        .ok (.ok ⟨top, s₀⟩) st₀ ∧
      (performAll [.serve ⟨1, 4, 0, none⟩, .serve ⟨2, 3, 0, none⟩, .serve ⟨3, 3, 0, none⟩,
        .serve ⟨4, 10, 0, none⟩, .serve ⟨5, 10, 0, none⟩]).Yields s₀ st₀ responses s st ∧
      (insert ⟨6, 6, 0, none⟩).Yields s st (some o) s' st' ∧
      s.order = [(5, 10), (4, 10), (3, 3), (2, 3), (1, 4)] ∧
      s'.order = [(5, 10), (4, 10), (6, 6), (3, 3)] ∧
      Placed ⟨6, 6, 0, none⟩ s (some o) s' := by
  have h : (lastOf ⟨30, 0, 0⟩ ⟨3⟩ (fun _ p => p) [.serve ⟨1, 4, 0, none⟩, .serve ⟨2, 3, 0, none⟩,
      .serve ⟨3, 3, 0, none⟩, .serve ⟨4, 10, 0, none⟩, .serve ⟨5, 10, 0, none⟩]
      (.insert ⟨6, 6, 0, none⟩)).any (fun t => decide (t.2.2.2.1 ≠ .object none) &&
        t.2.2.1.1.order == [(5, 10), (4, 10), (3, 3), (2, 3), (1, 4)] &&
        t.2.2.2.2.1.order == [(5, 10), (4, 10), (6, 6), (3, 3)]) = true := by
    decide +kernel
  obtain ⟨⟨top, x, y, response, z⟩, htrial, hcheck⟩ := (Option.any_eq_true _ _).mp h
  obtain ⟨hcreate, ⟨responses, hrun⟩, hlast⟩ := run_of_lastOf htrial
  obtain ⟨res, hinsert, rfl⟩ := yields_map_iff.mp hlast
  simp only [Bool.and_eq_true, decide_eq_true_eq, beq_iff_eq] at hcheck
  obtain ⟨⟨hsome, hbefore⟩, hafter⟩ := hcheck
  obtain ⟨o, rfl⟩ := Option.ne_none_iff_exists'.mp fun e => hsome (congrArg Response.object e)
  exact ⟨top, x.1, y.1, z.1, x.2, y.2, z.2, responses, o, hcreate, hrun, hinsert, hbefore, hafter,
    ((placed_of_run hcreate hrun).1 hinsert).1⟩

/-- Segments that charge more than the whole does. The object fits by the charge of the
whole, and no segment takes it. -/
theorem barred_by_segment :
    ∃ (top : Nat) (s s' : Segmented Lru top) (st st' : Store),
      (create ⟨20, 0, 0⟩ ⟨2⟩ (Lru.factory (fun _ p => { p with overhead := 10 })
        fun _ => false)).run {} = .ok (.ok ⟨top, s⟩) st ∧
      (insert ⟨1, 5, 0, none⟩).Yields s st none s' st' ∧
      s.charge 5 ≤ s.coldest.params.capacity := by
  have h : (lastOf ⟨20, 0, 0⟩ ⟨2⟩ (fun _ p => { p with overhead := 10 }) []
      (.insert ⟨1, 5, 0, none⟩)).any (fun t => decide (t.2.2.2.1 = .object none) &&
        decide (t.2.2.1.1.charge 5 ≤ t.2.2.1.1.coldest.params.capacity)) = true := by
    decide +kernel
  obtain ⟨⟨top, x, y, response, z⟩, htrial, hcheck⟩ := (Option.any_eq_true _ _).mp h
  obtain ⟨hcreate, ⟨responses, hrun⟩, hlast⟩ := run_of_lastOf htrial
  obtain ⟨-, hs, hst⟩ := yields_pure_iff.mp hrun
  obtain ⟨res, hinsert, rfl⟩ := yields_map_iff.mp hlast
  simp only [Bool.and_eq_true, decide_eq_true_eq] at hcheck
  obtain ⟨hnone, hfits⟩ := hcheck
  obtain rfl := Response.object.inj hnone
  rw [hs, hst] at hinsert
  rw [hs] at hfits
  exact ⟨top, x.1, z.1, x.2, z.2, hcreate, hinsert, hfits⟩

/-- An expired object that may be admitted comes back in the coldest segment that has room
once it is out. If no segment has room, it comes back in the coldest of all, unless that
one charges too much for it. -/
theorem readmitted_of_run {p : Params} {n : Segmentation} {choose : Nat → Params → Params}
    {vouched : Nat → Bool} {s₀ s' : Segmented Lru top} {st₀ st' : Store} {ops : List Operation}
    {responses : List Response} {r : Request}
    (hcreate : (create p n (Lru.factory choose vouched)).run st₀ = .ok (.ok ⟨top, s₀⟩) st₁)
    (hrun : (performAll ops).Yields s₀ st₁ responses s st)
    (hsmall : canAdmit s r.size = true) (hy : (serve r).Yields s st .expired s' st') :
    (∀ i, (s.segment i).RoomFor r → (∀ j < i, ¬ (s.segment j).RoomFor r) →
      s'.segmentOf? st' r.id = some i) ∧
    ((∀ j, ¬ (s.segment j).RoomFor r) → s'.segmentOf? st' r.id =
      if s.coldest.charge r.size ≤ s.coldest.params.capacity then some ⟨0, top.succ_pos⟩
      else none) := by
  have hneat := neat_of_run hcreate hrun
  have hneat' := hneat.of_kept ((ensures_serve hneat.toSound r).apply hy).1
  obtain ⟨s₁, st₁, hq, ⟨-, res, hinsert⟩ | ⟨hnot, -⟩⟩ :=
    serve_parts hneat hy (fun e => by cases e)
  · have hcold : s₁.coldest.params = s.coldest.params := hq.params 0
    have hfits : s₁.charge r.size ≤ s₁.coldest.params.capacity := by
      unfold Segmented.charge
      rw [hq.whole, hcold]
      exact UInt64.le_trans (of_decide_eq_true hsmall) (limit_le_of_run hcreate hrun)
    have hfound := (placed_insert hq.toNeat hinsert).segmentOf?_eq hneat' hfits
    unfold Lru.charge at hfound ⊢
    simpa only [hq.roomFor_iff, hcold] using hfound
  · rw [hsmall] at hnot
    cases hnot

/-- An object that expired in the hottest of three segments comes back in the middle one,
since the coldest is full. -/
theorem readmitted_of_run_halfway :
    ∃ (top : Nat) (s₀ s s' : Segmented Lru top) (st₀ st st' : Store) (responses : List Response)
      (i j : Level top),
      (create ⟨30, 0, 0⟩ ⟨3⟩ (Lru.factory (fun _ p => p) fun _ => false)).run {} =
        .ok (.ok ⟨top, s₀⟩) st₀ ∧
      (performAll [.serve ⟨1, 10, 0, some 5⟩, .serve ⟨1, 10, 1, none⟩, .serve ⟨1, 10, 2, none⟩,
        .serve ⟨2, 10, 3, none⟩]).Yields s₀ st₀ responses s st ∧
      canAdmit s 10 = true ∧ (serve ⟨1, 10, 5, none⟩).Yields s st .expired s' st' ∧
      s.segmentOf? st 1 = some i ∧ i.val = 2 ∧ s'.segmentOf? st' 1 = some j ∧ j.val = 1 := by
  have h : (lastOf ⟨30, 0, 0⟩ ⟨3⟩ (fun _ p => p) [.serve ⟨1, 10, 0, some 5⟩,
      .serve ⟨1, 10, 1, none⟩, .serve ⟨1, 10, 2, none⟩, .serve ⟨2, 10, 3, none⟩]
      (.serve ⟨1, 10, 5, none⟩)).any (fun t => decide (t.2.2.2.1 = .found .expired) &&
        canAdmit t.2.2.1.1 10 && (t.2.2.1.1.segmentOf? t.2.2.1.2 1).any (fun i => i.val == 2) &&
        (levels t.1).any fun i => i.val == 1 &&
          decide ((t.2.2.1.1.segment i).RoomFor ⟨1, 10, 5, none⟩) &&
          (levels t.1).all fun j => decide (i ≤ j) ||
            decide (¬ (t.2.2.1.1.segment j).RoomFor ⟨1, 10, 5, none⟩)) = true := by
    decide +kernel
  obtain ⟨⟨top, x, y, response, z⟩, htrial, hcheck⟩ := (Option.any_eq_true _ _).mp h
  obtain ⟨hcreate, ⟨responses, hrun⟩, hlast⟩ := run_of_lastOf htrial
  simp only [Bool.and_eq_true, decide_eq_true_eq] at hcheck
  obtain ⟨⟨⟨rfl, hsmall⟩, hwas⟩, hlevel⟩ := hcheck
  obtain ⟨answer, hserve, hanswer⟩ := yields_map_iff.mp hlast
  obtain rfl := Response.found.inj hanswer
  obtain ⟨i, hi, htwo⟩ := (Option.any_eq_true _ _).mp hwas
  obtain ⟨j, -, hj⟩ := List.any_eq_true.mp hlevel
  simp only [Bool.and_eq_true, decide_eq_true_eq, beq_iff_eq, List.all_eq_true, Bool.or_eq_true]
    at hj
  obtain ⟨⟨hone, hroom⟩, hcolder⟩ := hj
  have hback := (readmitted_of_run (r := ⟨1, 10, 5, none⟩) hcreate hrun hsmall hserve).1 j hroom
    fun k hk => (hcolder k (List.mem_finRange k)).resolve_left (not_le_of_gt hk)
  exact ⟨top, x.1, y.1, z.1, x.2, y.2, z.2, responses, i, j, hcreate, hrun, hsmall, hserve, hi,
    beq_iff_eq.mp htwo, hback, hone⟩

/-- An object that expired in the upper of two segments comes back there, as the coldest
is full. -/
theorem readmitted_above :
    ∃ (top : Nat) (s₀ s s' : Segmented Lru top) (st₀ st st' : Store) (responses : List Response)
      (i : Level top),
      (create ⟨20, 0, 0⟩ ⟨2⟩ (Lru.factory (fun _ p => p) fun _ => false)).run {} =
        .ok (.ok ⟨top, s₀⟩) st₀ ∧
      (performAll [.serve ⟨1, 10, 0, some 5⟩, .serve ⟨1, 10, 1, none⟩,
        .serve ⟨2, 10, 2, none⟩]).Yields s₀ st₀ responses s st ∧
      canAdmit s 10 = true ∧ (serve ⟨1, 10, 5, none⟩).Yields s st .expired s' st' ∧
      s'.segmentOf? st' 1 = some i ∧ 0 < i.val := by
  have h : (lastOf ⟨20, 0, 0⟩ ⟨2⟩ (fun _ p => p) [.serve ⟨1, 10, 0, some 5⟩,
      .serve ⟨1, 10, 1, none⟩, .serve ⟨2, 10, 2, none⟩] (.serve ⟨1, 10, 5, none⟩)).any (fun t =>
        decide (t.2.2.2.1 = .found .expired) && canAdmit t.2.2.1.1 10 &&
        (t.2.2.2.2.1.segmentOf? t.2.2.2.2.2 1).any fun i => decide (0 < i.val)) = true := by
    decide +kernel
  obtain ⟨⟨top, x, y, response, z⟩, htrial, hcheck⟩ := (Option.any_eq_true _ _).mp h
  obtain ⟨hcreate, ⟨responses, hrun⟩, hlast⟩ := run_of_lastOf htrial
  simp only [Bool.and_eq_true, decide_eq_true_eq] at hcheck
  obtain ⟨⟨rfl, hsmall⟩, hback⟩ := hcheck
  obtain ⟨answer, hserve, hanswer⟩ := yields_map_iff.mp hlast
  obtain rfl := Response.found.inj hanswer
  obtain ⟨i, hi, hpos⟩ := (Option.any_eq_true _ _).mp hback
  exact ⟨top, x.1, y.1, z.1, x.2, y.2, z.2, responses, i, hcreate, hrun, hsmall, hserve, hi,
    of_decide_eq_true hpos⟩

end SegmentedCache.Segmented
