import SegmentedCache.Proofs.Segmented.Demotions

/-!
# Segmented policies of lawful segments are lawful

A promotion takes the object out before it makes room, and an insertion takes
out the object it replaces, so the id that is admitted is held nowhere at that
moment. This is where the segments' ids stay apart; everything else an operation
does only removes ids.
-/
namespace SegmentedCache.Segmented
open SegmentedCache.Action Policy
variable {C : Type} {top : Nat} [Policy C] [Lawful C]
variable {st st' : Store} {s s' : Segmented C top} {id : ObjectId}

/-! ## Where an id is held, and how much -/

theorem mem_held_of_segmentOf? {i : Level top} (h : s.segmentOf? st id = some i) :
    id ∈ held st (s.segment i) := by
  have hc := List.find?_some h
  exact (Lawful.contains_iff st _ id).mp hc

theorem segmentOf?_eq_none_iff : s.segmentOf? st id = none ↔ id ∉ held st s := by
  rw [mem_held_iff]
  unfold segmentOf?
  simp only [List.find?_eq_none, Lawful.contains_iff, not_exists]
  exact ⟨fun h i => h i (List.mem_finRange i), fun h i _ => h i⟩

/-- In a sound cache the segment found is the only one that holds the id. -/
theorem segmentOf?_eq_some_iff (h : Sound st s) {i : Level top} :
    s.segmentOf? st id = some i ↔ id ∈ held st (s.segment i) := by
  refine ⟨mem_held_of_segmentOf?, fun hi => ?_⟩
  cases hf : s.segmentOf? st id with
  | none => exact absurd (mem_held_iff.mpr ⟨i, hi⟩) (segmentOf?_eq_none_iff.mp hf)
  | some j =>
    have hj := mem_held_of_segmentOf? hf
    by_cases e : j = i
    · rw [e]
    · obtain ⟨d, hd, hid⟩ := hi
      exact absurd ⟨d, mem_others (Ne.symm e) hd, hid⟩ (notMem_others h hj)

theorem sums_occupiedFrom (l : List C) (total : Bytes) :
    Word.Sums (l.foldlM (fun total c => do
      let bytes ← Policy.occupied c
      Word.add total bytes) total) := by
  induction l generalizing total with
  | nil => exact Word.sums_pure total
  | cons c l ih =>
    rw [List.foldlM_cons]
    have hc : Word.Sums (do
        let bytes ← Policy.occupied c
        Word.add total bytes) := (Lawful.sums_occupied c).bind fun bytes => Word.sums_add total bytes
    exact hc.bind fun total => ih total

omit [Lawful C] in
theorem occupiedFrom_le {l : List C} (total : Bytes)
    (hl : ∀ c ∈ l, ∃ bytes, Policy.occupied c = .ok bytes ∧ bytes ≤ Policy.capacity c)
    (hlt : total.toNat + (l.map fun c => (Policy.capacity c).toNat).sum < UInt64.size) :
    ∃ bytes, (l.foldlM (fun total c => do
        let bytes ← Policy.occupied c
        Word.add total bytes) total) = .ok bytes ∧
      bytes.toNat ≤ total.toNat + (l.map fun c => (Policy.capacity c).toNat).sum := by
  induction l generalizing total with
  | nil => exact ⟨total, rfl, Nat.le_add_right ..⟩
  | cons c l ih =>
    obtain ⟨b, hb, hle⟩ := hl c List.mem_cons_self
    have hle := UInt64.le_iff_toNat_le.mp hle
    rw [List.map_cons, List.sum_cons] at hlt ⊢
    have hsum : (total + b).toNat = total.toNat + b.toNat := Word.toNat_add_of_lt (by omega)
    have hadd : Word.add total b = .ok (total + b) := Word.add_eq_ok_iff.mpr hsum.symm
    obtain ⟨bytes, hbytes, hble⟩ := ih (total + b)
      (fun d hd => hl d (List.mem_cons_of_mem _ hd)) (by omega)
    refine ⟨bytes, ?_, by omega⟩
    rw [List.foldlM_cons, hb]
    change (Word.add total b >>= _) = _
    rw [hadd]
    exact hbytes

/-! ## Promotion -/

theorem ensures_promote (h : Sound st s) (r : Request) (level dest : Level top)
    (hid : r.id ∉ Lru.held st (others s level)) :
    (promote r level dest).Ensures s st fun _ s' st' => Shrinks st s st' s' := by
  unfold promote
  rw [ensures_bind_iff]
  apply (ensures_removeAt h level hid).mono
  intro removed s₁ st₁ hk
  obtain ⟨hs₁, hgone, ho⟩ := hk
  cases removed with
  | none => exact hs₁
  | some o =>
    obtain ⟨hoid, hostock⟩ := ho o rfl
    dsimp only
    rw [ensures_bind_iff]
    apply (ensures_makeRoom hs₁.toSound dest _).mono
    intro _ s₂ st₂ hs₂
    have hs := hs₁.trans hs₂
    rw [ensures_get_bind]
    apply ensures_checked_bind (sums_hasRoomAt s₂ dest _)
    intro room _
    split
    · have hothers : (Request.readmitting o r.time).id ∉ Lru.held st₂ (others s₂ dest) := by
        change o.id ∉ _
        rw [hoid]
        intro hm
        refine hgone (hs₂.held_subset ?_)
        rw [held_eq st₂ s₂ dest]
        exact .inr hm
      rw [ensures_bind_iff, ensures_discard]
      apply (ensures_insertAt hs.toSound dest hothers).mono
      intro _ s₃ st₃ hk
      rw [ensures_bind_iff]
      apply ensures_record SegmentedCounters.sums_recordPromotion
      intro counters _
      have hr := shrinks_report hk.1.toSound (st₃.events.push
        (.promoted (Request.readmitting o r.time).id dest)) counters
      -- What is admitted was in stock before it was taken out.
      refine ⟨(hs.toKept.trans hk.1).trans hr.toKept, hr.stock_subset.trans (hk.2.trans ?_)⟩
      exact Set.union_subset hs.stock_subset (Set.singleton_subset_iff.mpr hostock)
    · rw [ensures_emit_bind]
      apply ensures_recordCore Counters.sums_recordEviction
      intro counters _
      exact hs.trans (shrinks_report hs.toSound (st₂.events.push
        (.promotionDropped (Request.readmitting o r.time).id dest)) counters)

theorem ensures_promoteFrom (h : Sound st s) (r : Request) (level : Level top)
    (hid : r.id ∉ Lru.held st (others s level)) :
    (promoteFrom r level).Ensures s st fun _ s' st' => Shrinks st s st' s' := by
  unfold promoteFrom
  split
  · exact ensures_promote h r level _ hid
  · exact Shrinks.refl h

theorem ensures_probe (h : Sound st s) (r : Request) (update : Bool) (l : List (Level top)) :
    (probe r update l).Ensures s st fun found s' st' => Shrinks st s st' s' ∧
      ∀ i, found = some (i, .hit) → r.id ∈ held st s := by
  induction l generalizing s st with
  | nil => exact ⟨Shrinks.refl h, fun i hi => by cases hi⟩
  | cons level rest ih =>
    unfold probe
    rw [ensures_bind_iff]
    apply (ensures_checkAt h level r update).mono
    intro found s₁ st₁ hk
    obtain ⟨hs₁, hhit⟩ := hk
    cases found with
    | miss =>
      apply (ih hs₁.toSound).mono
      intro found s' st' hk
      exact ⟨hs₁.trans hk.1, fun i hi => hs₁.held_subset (hk.2 i hi)⟩
    | expired => exact ⟨hs₁, fun i hi => by cases hi⟩
    | hit =>
      obtain ⟨hin, hout⟩ := hhit rfl
      dsimp only
      split
      · rw [ensures_bind_iff]
        apply (ensures_promoteFrom hs₁.toSound r level hout).mono
        intro _ s₂ st₂ hs₂
        exact ⟨hs₁.trans hs₂, fun _ _ => hin⟩
      · exact ⟨hs₁, fun _ _ => hin⟩

/-- The answer of a lookup, where the id may be in no segment. -/
def outcome (found : Option (Level top × Lookup)) : Lookup := found.elim .miss Prod.snd

omit [Lawful C] in
/-- A lookup is a probe of all levels. -/
theorem check_eq (r : Request) (update : Bool) :
    (check r update : Action (Segmented C top) Lookup) =
      outcome <$> probe r update (levels top) := by
  unfold check
  rw [map_eq_pure_bind]
  congr 1
  funext found
  cases found <;> rfl

theorem ensures_check (h : Sound st s) (r : Request) (update : Bool) :
    (check r update).Ensures s st fun found s' st' => Shrinks st s st' s' ∧
      (found = .hit → r.id ∈ held st s) := by
  rw [check_eq, ensures_map]
  apply (ensures_probe h r update _).mono
  intro found s' st' hk
  cases found with
  | none => exact ⟨hk.1, fun hf => by cases hf⟩
  | some p =>
    obtain ⟨i, found⟩ := p
    refine ⟨hk.1, fun hf => hk.2 i ?_⟩
    rw [show found = .hit from hf]

/-! ## Insertion, eviction, removal -/

theorem ensures_evict (h : Sound st s) :
    (evict : Action (Segmented C top) _).Ensures s st fun victim s' st' => Shrinks st s st' s' ∧
      ∀ o, victim = some o → (o.id, o.size) ∈ stock st s ∧ o.id ∉ held st' s' := by
  unfold evict
  rw [ensures_bind_iff]
  apply (ensures_evictAt h 0).mono
  intro victim s₁ st₁ hk
  obtain ⟨hs, hv⟩ := hk
  cases victim with
  | none => exact ⟨hs, fun o ho => by cases ho⟩
  | some v =>
    dsimp only
    rw [ensures_bind_iff]
    apply ensures_recordCore Counters.sums_recordEviction
    intro counters _
    exact ⟨hs.trans (shrinks_report hs.toSound _ counters), hv⟩

theorem ensures_evictUntilRoom (size : Bytes) (fuel : Nat) (h : Sound st s) :
    (evictUntilRoom size fuel).Ensures s st fun _ s' st' => Shrinks st s st' s' := by
  induction fuel generalizing s st with
  | zero => exact Shrinks.refl h
  | succ fuel ih =>
    unfold evictUntilRoom
    rw [ensures_get_bind]
    apply ensures_checked_bind (sums_hasRoomAt s 0 size)
    intro room _
    split
    · exact Shrinks.refl h
    · rw [ensures_bind_iff]
      apply (ensures_evict h).mono
      intro victim s₁ st₁ hk
      cases victim with
      | none => exact hk.1
      | some v => exact (ih hk.1.toSound).mono fun _ s' st' hk' => hk.1.trans hk'

theorem ensures_displace (h : Sound st s) (id : ObjectId) :
    (displace id).Ensures s st fun _ s' st' => Shrinks st s st' s' ∧ id ∉ held st' s' := by
  unfold displace
  rw [ensures_get_bind, ensures_getThe_bind]
  cases hf : s.segmentOf? st id with
  | none => exact ⟨Shrinks.refl h, segmentOf?_eq_none_iff.mp hf⟩
  | some level =>
    dsimp only
    rw [ensures_discard]
    refine (ensures_removeAt h level (notMem_others h (mem_held_of_segmentOf? hf))).mono
      fun removed s' st' hk => ?_
    exact ⟨hk.1, hk.2.1⟩

theorem sums_firstWithRoom (s : Segmented C top) (size : Bytes) (l : List (Level top)) :
    Word.Sums (s.firstWithRoom size l) := by
  induction l with
  | nil => exact Word.sums_pure none
  | cons i rest ih =>
    apply (sums_hasRoomAt s i size).bind
    intro room
    split
    · exact Word.sums_pure _
    · exact ih

theorem ensures_levelFor (h : Sound st s) (size : Bytes) :
    (levelFor size).Ensures s st fun _ s' st' => Shrinks st s st' s' := by
  unfold levelFor
  rw [ensures_get_bind]
  apply ensures_checked_bind (sums_firstWithRoom s size _)
  intro found _
  dsimp only
  split
  · rw [ensures_bind_iff]
    exact (ensures_evictUntilRoom size _ h).mono fun _ s' st' hk => hk
  · exact Shrinks.refl h

theorem ensures_insert (h : Sound st s) (r : Request) :
    (insert r).Ensures s st fun _ s' st' =>
      Kept st s st' s' ∧ stock st' s' ⊆ stock st s ∪ {(r.id, r.size)} := by
  unfold insert
  rw [ensures_get_bind]
  dsimp only
  split
  · rw [ensures_emit_bind, ensures_pure]
    exact ⟨Kept.events h _, Set.subset_union_left⟩
  · rw [ensures_bind_iff]
    apply (ensures_displace h r.id).mono
    intro _ s₁ st₁ hk₁
    rw [ensures_bind_iff]
    apply (ensures_levelFor hk₁.1.toSound r.size).mono
    intro level s₂ st₂ hs₂
    have hs := hk₁.1.trans hs₂
    have hothers : r.id ∉ Lru.held st₂ (others s₂ level) := by
      intro hm
      refine hk₁.2 (hs₂.held_subset ?_)
      rw [held_eq st₂ s₂ level]
      exact .inr hm
    rw [ensures_bind_iff]
    apply (ensures_insertAt hs.toSound level hothers).mono
    intro res s₃ st₃ hk₃
    have hk := hs.toKept.trans hk₃.1
    have hsub := hk₃.2.trans (Set.union_subset_union_left {(r.id, r.size)} hs.stock_subset)
    cases res with
    | none => exact ⟨hk, hsub⟩
    | some o =>
      dsimp only
      rw [ensures_bind_iff]
      apply ensures_recordCore (fun k => k.sums_recordInsertion r.size)
      intro counters _
      have hr := shrinks_report hk.toSound st₃.events counters
      exact ⟨hk.trans hr.toKept, hr.stock_subset.trans hsub⟩

theorem ensures_remove (h : Sound st s) (id : ObjectId) :
    (remove id).Ensures s st fun removed s' st' => Shrinks st s st' s' ∧
      id ∉ held st' s' ∧ ∀ o, removed = some o → o.id = id ∧ (o.id, o.size) ∈ stock st s := by
  unfold remove
  rw [ensures_get_bind, ensures_getThe_bind]
  cases hf : s.segmentOf? st id with
  | none =>
    dsimp only
    rw [ensures_emit_bind, ensures_pure]
    have hs := Shrinks.events h (st.events.push (.notCached id))
    exact ⟨hs, fun hid => segmentOf?_eq_none_iff.mp hf (hs.held_subset hid), fun o ho => by cases ho⟩
  | some level =>
    dsimp only
    rw [ensures_bind_iff]
    refine (ensures_removeAt h level (notMem_others h (mem_held_of_segmentOf? hf))).mono
      fun removed s₁ st₁ hk => ?_
    obtain ⟨hs, hgone, ho⟩ := hk
    rw [ensures_bind_iff]
    apply ensures_record SegmentedCounters.sums_recordRemoval
    intro counters _
    have hr := shrinks_report hs.toSound st₁.events counters
    exact ⟨hs.trans hr, fun hid => hgone (hr.held_subset hid), ho⟩

theorem ensures_releaseAll (h : Lru.Together st (leaves s)) (l : List (Level top)) :
    (releaseAll l).Ensures s st fun _ s' st' =>
      Lru.Together st' (leaves s') ∧ Lru.Confined st (leaves s) st' (leaves s') := by
  induction l generalizing s st with
  | nil => exact ⟨h, Lru.Confined.refl st _⟩
  | cons level rest ih =>
    unfold releaseAll
    rw [ensures_bind_iff]
    apply (ensures_releaseAt h level).mono
    intro _ s₁ st₁ hk
    exact (ih hk.1).mono fun _ s' st' hk' => ⟨hk'.1, hk.2.trans hk'.2⟩

/-! ## Requests -/

/-- What is counted for a request, by what its lookup found. -/
def tally (found : Option (Level top × Lookup)) (size : Bytes) (k : SegmentedCounters) :
    Except Fault SegmentedCounters :=
  match found with
  | some (level, .hit) => k.recordSegmentHit level size
  | some (_, .expired) => k.onCore (·.recordExpired size)
  | _ => k.onCore (·.recordMiss size)

/-- The end of a request: unless it was a hit, the object is inserted if its charge
is within the limit. -/
def admission (r : Request) (answer : Lookup) : Action (Segmented C top) Lookup := do
  if answer ≠ .hit then
    let s ← get
    if s.charge r.size ≤ s.limit then discard <| insert r
    else CacheM.emit (.notAdmittedAbove r.id r.size s.limit)
  pure answer

omit [Lawful C] in
/-- A request is a lookup, a count and an admission. -/
theorem serve_eq (r : Request) :
    (serve r : Action (Segmented C top) Lookup) = (do
      let found ← probe r true (levels top)
      record (tally found r.size)
      admission r (outcome found)) := by
  unfold serve
  congr 1
  funext found
  match found with
  | none => rfl
  | some (_, .hit) => rfl
  | some (_, .expired) => rfl
  | some (_, .miss) => rfl

omit [Lawful C] in
/-- An admission leaves the answer of the lookup as it was. -/
theorem answer_admission {r : Request} {answer found : Lookup}
    (hy : (admission r answer).Yields s st found s' st') : found = answer := by
  unfold admission at hy
  split at hy
  · rw [yields_get_bind_iff] at hy
    split at hy
    · obtain ⟨_, s₁, st₁, -, h₁⟩ := yields_bind_iff.mp hy
      exact (yields_pure_iff.mp h₁).1
    · obtain ⟨_, s₁, st₁, -, h₁⟩ := yields_bind_iff.mp hy
      exact (yields_pure_iff.mp h₁).1
  · exact (yields_pure_iff.mp hy).1

theorem sums_tally (found : Option (Level top × Lookup)) (size : Bytes) (k : SegmentedCounters) :
    Word.Sums (tally found size k) := by
  unfold tally
  split
  · exact k.sums_recordSegmentHit _ size
  · exact SegmentedCounters.sums_onCore (fun k => k.sums_recordExpired size) k
  · exact SegmentedCounters.sums_onCore (fun k => k.sums_recordMiss size) k

theorem ensures_admission (h : Sound st s) (r : Request) (answer : Lookup) :
    (admission r answer).Ensures s st fun _ s' st' => Kept st s st' s' ∧
      stock st' s' ⊆ stock st s ∪ {x | x = (r.id, r.size) ∧ canAdmit s r.size} := by
  unfold admission
  split
  · rw [ensures_get_bind]
    split
    next hle =>
      rw [ensures_bind_iff, ensures_discard]
      refine (ensures_insert h r).mono fun _ s' st' hk => ⟨hk.1, hk.2.trans ?_⟩
      exact Set.union_subset_union_right _ fun x hx => ⟨hx, decide_eq_true hle⟩
    next =>
      rw [ensures_emit_bind, ensures_pure]
      exact ⟨Kept.events h _, Set.subset_union_left⟩
  · exact ⟨Kept.refl h, Set.subset_union_left⟩

theorem ensures_serve (h : Sound st s) (r : Request) :
    (serve r).Ensures s st fun _ s' st' => Kept st s st' s' ∧
      stock st' s' ⊆ stock st s ∪ {x | x = (r.id, r.size) ∧ canAdmit s r.size} := by
  rw [serve_eq, ensures_bind_iff]
  apply (ensures_probe h r true _).mono
  intro found s₁ st₁ hk₁
  rw [ensures_bind_iff]
  apply ensures_record (sums_tally found r.size)
  intro counters _
  have hk := hk₁.1.trans (shrinks_report hk₁.1.toSound st₁.events counters)
  apply (ensures_admission hk.toSound r (outcome found)).mono
  intro _ s' st' hend
  rw [hk.canAdmit_eq] at hend
  exact ⟨hk.toKept.trans hend.1, hend.2.trans (Set.union_subset_union_left _ hk.stock_subset)⟩

instance lawful : Lawful (Segmented C top) where
  contains_iff st s id := by
    change (s.segmentOf? st id).isSome = true ↔ _
    rw [Option.isSome_iff_ne_none, ne_eq, segmentOf?_eq_none_iff, not_not]
  sums_occupied s := sums_occupiedFrom _ _
  occupied_le {s} h hf := by
    have hlt := s.params.capacity.toNat_lt_size
    obtain ⟨bytes, hb, hle⟩ := occupiedFrom_le (l := s.segments.toList) 0
      (fun c hc => Lawful.occupied_le (fun d hd => h d (List.mem_flatMap.mpr ⟨c, hc, hd⟩)) (hf.2 c hc))
      (by
        rw [UInt64.toNat_zero, Nat.zero_add]
        exact Nat.lt_of_le_of_lt hf.1 hlt)
    refine ⟨bytes, hb, UInt64.le_iff_toNat_le.mpr (hle.trans ?_)⟩
    rw [UInt64.toNat_zero, Nat.zero_add]
    exact hf.1
  ensures_check h r update := ensures_check h r update
  ensures_serve h r := ensures_serve h r
  ensures_insert h r := ensures_insert h r
  ensures_evict h := ensures_evict h
  ensures_remove h id := ensures_remove h id
  ensures_release h := ensures_releaseAll h (levels top)

end SegmentedCache.Segmented
