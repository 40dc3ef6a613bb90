import SegmentedCache.Proofs.Segmented.Levels

/-!
# Demotions keep a segmented cache sound

While a level is cooled, the objects on their way down are held by no segment,
and no two of them have the same id. So each of them may be admitted wherever it
waits, and no pass brings in an id from elsewhere: what a cache holds and what
waits, taken together, only shrinks (`Moves`).
-/
namespace SegmentedCache.Segmented
open SegmentedCache.Action Policy
variable {C : Type} {top : Nat} [Policy C] [Lawful C]
variable {st st' st'' : Store} {s s' s'' : Segmented C top}
variable {pending pending' pending'' : List (Demotion top)} {time : Time}

/-- The ids and sizes of the objects on their way down. -/
def waiting (pending : List (Demotion top)) : Set (ObjectId × Bytes) :=
  {x | ∃ d ∈ pending, (d.2.id, d.2.size) = x}

theorem waiting_cons (d : Demotion top) (pending : List (Demotion top)) :
    waiting (d :: pending) = {(d.2.id, d.2.size)} ∪ waiting pending := by
  ext x
  simp [waiting, eq_comm]

@[simp] theorem waiting_nil : waiting ([] : List (Demotion top)) = ∅ := by
  ext x
  simp [waiting]

/-- The objects on their way down have different ids, which no segment holds. -/
structure Waits (st : Store) (s : Segmented C top) (pending : List (Demotion top)) : Prop where
  nodup : (pending.map fun d => d.2.id).Nodup
  absent : ∀ d ∈ pending, d.2.id ∉ held st s

/-- Work that turned the demotions `pending` into `pending'`. -/
structure Moves (st : Store) (s : Segmented C top) (pending : List (Demotion top)) (st' : Store)
    (s' : Segmented C top) (pending' : List (Demotion top)) : Prop
    extends Kept st s st' s', Waits st' s' pending' where
  subset : stock st' s' ∪ waiting pending' ⊆ stock st s ∪ waiting pending

theorem Waits.nil (st : Store) (s : Segmented C top) : Waits st s [] :=
  ⟨List.nodup_nil, fun _ hd => absurd hd List.not_mem_nil⟩

theorem Moves.refl (h : Sound st s) (hw : Waits st s pending) : Moves st s pending st s pending :=
  ⟨Kept.refl h, hw, subset_rfl⟩

theorem Moves.trans (h : Moves st s pending st' s' pending')
    (k : Moves st' s' pending' st'' s'' pending'') : Moves st s pending st'' s'' pending'' :=
  ⟨h.toKept.trans k.toKept, k.toWaits, k.subset.trans h.subset⟩

/-- Work that brings no id in, while some demotions are given up. -/
theorem Moves.of_shrinks (h : Shrinks st s st' s') (hw : Waits st s pending)
    (hsub : pending'.Sublist pending) : Moves st s pending st' s' pending' := by
  have hwait : waiting pending' ⊆ waiting pending := by
    intro x hx
    obtain ⟨d, hd, e⟩ := hx
    exact ⟨d, hsub.subset hd, e⟩
  refine ⟨h.toKept, ⟨hw.nodup.sublist (hsub.map _), fun d hd hid => ?_⟩,
    Set.union_subset_union h.stock_subset hwait⟩
  exact hw.absent d (hsub.subset hd) (h.held_subset hid)

theorem ensures_demote (h : Sound st s) (hw : Waits st s pending) (level : Level top) :
    (demote time level pending).Ensures s st fun pending' s' st' =>
      Moves st s pending st' s' pending' := by
  unfold demote
  rw [ensures_bind_iff]
  apply (ensures_evictAt h level).mono
  intro victim s₁ st₁ hk
  obtain ⟨hs, hv⟩ := hk
  cases victim with
  | none =>
    cases pending with
    | nil => exact Moves.of_shrinks hs hw (.refl _)
    | cons d rest =>
      dsimp only
      rw [ensures_emit_bind, ensures_bind_iff]
      apply ensures_record SegmentedCounters.sums_recordCoolingDrop
      intro counters _
      exact Moves.of_shrinks (hs.trans (shrinks_report hs.toSound _ counters)) hw
        (List.sublist_cons_self _ _)
  | some v =>
    obtain ⟨hin, hout⟩ := hv v rfl
    obtain ⟨level, hlevel⟩ := level
    cases level with
    | zero =>
      dsimp only
      rw [ensures_bind_iff]
      apply ensures_recordCore Counters.sums_recordEviction
      intro counters _
      exact Moves.of_shrinks (hs.trans (shrinks_report hs.toSound _ counters)) hw (.refl _)
    | succ below =>
      dsimp only
      rw [ensures_bind_iff]
      apply ensures_record SegmentedCounters.sums_recordDemotion
      intro counters _
      rw [ensures_emit_bind, ensures_pure]
      have hs' := hs.trans (shrinks_report hs.toSound
        (st₁.events.push (.demoted v.id below)) counters)
      have hm := Moves.of_shrinks hs' hw (.refl pending)
      refine ⟨hm.toKept, ⟨?_, fun d hd => ?_⟩, ?_⟩
      · rw [List.map_cons, List.nodup_cons]
        -- The victim was held, so no other demotion has its id.
        refine ⟨fun hid => ?_, hw.nodup⟩
        obtain ⟨d, hd, e⟩ := List.mem_map.mp hid
        exact hw.absent d hd (e ▸ mem_held_of_stock hin)
      · rcases List.mem_cons.mp hd with rfl | hd
        · exact hout
        · exact hm.absent d hd
      · rw [waiting_cons]
        refine Set.union_subset (Set.subset_union_left.trans hm.subset) (Set.union_subset ?_
          (Set.subset_union_right.trans hm.subset))
        exact Set.singleton_subset_iff.mpr (.inl hin)

/-- The topmost demotion is admitted where it waits. -/
theorem ensures_insert_top (h : Sound st s) {d : Demotion top} (hw : Waits st s (d :: pending)) :
    (onSegment d.1 (Policy.insert d.2 : Action C _)).Ensures s st fun _ s' st' =>
      Moves st s (d :: pending) st' s' pending := by
  have hothers : d.2.id ∉ Lru.held st (others s d.1) := by
    intro hid
    refine hw.absent d List.mem_cons_self ?_
    rw [held_eq st s d.1]
    exact .inr hid
  apply (ensures_insertAt h d.1 hothers).mono
  intro _ s' st' hk
  obtain ⟨hk, hsub⟩ := hk
  have hnd := List.nodup_cons.mp (List.map_cons ▸ hw.nodup)
  refine ⟨hk, ⟨hnd.2, fun e he hid => ?_⟩, ?_⟩
  · rcases held_subset_union hsub hid with hid | hid
    · exact hw.absent e (List.mem_cons_of_mem d he) hid
    · exact hnd.1 (List.mem_map.mpr ⟨e, he, hid⟩)
  · rw [waiting_cons, ← Set.union_assoc]
    exact Set.union_subset_union_left _ hsub

omit [Lawful C] in
theorem sums_hasRoom {c : C} (h : Word.Sums (Policy.occupied c)) (size : Bytes) :
    Word.Sums (Policy.hasRoom c size) := h.bind fun _ => Word.sums_pure _

theorem sums_hasRoomAt (s : Segmented C top) (i : Level top) (size : Bytes) :
    Word.Sums (s.hasRoomAt i size) := sums_hasRoom (Lawful.sums_occupied _) size

theorem ensures_settle (h : Sound st s) (hw : Waits st s pending) :
    (settle pending).Ensures s st fun pending' s' st' => Moves st s pending st' s' pending' := by
  induction pending generalizing s st with
  | nil => exact Moves.refl h hw
  | cons d rest ih =>
    obtain ⟨dest, r⟩ := d
    unfold settle
    rw [ensures_get_bind]
    apply ensures_checked_bind (sums_hasRoomAt s dest r.size)
    intro room _
    split
    · rw [ensures_bind_iff, ensures_discard]
      apply (ensures_insert_top h hw).mono
      intro _ s₁ st₁ hm
      exact (ih hm.toSound hm.toWaits).mono fun _ s' st' hk => hm.trans hk
    · split
      · rw [ensures_emit_bind, ensures_bind_iff]
        apply ensures_record SegmentedCounters.sums_recordCoolingDrop
        intro counters _
        have hs := shrinks_report h (st.events.push (.demotionDropped r.id dest)) counters
        have hm := Moves.of_shrinks hs hw (List.sublist_cons_self _ _)
        exact (ih hm.toSound hm.toWaits).mono fun _ s' st' hk => hm.trans hk
      · exact Moves.refl h hw

theorem ensures_coolWithin (fuel : Nat) (h : Sound st s) (hw : Waits st s pending)
    (level : Level top) :
    (coolWithin time fuel level pending).Ensures s st fun _ s' st' =>
      Kept st s st' s' ∧ stock st' s' ⊆ stock st s ∪ waiting pending := by
  induction fuel generalizing s st level pending with
  | zero => exact ⟨Kept.refl h, Set.subset_union_left⟩
  | succ fuel ih =>
    unfold coolWithin
    rw [ensures_bind_iff]
    apply (ensures_demote h hw level).mono
    intro pending₁ s₁ st₁ hm₁
    rw [ensures_bind_iff]
    apply (ensures_settle hm₁.toSound hm₁.toWaits).mono
    intro pending₂ s₂ st₂ hm₂
    have hm := hm₁.trans hm₂
    cases pending₂ with
    | nil => exact ⟨hm.toKept, Set.subset_union_left.trans hm.subset⟩
    | cons d rest =>
      apply (ih hm.toSound hm.toWaits d.1).mono
      intro _ s' st' hk
      exact ⟨hm.toKept.trans hk.1, hk.2.trans hm.subset⟩

theorem ensures_cool (h : Sound st s) (level : Level top) :
    (cool time level).Ensures s st fun _ s' st' => Shrinks st s st' s' := by
  unfold cool
  rw [ensures_get_bind]
  apply (ensures_coolWithin _ h (Waits.nil st s) level).mono
  intro _ s' st' hk
  refine ⟨hk.1, hk.2.trans ?_⟩
  rw [waiting_nil, Set.union_empty]

theorem ensures_makeRoomWithin (fuel : Nat) (h : Sound st s) (dest : Level top) (size : Bytes) :
    (makeRoomWithin time dest size fuel).Ensures s st fun _ s' st' => Shrinks st s st' s' := by
  induction fuel generalizing s st with
  | zero => exact Shrinks.refl h
  | succ fuel ih =>
    unfold makeRoomWithin
    rw [ensures_get_bind]
    apply ensures_checked_bind (sums_hasRoomAt s dest size)
    intro room _
    split
    · exact Shrinks.refl h
    · dsimp only
      split
      · exact Shrinks.refl h
      · rw [ensures_bind_iff]
        apply (ensures_cool h dest).mono
        intro _ s₁ st₁ hs
        rw [ensures_get_bind]
        split
        · exact hs
        · exact (ih hs.toSound).mono fun _ s' st' hk => hs.trans hk

theorem ensures_makeRoom (h : Sound st s) (dest : Level top) (size : Bytes) :
    (makeRoom time dest size).Ensures s st fun _ s' st' => Shrinks st s st' s' := by
  unfold makeRoom
  rw [ensures_get_bind]
  exact ensures_makeRoomWithin _ h dest size

end SegmentedCache.Segmented
