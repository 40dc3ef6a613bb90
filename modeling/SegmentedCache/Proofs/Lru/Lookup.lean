import SegmentedCache.Proofs.Lru.Admission
import SegmentedCache.Proofs.Runs

/-!
# Lookups, removals and release

A lookup that hits may move the object to the front, and one that finds an
expired object may shed it. A removal sheds the object that is found. A release
drops what is left, object by object, without keeping the byte total.
-/
namespace SegmentedCache.Lru
open SegmentedCache.Action
variable {st st' : Store} {c c' : Lru} {o p : CacheObject} {id : ObjectId}

/-- The queued object `o` came to the front; nothing else changed. -/
structure Touches (o : CacheObject) (st : Store) (c c' : Lru) : Prop
    extends Linked st c', Charged c' where
  params : c'.params = c.params
  index : c'.index = c.index
  mem : o ∈ c.objects
  objects : c'.objects = o :: c.objects.filter (· ≠ o)

theorem Touches.mem_objects_iff (h : Touches o st c c') : p ∈ c'.objects ↔ p ∈ c.objects := by
  rw [h.objects, List.mem_cons, List.mem_filter, decide_eq_true_eq]
  by_cases e : p = o
  · simp [e, h.mem]
  · simp [e]

theorem Touches.coherent (h : Touches o st c c') : c'.Coherent st := ⟨h.toLinked, h.toCharged⟩

theorem Touches.confined (h : Touches o st c c') : Confined st [c] st [c'] where
  make d hd := ⟨c, List.mem_singleton_self c, by rw [List.mem_singleton.mp hd, h.index]⟩
  size := le_rfl
  index _ _ := rfl
  issued _ hp := hp
  falls _ _ hr := hr
  row _ _ _ := ⟨rfl, rfl⟩
  queued d hd p hp := by
    rw [List.mem_singleton.mp hd, h.mem_objects_iff] at hp
    exact .inl ⟨c, List.mem_singleton_self c, hp⟩

theorem Touches.ids_eq (h : Touches o st c c') : c'.ids st = c.ids st := by
  unfold ids find?
  rw [h.index]

theorem bytes_perm (c : Lru) {l l' : List CacheObject} (h : l.Perm l') : c.bytes l = c.bytes l' :=
  (h.map _).sum_eq

/-- The object in the slot that it knows can be moved to the front. -/
theorem moveToFront_of_mem (h : c.Coherent st) (ho : o ∈ c.objects) :
    ∃ queue, (st.objects.slot o).bind c.queue.moveToFront = some queue ∧
      Touches o st c { c with queue } := by
  obtain ⟨l, hl, hs⟩ := h.spelled
  obtain ⟨k, hk⟩ := hl.mem_toList_iff.mp ho
  obtain ⟨l₁, l₂, rfl⟩ := List.append_of_mem hk
  obtain ⟨hio, hso⟩ := hs k o hk
  obtain ⟨queue, hmove, hq⟩ := hl.moveToFront
  have hmem : ∀ j p, (j, p) ∈ (k, o) :: (l₁ ++ l₂) ↔ (j, p) ∈ l₁ ++ (k, o) :: l₂ := by
    intro j p
    simp only [List.mem_cons, List.mem_append]
    tauto
  have hperm : queue.toList.Perm c.objects := by
    rw [hq.toList_eq, show c.objects = _ from hl.toList_eq]
    exact List.perm_middle.symm.map _
  have hnd := h.nodup
  have hobj : queue.toList = o :: c.objects.filter (· ≠ o) := by
    rw [show c.objects = _ from hl.toList_eq, List.map_append, List.map_cons, List.nodup_middle,
      List.nodup_cons, List.mem_append, not_or] at hnd
    have hne : ∀ l' : List CacheObject, o ∉ l' → l'.filter (· ≠ o) = l' := by
      intro l' hl'
      refine List.filter_eq_self.mpr fun p hp => decide_eq_true fun e => ?_
      exact hl' (e ▸ hp)
    rw [hq.toList_eq, show c.objects = _ from hl.toList_eq, List.map_cons, List.map_append,
      List.map_append, List.map_cons, List.filter_append, List.filter_cons_of_neg (by simp),
      hne _ hnd.1.1, hne _ hnd.1.2]
  have hlinked : Linked st { c with queue } := by
    constructor
    case known => exact h.known
    case valid => exact h.valid
    case issued_entry => exact h.issued_entry
    case spelled => exact ⟨_, hq, fun j p hp => hs j p ((hmem j p).mp hp)⟩
    case entered => exact fun p hp => h.entered p (hperm.mem_iff.mp hp)
    case queued => exact fun hp hr => hperm.mem_iff.mpr (h.queued hp hr)
  have hcharged : Charged { c with queue } :=
    ⟨h.occupied.trans (bytes_perm c hperm.symm), h.within⟩
  exact ⟨queue, by rw [hso, Option.bind_some, hmove], hlinked, hcharged, rfl, rfl, ho, hobj⟩

/-- What a lookup answers and leaves. -/
inductive Checked (r : Request) (update : Bool) (st : Store) (c : Lru) :
    Lookup → Lru → Store → Prop
  | miss (absent : c.find? st r.id = none) : Checked r update st c .miss c st
  | expired {c' : Lru} {st' : Store} {o : CacheObject} (found : c.find? st r.id = some o)
    (stale : o.expiredAt r.time = true) (sheds : Sheds (if update then [o] else []) st c st' c') :
    Checked r update st c .expired c' st'
  | hit {c' : Lru} {o : CacheObject} (found : c.find? st r.id = some o)
    (alive : o.expiredAt r.time = false) (touched : if update then Touches o st c c' else c' = c) :
    Checked r update st c .hit c' st

theorem ensures_check (h : c.Coherent st) (r : Request) (update : Bool) :
    (check r update).Ensures c st (Checked r update st c) := by
  unfold check
  rw [ensures_get_bind, ensures_getThe_bind]
  cases hf : c.find? st r.id with
  | none => exact .miss hf
  | some o =>
    obtain ⟨hm, -, -⟩ := h.find?_eq_some_iff_mem.mp hf
    dsimp only
    cases he : o.expiredAt r.time with
    | true =>
      rw [if_pos rfl]
      cases update with
      | false => exact .expired hf he (Sheds.refl h)
      | true =>
        obtain ⟨c₁, st₁, hy, hs, -⟩ := unlink_of_mem h hm
        rw [if_pos rfl, ensures_bind_iff, ensures_discard]
        refine .of_yields hy ?_
        rw [ensures_bind_iff]
        apply ensures_record LruCounters.sums_recordExpiredRemoval
        intro counters _
        exact .expired hf he (hs.then_report _ counters)
    | false =>
      rw [if_neg Bool.false_ne_true]
      cases update with
      | false => exact .hit hf he rfl
      | true =>
        obtain ⟨queue, hq, ht⟩ := moveToFront_of_mem h hm
        rw [if_pos rfl, hq]
        exact .hit hf he ht

/-- What a removal returns and leaves. -/
inductive Removed (id : ObjectId) (st : Store) (c : Lru) : Option CacheObject → Lru → Store → Prop
  | absent {c' : Lru} {st' : Store} (absent : c.find? st id = none) (sheds : Sheds [] st c st' c') :
    Removed id st c none c' st'
  | taken {c' : Lru} {st' : Store} {o : CacheObject} (found : c.find? st id = some o)
    (sheds : Sheds [o] st c st' c') : Removed id st c (some o) c' st'

theorem ensures_remove (h : c.Coherent st) (id : ObjectId) :
    (remove id).Ensures c st (Removed id st c) := by
  unfold remove
  rw [ensures_get_bind, ensures_getThe_bind]
  cases hf : c.find? st id with
  | none =>
    rw [ensures_emit_bind, ensures_pure]
    exact .absent hf (Sheds.report h _ c.counters)
  | some o =>
    obtain ⟨hm, -, -⟩ := h.find?_eq_some_iff_mem.mp hf
    obtain ⟨c₁, st₁, hy, hs, -⟩ := unlink_of_mem h hm
    dsimp only
    rw [ensures_bind_of_yields hy, ensures_bind_iff]
    apply ensures_record LruCounters.sums_recordRemoval
    intro counters _
    rw [ensures_pure, if_pos rfl]
    exact .taken hf (hs.then_report _ counters)

/-! ## Release -/

/-- A release takes all objects out, the one at the back first, and cannot fault. -/
theorem runs_releaseWithin {fuel : Nat} (h : c.Linked st) (hf : c.objects.length ≤ fuel) :
    (releaseWithin fuel).Runs c st False fun _ c' st' => Drops c.objects.reverse st c st' c' := by
  induction fuel generalizing c st with
  | zero =>
    rw [List.eq_nil_of_length_eq_zero (Nat.eq_zero_of_le_zero hf)]
    exact Drops.refl h
  | succ fuel ih =>
    unfold releaseWithin
    rw [runs_get_bind, runs_getThe_bind]
    obtain ⟨l, hl, hs⟩ := h.spelled
    rcases List.eq_nil_or_concat' l with rfl | ⟨l, ⟨k, o⟩, rfl⟩
    · have hpop : c.queue.popBack st.objects = (none, c.queue, st.objects) := by
        unfold Recency.popBack
        rw [hl.oldest_eq]
        rfl
      rw [hpop, show c.objects = [] from hl.toList_eq]
      exact Drops.refl h
    · obtain ⟨hio, -⟩ := hs k o (by simp)
      obtain ⟨q, hrem, hq⟩ := hl.remove st.objects
      have hpop : c.queue.popBack st.objects = (some o, q, st.objects.setSlot o none) := by
        unfold Recency.popBack
        rw [hl.oldest_eq, List.map_append, List.map_singleton, List.getLast?_concat]
        exact hrem
      have hsame := Objects.sameIssued_setSlot hio none
      have hio' := (hsame o).mpr hio
      have hd : Drops [o] st c
          { st with
            objects := ((st.index c.index).deleteExact (st.objects.setSlot o none) o).2.2
            indexes := st.indexes.set c.index
              ((st.index c.index).deleteExact (st.objects.setSlot o none) o).2.1 }
          { c with queue := q } := by
        refine h.drops hl hs hq (h.valid.deleteExact _ o)
          (Index.find?_deleteExact h.valid (st.objects.setSlot o none) o) (fun p hp => ?_)
          (fun p hp hn => ?_) (hsame.trans (sameIssued_deleteExact _ hio'))
        · rw [resident_deleteExact _ hio' ((hsame p).mpr hp), Objects.resident_setSlot]
          -- A queued object that is not the entry for its id is an orphan already.
          have hentered := h.entered o (hl.mem_toList_iff.mpr ⟨k, by simp⟩)
          by_cases e : p = o
          · subst e
            cases hr : st.resident p with
            | true =>
              rw [if_pos ⟨hentered hr, rfl⟩]
              simp
            | false =>
              change (if _ then false else st.resident p) = _
              rw [hr]
              simp
          · rw [if_neg fun hc => e hc.2, decide_eq_true e, Bool.and_true]
            rfl
        · rw [(Index.quiet_deleteExact _ _ o).slot p, Objects.slot_setSlot_issued hio hp, if_neg hn]
      have hobj : c.objects = ({ c with queue := q } : Lru).objects ++ [o] := by
        rw [show ({ c with queue := q } : Lru).objects = _ from hq.toList_eq,
          show c.objects = _ from hl.toList_eq, List.append_nil, List.map_append,
          List.map_singleton]
      rw [hobj, List.length_append, List.length_singleton] at hf
      rw [hpop, hobj, List.reverse_concat]
      exact (ih hd.linked (Nat.le_of_succ_le_succ hf)).mono id fun _ _ _ _ hk => hd.trans hk

theorem runs_release (h : c.Linked st) :
    release.Runs c st False fun _ c' st' => Drops c.objects.reverse st c st' c' := by
  unfold release
  rw [runs_get_bind]
  exact runs_releaseWithin h h.length_objects.le

end SegmentedCache.Lru
