import SegmentedCache.Proofs.Lru.Tidy
import SegmentedCache.Proofs.Lru.Working
import SegmentedCache.Proofs.Policy.Conserving

/-!
# The least-recently-used policy loses nothing on a move

A least-recently-used cache moves no objects, so none of its operations reports
a loss. A cache of this kind without a victim is empty, and then it has room for
all that it admits. What it admits, it holds afterwards.
-/
namespace SegmentedCache.Lru
open SegmentedCache.Action Policy

/-! ## No operation reports a loss -/

theorem quiet_record (f : LruCounters → Except Fault LruCounters) : Quiet (record f) :=
  Relates.get_bind fun _ => composes_losses.bind (composes_losses.checked _) fun _ => quiet_set _

theorem quiet_unlink (o : CacheObject) : Quiet (unlink o) := by
  have hl : Composes fun (_ : Lru) st _ st' => st'.losses = st.losses := composes_losses
  refine Relates.get_bind fun c => Relates.getThe_bind fun st => ?_
  split
  · exact hl.pure false
  · dsimp only
    refine hl.bind (quiet_setObjects _) fun _ => hl.bind (quiet_onIndex _ _).discard fun _ => ?_
    exact hl.bind (hl.checked _) fun _ => hl.bind (quiet_set _) fun _ => hl.pure true

theorem quiet_attach (r : Request) (o : CacheObject) : Quiet (attach r o) := by
  intro c st p c' st' hy
  obtain ⟨-, occupied, -, -, rfl⟩ := yields_attach_iff.mp hy
  rfl

theorem working_losses : Working fun _ st _ st' => st'.losses = st.losses where
  toComposes := composes_losses
  emit he := quiet_emit he
  createFor := quiet_createFor
  enter k _ := quiet_onIndex k _
  unlink := quiet_unlink
  eviction := quiet_record _
  insertion _ := quiet_record _
  removal := quiet_record _
  attach := quiet_attach
  requeue _ := rfl
  expiredRemoval := quiet_record _

/-! ## What is held afterwards -/

section
variable {st st' : Store} {c c' : Lru} {r : Request} {id : ObjectId}

/-- Nothing is left in a queue that has no last object. -/
theorem objects_of_back? (h : c.Linked st) (hb : c.queue.back? = none) : c.objects = [] := by
  rw [h.back?_eq] at hb
  exact List.getLast?_eq_none_iff.mp hb

theorem notMem_held_iff : id ∉ Policy.held st c ↔ c.find? st id = none := by
  rw [held_eq, mem_ids_iff, not_exists, Option.eq_none_iff_forall_ne_some]

/-- A lookup misses if nothing is held under the id. -/
theorem Checked.miss_iff {update : Bool} {found : Lookup} (hc : Checked r update st c found c' st') :
    found = .miss ↔ r.id ∉ Policy.held st c := by
  rw [notMem_held_iff]
  cases hc with
  | miss absent => simp [absent]
  | expired found _ _ => simp [found]
  | hit found _ _ => simp [found]

/-- A lookup that updates leaves the id only if it hits. -/
theorem held_of_checked {found : Lookup} (h : c.Coherent st)
    (hc : Checked r true st c found c' st') : found = .hit ↔ r.id ∈ Policy.held st' c' := by
  cases hc with
  | miss absent => simp [notMem_held_iff.mpr absent]
  | @expired _ _ o found _ sheds =>
    obtain ⟨-, hr, hid⟩ := h.find?_eq_some_iff_mem.mp found
    have hnot := sheds.notMem_ids h.toLinked (List.mem_singleton_self o) hr
    rw [hid, ← held_eq] at hnot
    simp [hnot]
  | hit found _ touched =>
    rw [held_eq, Touches.ids_eq touched]
    simp [mem_ids_iff.mpr ⟨_, found⟩]

theorem held_of_inserted {o : Option CacheObject} (ha : canAdmit c r.size)
    (hi : Inserted r st c o c' st') : r.id ∈ Policy.held st' c' := by
  rw [held_eq]
  cases hi with
  | refused large _ => exact absurd (of_decide_eq_true ha) (UInt64.not_le.mpr large)
  | @admitted _ _ o _ _ made admits _ =>
    have hmem : o ∈ c'.objects := by
      rw [admits.objects]
      exact List.mem_cons_self
    exact mem_ids_iff.mpr
      ⟨o, admits.find?_eq_some_iff_mem.mpr ⟨hmem, admits.resident_self, made.id⟩⟩

theorem held_counters (st : Store) (c : Lru) (counters : LruCounters) :
    Policy.held st { c with counters } = Policy.held st c := by
  rw [held_eq, held_eq]
  rfl

/-- A request leaves its object in the cache if it hit or if the object may be
admitted, and not otherwise. -/
theorem held_of_serve {found : Lookup} (h : c.Coherent st)
    (hy : (serve r).Yields c st found c' st') :
    r.id ∈ Policy.held st' c' ↔ found = .hit ∨ canAdmit c r.size := by
  unfold serve at hy
  obtain ⟨found', c₁, st₁, hcheck, h₁⟩ := yields_bind_iff.mp hy
  have hchecked := (ensures_check h r true).apply hcheck
  have hheld := held_of_checked h hchecked
  obtain ⟨_, c₂, st₂, hrecord, h₂⟩ := yields_bind_iff.mp h₁
  obtain ⟨counters, -, rfl, rfl⟩ := yields_record_iff.mp hrecord
  rw [← held_counters st₂ c₁ counters] at hheld
  have hshrinks := hchecked.shrinks h
  have hcoh := sound_iff.mp (shrinks_counters (sound_iff.mp hshrinks.toSound) counters).toSound
  have hcan := (shrinks_counters (sound_iff.mp hshrinks.toSound) counters).canAdmit_eq r.size
  rw [hshrinks.canAdmit_eq] at hcan
  by_cases hhit : found' = .hit
  · rw [if_neg (not_not_intro hhit)] at h₂
    obtain ⟨rfl, rfl, rfl⟩ := yields_pure_iff.mp h₂
    simp [hhit, hheld.mp hhit]
  · rw [if_pos hhit, yields_get_bind_iff] at h₂
    split at h₂
    next hle =>
      have ha : canAdmit { c₁ with counters } r.size := decide_eq_true hle
      obtain ⟨_, c₃, st₃, hinsert, h₃⟩ := yields_bind_iff.mp h₂
      obtain ⟨o, hinsert⟩ := yields_discard_iff.mp hinsert
      obtain ⟨rfl, rfl, rfl⟩ := yields_pure_iff.mp h₃
      simp [held_of_inserted ha ((ensures_insert hcoh r).apply hinsert), ← hcan, ha]
    next hgt =>
      have ha : canAdmit { c₁ with counters } r.size = false := decide_eq_false hgt
      obtain ⟨_, c₃, st₃, hemit, h₃⟩ := yields_bind_iff.mp h₂
      obtain ⟨rfl, rfl⟩ := yields_emit_iff.mp hemit
      obtain ⟨rfl, rfl, rfl⟩ := yields_pure_iff.mp h₃
      have hnot : r.id ∉ Policy.held { st₂ with events := st₂.events.push (.notAdmitted r.id r.size) }
          { c₁ with counters } := fun hid => hhit (hheld.mpr hid)
      simp [hnot, hhit, ← hcan, ha]

end

instance : Recorded Lru where
  Intact _ := True

instance : Conserving Lru where
  victim?_eq_none {st c} h hc := by
    have hlinked := (sound_iff.mp h.toSound).toLinked
    change c.queue.back? = none
    rw [hlinked.back?_eq, List.getLast?_eq_none_iff]
    apply List.eq_nil_of_length_eq_zero
    rw [hlinked.length_objects]
    exact hc
  limit_le _ _ := UInt64.le_refl _
  spare {st c} h hv := by
    have hcoh := sound_iff.mp h.toSound
    refine ⟨c.occupied, rfl, ?_⟩
    have hzero : c.occupied.toNat = 0 := by
      rw [hcoh.occupied, objects_of_back? hcoh.toLinked hv]
      rfl
    rw [hzero, Nat.zero_add]
    exact le_rfl
  conserves_check {_ _ _ _ r update _} h hy := by
    have hcoh := sound_iff.mp h.toSound
    have hchecked := (ensures_check hcoh r update).apply hy
    refine ⟨⟨working_losses.check r update hy, fun hi => hi⟩, hchecked.miss_iff, ?_⟩
    rintro rfl
    exact held_of_checked hcoh hchecked
  conserves_serve {_ _ _ _ r _} h hy :=
    ⟨⟨working_losses.serve (fun _ _ => quiet_record _) r hy, fun hi => hi⟩,
      held_of_serve (sound_iff.mp h.toSound) hy⟩
  conserves_insert {_ _ _ _ r _} h _ ha hy :=
    ⟨⟨working_losses.insert r hy, fun hi => hi⟩,
      held_of_inserted ha ((ensures_insert (sound_iff.mp h.toSound) r).apply hy)⟩
  conserves_evict {_ _ c _ _} h hy := by
    have hcoh := sound_iff.mp h.toSound
    refine ⟨⟨working_losses.evict hy, fun hi => hi⟩, ?_⟩
    change _ = c.queue.back?
    rw [hcoh.back?_eq]
    rcases ((ensures_evict hcoh).apply hy).of_tidy (tidy_iff.mp h.tidy) hcoh.toLinked with
      ⟨rfl, hnil⟩ | ⟨v, rfl, hv⟩
    · rw [hnil, List.getLast?_nil]
    · rw [hv, List.getLast?_concat]
  conserves_remove {_ _ _ _ id _} h hy := by
    have hcoh := sound_iff.mp h.toSound
    refine ⟨⟨working_losses.remove id hy, fun hi => hi⟩, fun hid => ?_⟩
    cases (ensures_remove hcoh id).apply hy with
    | absent hf _ => exact absurd hid (notMem_held_iff.mpr hf)
    | taken _ _ => exact Option.some_ne_none _

end SegmentedCache.Lru
