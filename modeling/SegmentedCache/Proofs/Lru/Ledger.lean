import SegmentedCache.Proofs.Headroom
import SegmentedCache.Proofs.Lru.Conserving
import SegmentedCache.Proofs.Policy.Settings
import SegmentedCache.Proofs.Runs

/-!
# The ledger of a least-recently-used cache

Every object that entered a cache is queued in it or was counted on its way out, as
evicted, removed or expired. Only an object that a new one with its id replaces
leaves uncounted, so the surplus counts the replaced ones.

One lemma an operation says how many events it counts, and that only the counters can
stop it, or the sum of the byte total and a new charge where that leaves the range of a
word. This holds with orphans in the queue too. What becomes of the surplus is said of
a tidy cache, since orphans leave uncounted.
-/
namespace SegmentedCache

/-- The bytes that an operation asks for or brings in. -/
def Operation.bytes : Operation → ℕ
  | .serve r => r.size.toNat
  | .insert r => r.size.toNat
  | _ => 0

namespace Lru
open SegmentedCache.Action Policy
variable {M m n : ℕ} {st st' : Store} {c c' c'' : Lru} {r : Request} {charge : Bytes}

/-- The objects that are queued or were counted as expired. -/
def standing (c : Lru) : ℕ := c.queue.length + c.counters.expiredRemovals.toNat

/-- The objects that left without being counted. -/
def surplus (c : Lru) : ℤ := c.counters.net - c.standing

/-- There is no surplus if every object that entered is accounted for. -/
theorem surplus_eq_zero_iff : c.surplus = 0 ↔
    c.counters.core.insertions.toNat = Policy.count c + c.counters.core.evictions.toNat +
      c.counters.removals.toNat + c.counters.expiredRemovals.toNat := by
  unfold surplus standing LruCounters.net Counters.net
  change _ ↔ _ = c.queue.length + _ + _ + _
  omega

theorem surplus_of_new (hq : c.queue = .empty) (h : c.counters = .ofCapacity c.params.capacity) :
    c.surplus = 0 := by
  unfold surplus standing
  rw [hq, h]
  rfl

/-- No more than `n` events of at most `M` bytes were counted. -/
def Spends (M n : ℕ) (c c' : Lru) : Prop :=
  ∀ m, c.counters.Spare M (m + n) → c'.counters.Spare M m

theorem Spends.of_counters_eq (h : c'.counters = c.counters) : Spends M 0 c c' := by
  intro m hs
  rwa [h]

theorem Spends.trans (h : Spends M n c c') (k : Spends M m c' c'') : Spends M (m + n) c c'' := by
  intro l hs
  rw [← Nat.add_assoc] at hs
  exact k l (h (l + m) hs)

theorem Spends.mono (h : Spends M n c c') (hnm : n ≤ m) : Spends M m c c' :=
  fun l hs => h l (hs.mono (Nat.add_le_add_left hnm l))

theorem Spends.spare (h : Spends M n c c') (hs : c.counters.Spare M (m + n)) :
    c'.counters.Spare M m := h m hs

theorem spends_record {f : LruCounters → Except Fault LruCounters} {counters : LruCounters}
    (hf : Bears (LruCounters.Spare M) f) (hok : f c.counters = .ok counters) :
    Spends M 1 c { c with counters } := fun _ hs => hf.spare_of_ok hs hok

/-- So many objects left, evicted or removed, and so many were dropped as expired; all
were counted. Orphans left uncounted. -/
structure Loses (M left expired : ℕ) (st : Store) (c c' : Lru) : Prop where
  spends : Spends M (left + expired) c c'
  length : c'.queue.length + (left + expired) ≤ c.queue.length
  standing : Tidy st c → c'.standing + left = c.standing
  surplus : Tidy st c → c'.surplus = c.surplus

theorem Loses.refl : Loses M 0 0 st c c :=
  ⟨.of_counters_eq rfl, le_rfl, fun _ => rfl, fun _ => rfl⟩

/-- What is counted on the core counters is no expiry. -/
theorem standing_onCore {f : Counters → Except Fault Counters} {counters : LruCounters}
    (hok : c.counters.onCore f = .ok counters) : standing { c with counters } = c.standing := by
  unfold standing
  rw [LruCounters.expiredRemovals_onCore hok]

theorem surplus_onCore {f : Counters → Except Fault Counters} {counters : LruCounters} {d : ℤ}
    (hf : Shifts Counters.net d f) (hok : c.counters.onCore f = .ok counters) :
    surplus { c with counters } = c.surplus + d := by
  unfold surplus
  rw [standing_onCore hok]
  dsimp only
  rw [LruCounters.shifts_onCore hf hok]
  ring

theorem unlink_counted {o : CacheObject} (h : c.Coherent st) (ho : o ∈ c.objects) :
    ∃ c' st', (unlink o).Yields c st true c' st' ∧ Sheds [o] st c st' c' ∧
      c'.counters = c.counters ∧ c'.queue.length + 1 = c.queue.length := by
  obtain ⟨c', st', hy, hs, hcounters⟩ := unlink_of_mem h ho
  have hlength := length_unlink hy
  have hpos := List.length_pos_of_mem ho
  rw [h.length_objects] at hpos
  rw [Bool.toNat_true] at hlength
  exact ⟨c', st', hy, hs, hcounters, by omega⟩

/-- An object that is unlinked is counted once. -/
theorem loses_record {f : LruCounters → Except Fault LruCounters} {counters : LruCounters}
    {left expired : ℕ} (hcounters : c'.counters = c.counters)
    (hlength : c'.queue.length + 1 = c.queue.length) (hone : left + expired = 1)
    (hf : Bears (LruCounters.Spare M) f) (hok : f c'.counters = .ok counters)
    (hnet : counters.net = c.counters.net - left)
    (hexpired : counters.expiredRemovals.toNat = c.counters.expiredRemovals.toNat + expired) :
    Loses M left expired st c { c' with counters } := by
  have hstanding : standing { c' with counters } + left = c.standing := by
    unfold standing
    dsimp only
    omega
  refine ⟨?_, by dsimp only; omega, fun _ => hstanding, fun _ => ?_⟩
  · rw [hone]
    exact (Spends.of_counters_eq hcounters).trans (spends_record hf hok)
  · unfold surplus
    rw [← hstanding]
    dsimp only
    rw [hnet]
    push_cast
    ring

/-! ## Work that counts nothing -/

/-- The counters stay as they are until something is recorded. -/
theorem handling_counters : Handling fun c _ c' _ => counters c' = counters c where
  toComposes := composes_spares counters
  emit _ := spares_lift _
  createFor _ := spares_lift _
  enter _ _ := spares_lift _
  unlink o c st b c' st' hy := by
    obtain ⟨queue, occupied, rfl⟩ := unlink_eq hy
    rfl

theorem counters_of_link {o : CacheObject} (hy : (link r).Yields c st o c' st') :
    c'.counters = c.counters := by
  refine handling_counters.link handling_counters.absorbs (fun r o => ?_) r hy
  intro c st p c' st' hy
  obtain ⟨-, occupied, -, rfl, -⟩ := yields_attach_iff.mp hy
  rfl

/-! ## Evictions and room -/

/-- The orphans behind the victim leave uncounted. -/
theorem runs_evictWithin (fuel : ℕ) (h : c.Coherent st) :
    (evictWithin fuel).Runs c st (c.queue.length ≠ 0 ∧ ¬ c.counters.Spare M 1) fun victim c' _ =>
      Loses M victim.isSome.toNat 0 st c c' := by
  induction fuel generalizing c st with
  | zero => exact Loses.refl
  | succ fuel ih =>
    unfold evictWithin
    rw [runs_get_bind, h.back?_eq]
    rcases List.eq_nil_or_concat' c.objects with hnil | ⟨kept, o, hobj⟩
    · rw [hnil]
      exact Loses.refl
    · have ho : o ∈ c.objects := by simp [hobj]
      obtain ⟨c₁, st₁, hy, hs, hcounters, hlength⟩ := unlink_counted h ho
      rw [hobj, List.getLast?_concat]
      dsimp only
      rw [runs_getThe_bind, runs_bind_of_yields hy, if_pos rfl]
      cases hr : st.resident o with
      | true =>
        have hbears := LruCounters.bears_onCore (M := M) Counters.bears_recordEviction
        rw [if_pos rfl, runs_bind_iff]
        refine runs_record (fun e he => ?_) fun counters hok => ?_
        · rw [hcounters] at he
          exact ⟨by omega, hbears.not_spare_of_error he⟩
        · refine loses_record hcounters hlength rfl hbears hok ?_ ?_
          · rw [LruCounters.shifts_onCore Counters.shifts_recordEviction hok, hcounters]
            rfl
          · rw [LruCounters.expiredRemovals_onCore hok, hcounters]
            rfl
      | false =>
        rw [if_neg Bool.false_ne_true]
        have hnot : ¬ Tidy st c := by
          intro ht
          rw [tidy_iff.mp ht o ho] at hr
          cases hr
        refine (ih hs.coherent).mono (fun hE => ⟨by omega, ?_⟩) fun victim c' _ _ hk => ?_
        · rw [← hcounters]
          exact hE.2
        · have hle := hk.length
          exact ⟨(Spends.of_counters_eq hcounters).trans hk.spends, by omega,
            fun ht => absurd ht hnot, fun ht => absurd ht hnot⟩

theorem runs_evict (h : c.Coherent st) :
    evict.Runs c st (c.queue.length ≠ 0 ∧ ¬ c.counters.Spare M 1) fun victim c' _ =>
      Loses M victim.isSome.toNat 0 st c c' :=
  runs_evictWithin c.queue.length h

/-- Making room counts at most `n` evictions if there are no more objects, or none if
the charge fits. -/
theorem runs_makeRoomWithin (fuel : ℕ) (h : c.Coherent st)
    (hn : Word.saturatingAdd c.occupied charge ≤ c.params.capacity ∨ c.queue.length ≤ n) :
    (makeRoomWithin charge fuel).Runs c st
      (¬ c.counters.Spare M n ∨ UInt64.size ≤ c.occupied.toNat + charge.toNat)
      fun _ c' _ => Spends M n c c' ∧ (Tidy st c → c'.surplus = c.surplus) ∧
        (Word.saturatingAdd c.occupied charge ≤ c.params.capacity → c' = c) := by
  have hdone : Spends M n c c ∧ (Tidy st c → c.surplus = c.surplus) ∧
      (Word.saturatingAdd c.occupied charge ≤ c.params.capacity → c = c) :=
    ⟨(Spends.of_counters_eq rfl).mono n.zero_le, fun _ => rfl, fun _ => rfl⟩
  induction fuel generalizing c st n with
  | zero => exact hdone
  | succ fuel ih =>
    unfold makeRoomWithin
    rw [runs_get_bind]
    refine runs_checked_bind (fun e he => .inr (Word.add_eq_error_iff.mp he).2) fun total ht => ?_
    split
    next hgt =>
      have hfull : ¬ Word.saturatingAdd c.occupied charge ≤ c.params.capacity := by
        rw [Word.saturatingAdd_of_add ht]
        exact UInt64.not_le.mpr hgt
      have hn := hn.resolve_left hfull
      refine runs_bind_iff.mpr ((runs_evict (M := M) h).mono (fun hE => .inl fun hs => ?_) ?_)
      · exact hE.2 (hs.mono (by omega))
      · intro victim c₁ st₁ hy hlost
        have hevicted := (ensures_evict h).apply hy
        have hshrinks := (hevicted.shrinks h).1
        cases hevicted with
        | nothing _ _ =>
          exact ⟨hlost.spends.mono n.zero_le, hlost.surplus, fun hle => absurd hle hfull⟩
        | victim _ _ _ hs =>
          have hlength := hlost.length
          have hocc := hs.occupied_le h.toCharged
          rw [Option.isSome_some, Bool.toNat_true] at hlength
          obtain ⟨k, rfl⟩ := Nat.exists_eq_add_one_of_ne_zero (show n ≠ 0 by omega)
          refine (ih (n := k) hs.coherent (.inr (by omega))
            ⟨(Spends.of_counters_eq rfl).mono k.zero_le, fun _ => rfl, fun _ => rfl⟩).mono ?_ ?_
          · rintro (hspare | hsum)
            · exact .inl fun hspare' => hspare (hlost.spends.spare hspare')
            · exact .inr (by omega)
          · intro _ c' st' _ hk
            refine ⟨hlost.spends.trans hk.1, fun ht => ?_, fun hle => absurd hle hfull⟩
            exact (hk.2.1 (hshrinks.tidy ht)).trans (hlost.surplus ht)
    next => exact hdone

/-! ## The operations -/

/-- The object fits the empty cache, but the sum of its charge and the byte total
leaves the range of a word. -/
def Overflows (c : Lru) (size : Bytes) : Prop :=
  c.charge size ≤ c.params.capacity ∧ UInt64.size ≤ c.occupied.toNat + (c.charge size).toNat

theorem Overflows.size_le {size : Bytes} (h : c.Overflows size) (hc : c.Charged) :
    UInt64.size ≤ 2 * c.params.capacity.toNat := by
  have hle := UInt64.le_iff_toNat_le.mp h.1
  have hsum := h.2
  have hwithin := hc.within
  omega

/-- A sum out of range passes for room in a cache of the largest capacity only. -/
theorem not_overflows {size : Bytes} (h : c.Charged) (hc : c.params.capacity ≠ Word.largest)
    (hroom : Word.saturatingAdd c.occupied (c.charge size) ≤ c.params.capacity ∨ c.objects = []) :
    ¬ c.Overflows size := by
  rintro ⟨hle, hsum⟩
  refine hc (UInt64.toNat_inj.mp ?_)
  have hcharge := (c.charge size).toNat_lt_size
  have hcapacity := c.params.capacity.toNat_lt_size
  rcases hroom with hroom | hnil
  · have hword := UInt64.le_iff_toNat_le.mp hroom
    rw [Word.toNat_saturatingAdd] at hword
    rw [Word.toNat_largest]
    omega
  · have hzero : c.occupied.toNat = 0 := by
      rw [h.occupied, hnil]
      rfl
    omega

/-- Displacing for an id that is not held drops orphans only. -/
theorem displace_counted (h : c.Coherent st) (r : Request) :
    ∃ c' st' gone, (displace r).Yields c st () c' st' ∧ Sheds gone st c st' c' ∧
      r.id ∉ c'.ids st' ∧ c'.counters = c.counters ∧
      (Tidy st c → r.id ∉ Policy.held st c → gone = []) := by
  obtain ⟨c', st', gone, hy, hs, hid, hgone⟩ := displace_yields h r
  refine ⟨c', st', gone, hy, hs, hid, handling_counters.displace r hy, fun ht hnot => ?_⟩
  have ht := tidy_iff.mp ht
  refine List.eq_nil_iff_forall_not_mem.mpr fun o ho => ?_
  rcases hgone o ho with horphan | hoid
  · have hr := (List.mem_filter.mp horphan).2
    rw [ht o (hs.subset o ho)] at hr
    cases hr
  · exact hnot (hoid ▸ mem_held_of_mem h.toLinked ht (hs.subset o ho))

theorem link_counted (h : c.Coherent st) (hid : r.id ∉ c.ids st)
    (hroom : c.occupied.toNat + (c.charge r.size).toNat ≤ c.params.capacity.toNat) :
    ∃ o c' st', (link r).Yields c st o c' st' ∧ c'.counters = c.counters ∧
      (Tidy st c → c'.queue.length = c.queue.length + 1) := by
  obtain ⟨o, c', st', gone, hy, ha, -, hgone⟩ := link_yields h hid hroom
  refine ⟨o, c', st', hy, counters_of_link hy, fun ht => ?_⟩
  have hnil : gone = [] := by
    refine List.eq_nil_iff_forall_not_mem.mpr fun p hp => ?_
    have hr := (List.mem_filter.mp (hgone p hp).1).2
    rw [tidy_iff.mp ht p (ha.subset p hp)] at hr
    cases hr
  rw [← ha.toLinked.length_objects, ha.objects, hnil, ← h.length_objects]
  simp

/-- What an insertion does once the object that it replaces is gone. -/
def enter (r : Request) (charge : Bytes) : Action Lru (Option CacheObject) := do
  makeRoom charge
  let o ← link r
  recordCore (·.recordInsertion r.size)
  pure (some o)

theorem runs_enter (h : c.Coherent st) (hid : r.id ∉ c.ids st)
    (hle : c.charge r.size ≤ c.params.capacity) (hM : r.size.toNat ≤ M)
    (hn : Word.saturatingAdd c.occupied (c.charge r.size) ≤ c.params.capacity ∨
      c.queue.length ≤ n) :
    (enter r (c.charge r.size)).Runs c st (¬ c.counters.Spare M (n + 1) ∨ c.Overflows r.size)
      fun res c' _ => Spends M (n + 1) c c' ∧ (Tidy st c → c'.surplus = c.surplus ∧
        (Word.saturatingAdd c.occupied (c.charge r.size) ≤ c.params.capacity →
          c'.standing = c.standing + res.isSome.toNat)) := by
  unfold enter makeRoom
  rw [runs_bind_iff, runs_get_bind]
  refine (runs_makeRoomWithin (M := M) (c.queue.length + 1) h hn).mono ?_ ?_
  · rintro (hs | hsum)
    · exact .inl fun hs' => hs (hs'.mono n.le_succ)
    · exact .inr ⟨hle, hsum⟩
  · intro _ c₁ st₁ hy₁ hk₁
    obtain ⟨hspends₁, hsurplus₁, hkept₁⟩ := hk₁
    obtain ⟨gone, hs₁, hroom₁, -⟩ := (ensures_makeRoomWithin _ h hle
      (Nat.lt_succ_of_le h.length_objects.le)).apply hy₁
    have hid₁ : r.id ∉ c₁.ids st₁ := fun hm => hid (hs₁.ids_subset h.toLinked hm)
    have hcharge : c₁.charge r.size = c.charge r.size := hs₁.charge_eq r.size
    rw [← hcharge] at hroom₁
    obtain ⟨o, c₂, st₂, hy₂, hcounters₂, hlength₂⟩ := link_counted hs₁.coherent hid₁ hroom₁
    have hspends₂ : Spends M n c c₂ :=
      (hspends₁.trans (.of_counters_eq hcounters₂)).mono (by omega)
    have hbears := LruCounters.bears_onCore (Counters.bears_recordInsertion hM)
    rw [runs_bind_of_yields hy₂, runs_bind_iff]
    refine runs_record (fun e he => ?_) fun counters hok => ?_
    · rw [Nat.add_comm]
      exact .inl fun hs => hbears.not_spare_of_error (n := 0) he (hspends₂.spare hs)
    · refine ⟨(hspends₂.trans (spends_record hbears hok)).mono (by omega), fun ht => ?_⟩
      have hstanding₂ : c₂.standing = c₁.standing + 1 := by
        unfold standing
        rw [hcounters₂, hlength₂ ((hs₁.shrinks h.toLinked).tidy ht)]
        omega
      refine ⟨?_, fun hfits => ?_⟩
      · rw [surplus_onCore Counters.shifts_recordInsertion hok, ← hsurplus₁ ht]
        unfold surplus
        rw [hcounters₂, hstanding₂]
        push_cast
        ring
      · rw [standing_onCore hok, hstanding₂, hkept₁ hfits]
        rfl

/-- An insertion counts itself and at most `n` evictions. A new id adds nothing to
the surplus, and where there is room it adds one object. -/
theorem runs_insert (h : c.Coherent st) (hM : r.size.toNat ≤ M)
    (hn : Word.saturatingAdd c.occupied (c.charge r.size) ≤ c.params.capacity ∨
      c.queue.length ≤ n) :
    (insert r).Runs c st (¬ c.counters.Spare M (n + 1) ∨ c.Overflows r.size) fun res c' _ =>
      Spends M (n + 1) c c' ∧
        (Tidy st c → r.id ∉ Policy.held st c → c'.surplus = c.surplus ∧
          (Word.saturatingAdd c.occupied (c.charge r.size) ≤ c.params.capacity →
            c'.standing = c.standing + res.isSome.toNat)) := by
  unfold insert
  rw [runs_get_bind]
  dsimp only
  split
  next =>
    rw [runs_emit_bind, runs_pure]
    exact ⟨(Spends.of_counters_eq rfl).mono (n + 1).zero_le, fun _ _ => ⟨rfl, fun _ => rfl⟩⟩
  next hle =>
    have hle : c.charge r.size ≤ c.params.capacity := UInt64.not_lt.mp hle
    obtain ⟨c₁, st₁, gone, hy₁, hs₁, hid₁, hcounters₁, hgone⟩ := displace_counted h r
    have hocc₁ := hs₁.occupied_le h.toCharged
    have hlength₁ := hs₁.length_le
    rw [hs₁.linked.length_objects, h.length_objects] at hlength₁
    have hcharge₁ : c₁.charge r.size = c.charge r.size := hs₁.charge_eq r.size
    -- what fits before the displacement fits after it
    have hfits₁ : Word.saturatingAdd c.occupied (c.charge r.size) ≤ c.params.capacity →
        Word.saturatingAdd c₁.occupied (c₁.charge r.size) ≤ c₁.params.capacity := by
      intro hfits
      rw [hcharge₁, hs₁.params]
      exact UInt64.le_trans
        (Word.saturatingAdd_le_left (UInt64.le_iff_toNat_le.mpr hocc₁) _) hfits
    have hle₁ : c₁.charge r.size ≤ c₁.params.capacity := by rwa [hcharge₁, hs₁.params]
    rw [runs_bind_of_yields hy₁, ← hcharge₁]
    refine (runs_enter (n := n) hs₁.coherent hid₁ hle₁ hM (hn.imp hfits₁ (by omega))).mono ?_ ?_
    · rw [hcounters₁]
      refine Or.imp_right fun hover => ⟨hle, ?_⟩
      have hsum := hover.2
      rw [hcharge₁] at hsum
      omega
    · intro res c₂ st₂ _ hk
      obtain ⟨hspends, hadds⟩ := hk
      refine ⟨(Spends.of_counters_eq hcounters₁).trans hspends, fun ht hnot => ?_⟩
      obtain ⟨hsurplus, hstanding⟩ := hadds ((hs₁.shrinks h.toLinked).tidy ht)
      obtain rfl := hgone ht hnot
      have hlength : c₁.queue.length = c.queue.length := by
        rw [← hs₁.linked.length_objects, hs₁.objects, ← h.length_objects]
        simp
      have hstanding₁ : c₁.standing = c.standing := by
        unfold standing
        rw [hcounters₁, hlength]
      have hsurplus₁ : c₁.surplus = c.surplus := by
        unfold surplus
        rw [hcounters₁, hstanding₁]
      rw [hcharge₁] at *
      exact ⟨hsurplus.trans hsurplus₁, fun hfits => hstanding₁ ▸ hstanding (hfits₁ hfits)⟩

theorem Touches.length_eq {o : CacheObject} (k : Touches o st c c') (h : c.Linked st) :
    c'.queue.length = c.queue.length := by
  rw [← k.toLinked.length_objects, ← h.length_objects]
  exact ((List.perm_ext_iff_of_nodup k.toLinked.nodup h.nodup).mpr fun _ =>
    k.mem_objects_iff).length_eq

/-- A lookup loses at most the expired object that it finds. -/
theorem runs_check (h : c.Coherent st) (r : Request) (update : Bool) :
    (check r update).Runs c st (c.queue.length ≠ 0 ∧ ¬ c.counters.Spare M 1) fun _ c' _ =>
      ∃ expired ≤ 1, Loses M 0 expired st c c' := by
  have hsame : ∃ expired ≤ 1, Loses M 0 expired st c c := ⟨0, Nat.zero_le 1, Loses.refl⟩
  unfold check
  rw [runs_get_bind, runs_getThe_bind]
  cases hf : c.find? st r.id with
  | none => exact hsame
  | some o =>
    have ho := (h.find?_eq_some_iff_mem.mp hf).1
    dsimp only
    split
    · split
      · obtain ⟨c₁, st₁, hy, hs, hcounters, hlength⟩ := unlink_counted h ho
        rw [runs_bind_iff, runs_discard]
        refine .of_yields hy (runs_bind_iff.mpr ?_)
        refine runs_record (fun e he => ?_) fun counters hok => ?_
        · rw [hcounters] at he
          exact ⟨by omega, LruCounters.bears_recordExpiredRemoval.not_spare_of_error he⟩
        · obtain ⟨expired, hexpired, rfl⟩ := LruCounters.recordExpiredRemoval_eq_ok hok
          refine ⟨1, le_rfl, loses_record hcounters hlength rfl
            LruCounters.bears_recordExpiredRemoval hok ?_ (by rw [hexpired, hcounters])⟩
          rw [← hcounters]
          exact (sub_zero _).symm
      · exact hsame
    · split
      · obtain ⟨queue, hq, htouch⟩ := moveToFront_of_mem h ho
        have hlength : queue.length = c.queue.length := htouch.length_eq h.toLinked
        have hstanding : standing { c with queue } = c.standing := by
          unfold standing
          dsimp only
          rw [hlength]
        rw [hq]
        refine ⟨0, Nat.zero_le 1, .of_counters_eq rfl, hlength.le, fun _ => hstanding, fun _ => ?_⟩
        unfold surplus
        rw [hstanding]
      · exact hsame

theorem runs_remove (h : c.Coherent st) (id : ObjectId) :
    (remove id).Runs c st (c.queue.length ≠ 0 ∧ ¬ c.counters.Spare M 1) fun removed c' _ =>
      Loses M removed.isSome.toNat 0 st c c' := by
  unfold remove
  rw [runs_get_bind, runs_getThe_bind]
  cases hf : c.find? st id with
  | none => exact Loses.refl
  | some o =>
    have ho := (h.find?_eq_some_iff_mem.mp hf).1
    obtain ⟨c₁, st₁, hy, hs, hcounters, hlength⟩ := unlink_counted h ho
    dsimp only
    rw [runs_bind_of_yields hy, runs_bind_iff]
    refine runs_record (fun e he => ?_) fun counters hok => ?_
    · rw [hcounters] at he
      exact ⟨by omega, LruCounters.bears_recordRemoval.not_spare_of_error he⟩
    · have hnet := LruCounters.shifts_recordRemoval hok
      obtain ⟨removals, -, rfl⟩ := LruCounters.recordRemoval_eq_ok hok
      refine loses_record hcounters hlength rfl LruCounters.bears_recordRemoval hok ?_ ?_
      · rw [hnet, hcounters]
        rfl
      · rw [hcounters]
        rfl

/-- A request counts a lookup, an expiry, an insertion and the evictions for it. What
it inserts is not held by then. -/
theorem runs_serve (h : c.Coherent st) (hM : r.size.toNat ≤ M) :
    (serve r).Runs c st
      (¬ c.counters.Spare M (c.queue.length + 3) ∨ UInt64.size ≤ 2 * c.params.capacity.toNat)
      fun _ c' _ => Spends M (c.queue.length + 3) c c' ∧ (Tidy st c → c'.surplus = c.surplus) := by
  unfold serve
  rw [runs_bind_iff]
  refine (runs_check (M := M) h r true).mono
    (fun hE => .inl fun hs => hE.2 (hs.mono (by omega))) ?_
  intro found c₁ st₁ hy₁ hk₁
  obtain ⟨expired, hone, hlost⟩ := hk₁
  have hspends₁ : Spends M 1 c c₁ := hlost.spends.mono (by omega)
  have hlength₁ := hlost.length
  have hchecked := (ensures_check h r true).apply hy₁
  have hshrinks := hchecked.shrinks h
  have hbears := LruCounters.bears_onCore (Counters.bears_recordLookup hM found)
  rw [runs_bind_iff]
  refine runs_record (fun e he => ?_) fun counters hok => ?_
  · refine .inl fun hs => hbears.not_spare_of_error (n := 0) he (hspends₁.spare ?_)
    exact hs.mono (by omega)
  · have hspends₂ := hspends₁.trans (spends_record hbears hok)
    have hshrinks₂ := hshrinks.trans (shrinks_counters (sound_iff.mp hshrinks.toSound) counters)
    have hcoh₂ := sound_iff.mp hshrinks₂.toSound
    have hsurplus₂ : Tidy st c → surplus { c₁ with counters } = c.surplus := by
      intro ht
      rw [surplus_onCore (Counters.shifts_recordLookup found) hok, hlost.surplus ht, add_zero]
    split
    next hmiss =>
      have hnot : r.id ∉ Policy.held st₁ { c₁ with counters } := by
        rw [held_counters]
        exact mt (held_of_checked h hchecked).mpr hmiss
      rw [runs_get_bind]
      split
      next hle =>
        have hlength₂ : ({ c₁ with counters } : Lru).queue.length ≤ c.queue.length := by
          dsimp only
          omega
        rw [runs_bind_iff, runs_discard]
        refine (runs_insert (n := c.queue.length) hcoh₂ hM (.inr hlength₂)).mono ?_ ?_
        · rintro (hs | hover)
          · exact .inl fun hs' => hs (hspends₂.spare hs')
          · have hcapacity : c₁.params.capacity = c.params.capacity := hshrinks.capacity
            rw [← hcapacity]
            exact .inr (hover.size_le hcoh₂.toCharged)
        · intro res c₃ st₃ _ hk₃
          refine ⟨(hspends₂.trans hk₃.1).mono (by omega), fun ht => ?_⟩
          exact (hk₃.2 (hshrinks₂.tidy ht) hnot).1.trans (hsurplus₂ ht)
      next => exact ⟨hspends₂.mono (by omega), hsurplus₂⟩
    next => exact ⟨hspends₂.mono (by omega), hsurplus₂⟩

/-- An operation adds to the surplus only by replacing an object, and where the
capacity is below half the range of a word only the counters can stop it. -/
theorem runs_perform (h : c.Coherent st) {op : Operation} (hM : op.bytes ≤ M) :
    (perform op).Runs c st
      (¬ c.counters.Spare M (c.queue.length + 3) ∨ UInt64.size ≤ 2 * c.params.capacity.toNat)
      fun _ c' _ => Tidy st c → (∀ r, op = .insert r → r.id ∉ Policy.held st c) →
        c'.surplus = c.surplus := by
  cases op with
  | serve r => exact runs_map.mpr ((runs_serve h hM).mono id fun _ _ _ _ k ht _ => k.2 ht)
  | check r update =>
    refine runs_map.mpr ((runs_check (M := M) h r update).mono ?_ fun _ _ _ _ k ht _ => ?_)
    · exact fun hE => .inl fun hs => hE.2 (hs.mono (by omega))
    · obtain ⟨expired, -, hlost⟩ := k
      exact hlost.surplus ht
  | insert r =>
    refine runs_map.mpr ((runs_insert h hM (.inr le_rfl)).mono ?_ fun _ _ _ _ k ht hnot => ?_)
    · rintro (hs | hover)
      · exact .inl fun hs' => hs (hs'.mono (by omega))
      · exact .inr (hover.size_le h.toCharged)
    · exact (k.2 ht (hnot r rfl)).1
  | evict =>
    refine runs_map.mpr ((runs_evict (M := M) h).mono ?_ fun victim _ _ _ k ht _ => k.surplus ht)
    exact fun hE => .inl fun hs => hE.2 (hs.mono (by omega))
  | remove id =>
    refine runs_map.mpr ((runs_remove (M := M) h id).mono ?_ fun _ _ _ _ k ht _ => k.surplus ht)
    exact fun hE => .inl fun hs => hE.2 (hs.mono (by omega))

end Lru
end SegmentedCache
