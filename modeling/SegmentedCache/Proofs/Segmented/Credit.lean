import SegmentedCache.Proofs.Lru.Ledger
import SegmentedCache.Proofs.Policy.Screening
import SegmentedCache.Proofs.Segmented.Lawful
import SegmentedCache.Proofs.Segmented.Load

/-!
# What the work of a segmented cache counts

A bound on the events that an operation counts, by credits. An operation starts
with some of its own and finds two in every unit of the load, since what makes an
object fall frees what its fall will count. An action that costs `a` credits and
leaves `b` counts no more events than it had credits for, and only counters that
cannot spare these can stop it. In a tidy cache it moves the surplus by `d`: so much
of what left, or was let in, is not counted yet.

The segments are least-recently-used caches, each below the largest capacity, where
a sum that stops at the largest word would pass for room.
-/
namespace SegmentedCache

namespace Policy
variable {C : Type} [Policy C] [Lawful C] {M : ℕ} {st st' : Store} {c c' : C}

/-- No object is larger than `M` bytes. -/
structure Modest (M : ℕ) (st : Store) (c : C) : Prop extends Sound st c where
  small : ∀ x ∈ stock st c, x.2.toNat ≤ M

theorem Modest.of_kept (h : Modest M st c) (k : Kept st c st' c')
    (hs : stock st' c' ⊆ stock st c ∪ {x | x.2.toNat ≤ M}) : Modest M st' c' where
  toSound := k.toSound
  small x hx := (hs hx).elim (h.small x) id

theorem Modest.shrinks (h : Modest M st c) (k : Shrinks st c st' c') : Modest M st' c' :=
  h.of_kept k.toKept (k.stock_subset.trans Set.subset_union_left)

end Policy

namespace Segmented
open SegmentedCache.Action Policy
variable {M m n a a' : ℕ} {top : Nat} {α β : Type} {st st' : Store} {s s' s'' : Segmented Lru top}
variable {i : Level top} {c : Lru} {b b' : α → ℕ} {d d' : α → ℤ}

/-- The objects that left without being counted. -/
def surplus (s : Segmented Lru top) : ℤ :=
  s.counters.net - ∑ i : Level top, ((s.segment i).standing : ℤ)

/-- The counters can spare `n` events, and no segment has the largest capacity. -/
structure Sturdy (M n : ℕ) (s : Segmented Lru top) : Prop where
  own : s.counters.Spare M n
  segment : ∀ i, (s.segment i).counters.Spare M n
  below : ∀ i, (s.segment i).params.capacity ≠ Word.largest

instance decidableSturdy (M n : ℕ) (s : Segmented Lru top) : Decidable (s.Sturdy M n) :=
  decidable_of_iff (s.counters.Spare M n ∧ (∀ i, (s.segment i).counters.Spare M n) ∧
      ∀ i, (s.segment i).params.capacity ≠ Word.largest)
    ⟨fun ⟨a, b, c⟩ => ⟨a, b, c⟩, fun ⟨a, b, c⟩ => ⟨a, b, c⟩⟩

theorem Sturdy.mono (h : s.Sturdy M n) (hmn : m ≤ n) : s.Sturdy M m :=
  ⟨h.own.mono hmn, fun i => (h.segment i).mono hmn, h.below⟩

/-- With `a` credits in hand the action does not fault, and it leaves `b` of them and
those in the load unspent. -/
def Costs (M a : ℕ) (act : Action (Segmented Lru top) α) (s : Segmented Lru top) (st : Store)
    (b : α → ℕ) (d : α → ℤ) : Prop :=
  act.Runs s st (¬ s.Sturdy M (2 * s.load + a)) fun x s' st' =>
    (∀ m, s.Sturdy M (m + (2 * s.load + a)) → s'.Sturdy M (m + (2 * s'.load + b x))) ∧
    (Tidy st s → Tidy st' s' ∧ s'.surplus = s.surplus + d x)

/-! ## Rules -/

theorem costs_pure {x : α} (hb : b x ≤ a) (hd : d x = 0) : Costs M a (pure x) s st b d :=
  ⟨fun _ hs => hs.mono (by omega), fun ht => ⟨ht, by rw [hd, add_zero]⟩⟩

@[simp] theorem costs_emit_bind {e : Event} {f : Unit → Action (Segmented Lru top) α} :
    Costs M a ((liftM (CacheM.emit e) : Action (Segmented Lru top) Unit) >>= f) s st b d ↔
      Costs M a (f ()) s { st with events := st.events.push e } b d := Iff.rfl

theorem costs_emit {e : Event} {d : Unit → ℤ} (hn : n ≤ a) (hd : d () = 0) :
    Costs M a (liftM (CacheM.emit e)) s st (fun _ => n) d :=
  ⟨fun _ hs => hs.mono (by dsimp only; omega), fun ht => ⟨ht, by rw [hd, add_zero]⟩⟩

@[simp] theorem costs_get_bind {f : Segmented Lru top → Action (Segmented Lru top) α} :
    Costs M a (get >>= f) s st b d ↔ Costs M a (f s) s st b d := Iff.rfl

@[simp] theorem costs_getThe_bind {f : Store → Action (Segmented Lru top) α} :
    Costs M a (getThe Store >>= f) s st b d ↔ Costs M a (f st) s st b d := Iff.rfl

theorem costs_checked_bind {y : Except Fault β} {f : β → Action (Segmented Lru top) α} {x : β}
    (hy : y = .ok x) :
    Costs M a ((liftM y : Action (Segmented Lru top) β) >>= f) s st b d ↔
      Costs M a (f x) s st b d := by
  rw [hy]
  rfl

theorem costs_discard {act : Action (Segmented Lru top) α} {k : ℤ}
    (h : Costs M a act s st (fun _ => n) fun _ => k) :
    Costs M a (discard act : Action (Segmented Lru top) PUnit) s st (fun _ => n) fun _ => k :=
  runs_discard.mpr h

theorem costs_map {act : Action (Segmented Lru top) β} {f : β → α} {k : ℤ}
    (h : Costs M a act s st (fun _ => n) fun _ => k) :
    Costs M a (f <$> act) s st (fun _ => n) fun _ => k :=
  runs_map.mpr h

/-- Credits that are not needed are left. -/
theorem Costs.mono {act : Action (Segmented Lru top) α} (h : Costs M a act s st b d) (ha : a ≤ a')
    (hb : ∀ x, b' x + a ≤ b x + a')
    (hd : ∀ x s' st', act.Yields s st x s' st' → d' x = d x) : Costs M a' act s st b' d' := by
  obtain ⟨k, rfl⟩ := Nat.exists_eq_add_of_le ha
  refine Runs.mono h (fun hnot hs => hnot (hs.mono (by omega))) fun x s' st' hy hk => ?_
  refine ⟨fun m hs => (hk.1 (m + k) (hs.mono (by omega))).mono ?_, ?_⟩
  · have hle := hb x
    omega
  · rw [hd x s' st' hy]
    exact hk.2

/-- Of the credits in hand `n` are set aside for what follows, which has to make up
for how the surplus moved. -/
theorem Costs.bind {x : Action (Segmented Lru top) β} {f : β → Action (Segmented Lru top) α}
    {left : β → ℕ} {e : β → ℤ} (h : Costs M a x s st left e) (n : ℕ) (ha : a + n ≤ a')
    (k : ∀ y s' st', x.Yields s st y s' st' →
      Costs M (left y + n) (f y) s' st' b fun z => d z - e y) :
    Costs M a' (x >>= f) s st b d := by
  have hframe : Costs M a' x s st (fun y => left y + n) e :=
    h.mono (by omega) (fun _ => by omega) fun _ _ _ _ => rfl
  refine Runs.bind hframe fun y s' st' hy hk => ?_
  obtain ⟨hpaid, hmoved⟩ := hk
  refine Runs.mono (k y s' st' hy) (fun hnot hs => hnot ?_) fun z s'' st'' _ hk' => ?_
  · have hpaid := hpaid 0 (by rwa [Nat.zero_add])
    rwa [Nat.zero_add] at hpaid
  · refine ⟨fun m hs => hk'.1 m (hpaid m hs), fun ht => ?_⟩
    obtain ⟨ht', hsurplus⟩ := hmoved ht
    obtain ⟨ht'', hsurplus'⟩ := hk'.2 ht'
    exact ⟨ht'', by rw [hsurplus', hsurplus]; ring⟩

theorem costs_record {f : SegmentedCounters → Except Fault SegmentedCounters} {k : ℤ}
    (hf : Bears (SegmentedCounters.Spare M) f) (hk : Shifts SegmentedCounters.net k f) :
    Costs M 1 (record f) s st (fun _ => 0) fun _ => k := by
  refine runs_record (fun e he hs => ?_) fun counters hok => ⟨fun m hs => ?_, fun ht => ⟨ht, ?_⟩⟩
  · exact hf.not_spare_of_error (n := 0) he (hs.own.mono (by omega))
  · rw [← Nat.add_assoc] at hs
    exact ⟨hf.spare_of_ok hs.own hok, fun i => (hs.segment i).mono (Nat.le_succ _), hs.below⟩
  · unfold surplus
    dsimp only
    rw [hk hok]
    change _ - ∑ i : Level top, ((s.segment i).standing : ℤ) = _
    ring

/-! ## Work at one level -/

theorem tidy_level (ht : Tidy st s) (i : Level top) : Tidy st (s.segment i) :=
  fun d hd => ht d (mem_leaves_iff.mpr ⟨i, hd⟩)

theorem le_load (s : Segmented Lru top) (i : Level top) :
    (2 * i.val + 1) * (s.segment i).queue.length ≤ s.load :=
  Finset.single_le_sum (f := fun i : Level top => (2 * i.val + 1) * Policy.count (s.segment i))
    (fun _ _ => Nat.zero_le _) (Finset.mem_univ i)

theorem surplus_setSegment (s : Segmented Lru top) (i : Level top) (c : Lru) :
    (s.setSegment i c).surplus + c.standing = s.surplus + (s.segment i).standing := by
  unfold surplus
  rw [← Finset.add_sum_erase _ _ (Finset.mem_univ i), ← Finset.add_sum_erase _ _ (Finset.mem_univ i),
    segment_setSegment, if_pos rfl]
  have hrest : ∑ j ∈ Finset.univ.erase i, (((s.setSegment i c).segment j).standing : ℤ) =
      ∑ j ∈ Finset.univ.erase i, ((s.segment j).standing : ℤ) := by
    apply Finset.sum_congr rfl
    intro j hj
    rw [segment_setSegment, if_neg (Finset.ne_of_mem_erase hj)]
  rw [hrest]
  change s.counters.net - _ + _ = _
  ring

/-- A segment that spends no more than what is freed leaves the whole sturdy. -/
theorem sturdy_setSegment {left : ℕ} (hs : s.Sturdy M (m + (2 * s.load + a)))
    (hspends : Lru.Spends M n (s.segment i) c)
    (hcapacity : c.params.capacity = (s.segment i).params.capacity)
    (hle : 2 * (s.setSegment i c).load + left + n ≤ 2 * s.load + a) :
    (s.setSegment i c).Sturdy M (m + (2 * (s.setSegment i c).load + left)) := by
  refine ⟨hs.own.mono (by omega), fun j => ?_, fun j => ?_⟩
  · rw [segment_setSegment]
    split
    · exact hspends.spare ((hs.segment i).mono (by omega))
    · exact (hs.segment j).mono (by omega)
  · rw [segment_setSegment]
    split
    · rw [hcapacity]
      exact hs.below i
    · exact hs.below j

/-- An object that leaves level `i` frees two credits in each unit of its weight, and
one of them pays for counting it. -/
theorem costs_lossAt {act : Action Lru α} {left : α → ℕ} (h : Sound st s)
    (hact : act.Runs (s.segment i) st
      ((s.segment i).queue.length ≠ 0 ∧ ¬ (s.segment i).counters.Spare M 1)
      fun x c _ => ∃ expired, Lru.Loses M (left x) expired st (s.segment i) c)
    (hshrinks : ∀ x c st', act.Yields (s.segment i) st x c st' →
      Shrinks st (s.segment i) st' c) :
    Costs M 0 (onSegment i act) s st (fun x => left x * (4 * i.val + 1)) fun x => left x := by
  refine runs_onSegment (hact.mono (F := ¬ s.Sturdy M (2 * s.load + 0)) (fun hnot hs => ?_)
    fun _ _ _ _ hk => hk) ?_
  · obtain ⟨hpos, hnot⟩ := hnot
    have hload := s.le_load i
    have hone : 1 ≤ (2 * i.val + 1) * (s.segment i).queue.length :=
      Nat.mul_pos (Nat.succ_pos _) (Nat.pos_of_ne_zero hpos)
    exact hnot ((hs.segment i).mono (by omega))
  · intro x c st' hy hk
    obtain ⟨expired, hlost⟩ := hk
    have hsegment := hshrinks x c st' hy
    refine ⟨fun m hs => sturdy_setSegment hs hlost.spends hsegment.capacity ?_, fun ht => ⟨?_, ?_⟩⟩
    · have hload := load_setSegment s i c
      have hlength : Policy.count c + (left x + expired) ≤ Policy.count (s.segment i) := hlost.length
      have hmul := Nat.mul_le_mul_left (2 * i.val + 1) hlength
      rw [Nat.mul_add] at hmul
      have hweight : 2 * ((2 * i.val + 1) * (left x + expired)) =
          left x * (4 * i.val + 1) + expired * (4 * i.val + 1) + (left x + expired) := by ring
      dsimp only
      omega
    · exact (shrinks_setSegment h hsegment).tidy ht
    · have hsum := s.surplus_setSegment i c
      rw [← hlost.standing (tidy_level ht i)] at hsum
      push_cast at hsum
      linarith

theorem costs_evictAt (h : Sound st s) (i : Level top) :
    Costs M 0 (onSegment i (Policy.evict : Action Lru _)) s st
      (fun victim => victim.isSome.toNat * (4 * i.val + 1)) fun victim => victim.isSome.toNat := by
  have hsegment := sound_segment h i
  refine costs_lossAt h ((Lru.runs_evict (Lru.sound_iff.mp hsegment)).mono id
    fun _ _ _ _ k => ⟨0, k⟩) ?_
  intro victim c st' hy
  exact ((Lawful.ensures_evict hsegment).apply hy).1

theorem costs_removeAt (h : Sound st s) (i : Level top) (id : ObjectId) :
    Costs M 0 (onSegment i (Policy.remove id : Action Lru _)) s st
      (fun removed => removed.isSome.toNat * (4 * i.val + 1))
      fun removed => removed.isSome.toNat := by
  have hsegment := sound_segment h i
  refine costs_lossAt h ((Lru.runs_remove (Lru.sound_iff.mp hsegment) id).mono (fun hE => hE)
    fun _ _ _ _ k => ⟨0, k⟩) ?_
  intro removed c st' hy
  exact ((Lawful.ensures_remove hsegment id).apply hy).1

/-- A lookup pays for the expired object that it drops with the weight of that. -/
theorem costs_checkAt (h : Sound st s) (i : Level top) (r : Request) (update : Bool) :
    Costs M 0 (onSegment i (Policy.check r update : Action Lru _)) s st (fun _ => 0) fun _ => 0 := by
  have hsegment := sound_segment h i
  have hloss : Costs M 0 (onSegment i (Policy.check r update : Action Lru _)) s st
      (fun _ => 0 * (4 * i.val + 1)) fun _ => (0 : ℕ) := by
    refine costs_lossAt h ((Lru.runs_check (Lru.sound_iff.mp hsegment) r update).mono
      (fun hE => hE) ?_) ?_
    · intro _ _ _ _ hk
      obtain ⟨expired, -, k⟩ := hk
      exact ⟨expired, k⟩
    · intro found c st' hy
      exact ((Lawful.ensures_check hsegment r update).apply hy).1
  exact hloss.mono le_rfl (fun _ => Nat.zero_le _) fun _ _ _ _ => Nat.cast_zero.symm

theorem hasRoomAt_eq_true_iff {size : Bytes} : s.hasRoomAt i size = .ok true ↔
    Word.saturatingAdd (s.segment i).occupied ((s.segment i).charge size) ≤
      (s.segment i).params.capacity := by
  unfold hasRoomAt
  rw [Lru.hasRoom_eq, Except.ok.injEq, decide_eq_true_eq]

/-- There is room in a level that has it, and in an empty one for what can fit there at
all. -/
theorem costs_insertAt {r : Request} (h : Sound st s) (hid : r.id ∉ held st s)
    (hM : r.size.toNat ≤ M)
    (hroom : s.hasRoomAt i r.size = .ok true ∨ Policy.count (s.segment i) = 0) :
    Costs M (4 * i.val + 3) (onSegment i (Policy.insert r : Action Lru _)) s st (fun _ => 0)
      fun res => -res.isSome.toNat := by
  have hsegment := sound_segment h i
  have hcoh := Lru.sound_iff.mp hsegment
  have hnot : ∀ j, r.id ∉ held st (s.segment j) := fun j hm => hid (mem_held_iff.mpr ⟨j, hm⟩)
  have hothers : r.id ∉ Lru.held st (others s i) := fun hm => hid ((held_eq st s i).symm ▸ .inr hm)
  have hempty : s.hasRoomAt i r.size = .ok true ∨ (s.segment i).objects = [] :=
    hroom.imp_right fun hc => List.eq_nil_of_length_eq_zero (hcoh.length_objects.trans hc)
  have hn : Word.saturatingAdd (s.segment i).occupied ((s.segment i).charge r.size) ≤
      (s.segment i).params.capacity ∨ (s.segment i).queue.length ≤ 0 :=
    hroom.imp hasRoomAt_eq_true_iff.mp Nat.le_of_eq
  refine runs_onSegment ((Lru.runs_insert hcoh hM hn).mono
    (F := ¬ s.Sturdy M (2 * s.load + (4 * i.val + 3))) ?_ fun _ _ _ _ hk => hk) ?_
  · rintro (hspare | hover) hs
    · exact hspare ((hs.segment i).mono (by omega))
    · exact Lru.not_overflows hcoh.toCharged (hs.below i)
        (hempty.imp_left hasRoomAt_eq_true_iff.mp) hover
  · intro res c st' hy hk
    obtain ⟨hspends, hadds⟩ := hk
    have hkept := ((Lawful.ensures_insert hsegment r).apply hy).1
    refine ⟨fun m hs => sturdy_setSegment hs hspends hkept.capacity ?_, fun ht => ⟨?_, ?_⟩⟩
    · have hload := load_setSegment s i c
      have hcount : Policy.count c ≤ Policy.count (s.segment i) + 1 := Counted.count_insert hy
      have hmul := Nat.mul_le_mul_left (2 * i.val + 1) hcount
      rw [Nat.mul_add, Nat.mul_one] at hmul
      dsimp only
      omega
    · have hat : (onSegment i (Policy.insert r)).Yields s st res (s.setSegment i c) st' :=
        yields_onSegment_iff.mpr ⟨c, hy, rfl⟩
      exact ((ensures_insertAt h i hothers).apply hat).1.tidy ht
    · have hadded : c.standing = (s.segment i).standing + res.isSome.toNat := by
        by_cases hr : s.hasRoomAt i r.size = .ok true
        · exact (hadds (tidy_level ht i) (hnot i)).2 (hasRoomAt_eq_true_iff.mp hr)
        · have hbars : (s.segment i).params.capacity < (s.segment i).charge r.size := by
            refine UInt64.not_le.mp fun hle => hr ?_
            exact Lru.hasRoom_of_nil hcoh.toCharged (hempty.resolve_left hr) hle
          obtain ⟨rfl, rfl, -⟩ := Lru.refuses hbars hy
          rfl
      have hsum := s.surplus_setSegment i c
      rw [hadded] at hsum
      push_cast at hsum
      linarith

theorem accepts_of_hasRoomAt {r : Request} {res : Option CacheObject}
    (hroom : s.hasRoomAt i r.size = .ok true)
    (hy : (onSegment i (Policy.insert r : Action Lru _)).Yields s st res s' st') : res ≠ none := by
  obtain ⟨c, hc, -⟩ := yields_onSegment_iff.mp hy
  exact Lru.accepts (UInt64.not_lt.mpr (Lru.charge_le_of_hasRoom hroom)) hc

end Segmented
end SegmentedCache
