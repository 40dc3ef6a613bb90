import Mathlib
import SegmentedCache.Proofs.Counting

/-!
# Headroom of the counters

A word can spare `n` additions of at most `w` if it stays in range for that long.
Counters can spare `n` events of at most `M` bytes each if every counter can spare
them: a record moves each counter by at most one, and each byte counter by at most
one size. So one number measures the headroom of all counters of a cache, and a
record takes one off it.
-/
namespace SegmentedCache

variable {M m n w : ℕ}

namespace Word
variable {a b : UInt64}

def Spare (w n : ℕ) (a : UInt64) : Prop := a.toNat + n * w < UInt64.size

instance (w n : ℕ) (a : UInt64) : Decidable (Spare w n a) := inferInstanceAs (Decidable (_ < _))

theorem Spare.mono (h : Spare w n a) (hmn : m ≤ n) : Spare w m a :=
  Nat.lt_of_le_of_lt (Nat.add_le_add_left (Nat.mul_le_mul_right w hmn) _) h

theorem Spare.add (h : Spare w (n + 1) a) (hb : b.toNat ≤ w) :
    ∃ c, Word.add a b = .ok c ∧ Spare w n c := by
  unfold Spare at *
  rw [Nat.succ_mul] at h
  have hsum : (a + b).toNat = a.toNat + b.toNat := toNat_add_of_lt (by omega)
  exact ⟨a + b, add_eq_ok_iff.mpr hsum.symm, by omega⟩

theorem Spare.succ (h : Spare 1 (n + 1) a) : ∃ c, Word.add a 1 = .ok c ∧ Spare 1 n c := h.add le_rfl

end Word

structure Counters.Spare (M n : ℕ) (k : Counters) : Prop where
  requests : Word.Spare 1 n k.requests
  hits : Word.Spare 1 n k.hits
  expired : Word.Spare 1 n k.expired
  bytesRequested : Word.Spare M n k.bytesRequested
  bytesServed : Word.Spare M n k.bytesServed
  bytesWritten : Word.Spare M n k.bytesWritten
  insertions : Word.Spare 1 n k.insertions
  evictions : Word.Spare 1 n k.evictions

structure LruCounters.Spare (M n : ℕ) (k : LruCounters) : Prop where
  core : k.core.Spare M n
  removals : Word.Spare 1 n k.removals
  expiredRemovals : Word.Spare 1 n k.expiredRemovals

structure SegmentedCounters.Spare (M n : ℕ) (k : SegmentedCounters) : Prop where
  core : k.core.Spare M n
  segmentHits : ∀ hits ∈ k.segmentHits, Word.Spare 1 n hits
  promotions : Word.Spare 1 n k.promotions
  demotions : Word.Spare 1 n k.demotions
  coolingDrops : Word.Spare 1 n k.coolingDrops
  removals : Word.Spare 1 n k.removals

/-- A record that does not fault as long as an event can be spared, and takes one
off. -/
def Bears {K : Type} (spare : ℕ → K → Prop) (f : K → Except Fault K) : Prop :=
  ∀ ⦃n k⦄, spare (n + 1) k → ∃ k', f k = .ok k' ∧ spare n k'

theorem Bears.spare_of_ok {K : Type} {spare : ℕ → K → Prop} {f : K → Except Fault K}
    (h : Bears spare f) {k k' : K} (hs : spare (n + 1) k) (hk : f k = .ok k') : spare n k' := by
  obtain ⟨k'', hk'', hs'⟩ := h hs
  rw [hk] at hk''
  rwa [Except.ok.inj hk'']

theorem Bears.not_spare_of_error {K : Type} {spare : ℕ → K → Prop} {f : K → Except Fault K}
    (h : Bears spare f) {k : K} {e : Fault} (hk : f k = .error e) : ¬ spare (n + 1) k := by
  intro hs
  obtain ⟨k', hk', -⟩ := h hs
  rw [hk] at hk'
  cases hk'

namespace Counters
variable {k : Counters} {size : Bytes}

instance (M n : ℕ) (k : Counters) : Decidable (k.Spare M n) :=
  decidable_of_iff (Word.Spare 1 n k.requests ∧ Word.Spare 1 n k.hits ∧ Word.Spare 1 n k.expired ∧
      Word.Spare M n k.bytesRequested ∧ Word.Spare M n k.bytesServed ∧
      Word.Spare M n k.bytesWritten ∧ Word.Spare 1 n k.insertions ∧ Word.Spare 1 n k.evictions)
    ⟨fun ⟨a, b, c, d, e, f, g, h⟩ => ⟨a, b, c, d, e, f, g, h⟩,
      fun ⟨a, b, c, d, e, f, g, h⟩ => ⟨a, b, c, d, e, f, g, h⟩⟩

theorem Spare.mono (h : k.Spare M n) (hmn : m ≤ n) : k.Spare M m :=
  ⟨h.requests.mono hmn, h.hits.mono hmn, h.expired.mono hmn, h.bytesRequested.mono hmn,
    h.bytesServed.mono hmn, h.bytesWritten.mono hmn, h.insertions.mono hmn, h.evictions.mono hmn⟩

theorem bears_recordHit (hM : size.toNat ≤ M) : Bears (Spare M) (·.recordHit size) := by
  intro n k h
  obtain ⟨requests, hr, er⟩ := h.requests.succ
  obtain ⟨hits, hh, eh⟩ := h.hits.succ
  obtain ⟨bytesRequested, hb, eb⟩ := h.bytesRequested.add hM
  obtain ⟨bytesServed, hs, es⟩ := h.bytesServed.add hM
  refine ⟨{ k with requests, hits, bytesRequested, bytesServed }, ?_, ?_⟩
  · change k.recordHit size = _
    unfold recordHit
    rw [hr, hh, hb, hs]
    rfl
  · exact { h.mono n.le_succ with
      requests := er, hits := eh, bytesRequested := eb, bytesServed := es }

theorem bears_recordMiss (hM : size.toNat ≤ M) : Bears (Spare M) (·.recordMiss size) := by
  intro n k h
  obtain ⟨requests, hr, er⟩ := h.requests.succ
  obtain ⟨bytesRequested, hb, eb⟩ := h.bytesRequested.add hM
  refine ⟨{ k with requests, bytesRequested }, ?_, ?_⟩
  · change k.recordMiss size = _
    unfold recordMiss
    rw [hr, hb]
    rfl
  · exact { h.mono n.le_succ with requests := er, bytesRequested := eb }

theorem bears_recordExpired (hM : size.toNat ≤ M) : Bears (Spare M) (·.recordExpired size) := by
  intro n k h
  obtain ⟨requests, hr, er⟩ := h.requests.succ
  obtain ⟨bytesRequested, hb, eb⟩ := h.bytesRequested.add hM
  obtain ⟨expired, he, ee⟩ := h.expired.succ
  refine ⟨{ k with requests, bytesRequested, expired }, ?_, ?_⟩
  · change k.recordExpired size = _
    unfold recordExpired recordMiss
    rw [hr, hb]
    change Word.add k.expired 1 >>= _ = _
    rw [he]
    rfl
  · exact { h.mono n.le_succ with requests := er, bytesRequested := eb, expired := ee }

theorem bears_recordLookup (hM : size.toNat ≤ M) (found : Lookup) :
    Bears (Spare M) (·.recordLookup size found) := by
  cases found with
  | hit => exact bears_recordHit hM
  | miss => exact bears_recordMiss hM
  | expired => exact bears_recordExpired hM

theorem bears_recordInsertion (hM : size.toNat ≤ M) : Bears (Spare M) (·.recordInsertion size) := by
  intro n k h
  obtain ⟨insertions, hi, ei⟩ := h.insertions.succ
  obtain ⟨bytesWritten, hb, eb⟩ := h.bytesWritten.add hM
  refine ⟨{ k with insertions, bytesWritten }, ?_, ?_⟩
  · change k.recordInsertion size = _
    unfold recordInsertion
    rw [hi, hb]
    rfl
  · exact { h.mono n.le_succ with insertions := ei, bytesWritten := eb }

theorem bears_recordEviction : Bears (Spare M) recordEviction := by
  intro n k h
  obtain ⟨evictions, hv, ev⟩ := h.evictions.succ
  refine ⟨{ k with evictions }, ?_, ?_⟩
  · unfold recordEviction
    rw [hv]
    rfl
  · exact { h.mono n.le_succ with evictions := ev }

end Counters

namespace LruCounters
variable {k : LruCounters}

instance (M n : ℕ) (k : LruCounters) : Decidable (k.Spare M n) :=
  decidable_of_iff (k.core.Spare M n ∧ Word.Spare 1 n k.removals ∧ Word.Spare 1 n k.expiredRemovals)
    ⟨fun ⟨a, b, c⟩ => ⟨a, b, c⟩, fun ⟨a, b, c⟩ => ⟨a, b, c⟩⟩

theorem Spare.mono (h : k.Spare M n) (hmn : m ≤ n) : k.Spare M m :=
  ⟨h.core.mono hmn, h.removals.mono hmn, h.expiredRemovals.mono hmn⟩

theorem bears_onCore {f : Counters → Except Fault Counters} (hf : Bears (Counters.Spare M) f) :
    Bears (Spare M) (onCore f) := by
  intro n k h
  obtain ⟨core, hcore, e⟩ := hf h.core
  refine ⟨{ k with core }, ?_, { h.mono n.le_succ with core := e }⟩
  unfold onCore
  rw [hcore]
  rfl

theorem bears_recordRemoval : Bears (Spare M) recordRemoval := by
  intro n k h
  obtain ⟨removals, hr, e⟩ := h.removals.succ
  refine ⟨{ k with removals }, ?_, { h.mono n.le_succ with removals := e }⟩
  unfold recordRemoval
  rw [hr]
  rfl

theorem bears_recordExpiredRemoval : Bears (Spare M) recordExpiredRemoval := by
  intro n k h
  obtain ⟨expiredRemovals, hr, e⟩ := h.expiredRemovals.succ
  refine ⟨{ k with expiredRemovals }, ?_, { h.mono n.le_succ with expiredRemovals := e }⟩
  unfold recordExpiredRemoval
  rw [hr]
  rfl

end LruCounters

namespace SegmentedCounters
variable {k : SegmentedCounters} {size : Bytes}

instance (M n : ℕ) (k : SegmentedCounters) : Decidable (k.Spare M n) :=
  decidable_of_iff (k.core.Spare M n ∧ (k.segmentHits.all fun hits => Word.Spare 1 n hits) ∧
      Word.Spare 1 n k.promotions ∧ Word.Spare 1 n k.demotions ∧ Word.Spare 1 n k.coolingDrops ∧
      Word.Spare 1 n k.removals) <| by
    simp only [List.all_eq_true, decide_eq_true_eq]
    exact ⟨fun ⟨a, b, c, d, e, f⟩ => ⟨a, b, c, d, e, f⟩, fun ⟨a, b, c, d, e, f⟩ => ⟨a, b, c, d, e, f⟩⟩

theorem Spare.mono (h : k.Spare M n) (hmn : m ≤ n) : k.Spare M m :=
  ⟨h.core.mono hmn, fun hits hh => (h.segmentHits hits hh).mono hmn, h.promotions.mono hmn,
    h.demotions.mono hmn, h.coolingDrops.mono hmn, h.removals.mono hmn⟩

theorem bears_onCore {f : Counters → Except Fault Counters} (hf : Bears (Counters.Spare M) f) :
    Bears (Spare M) (onCore f) := by
  intro n k h
  obtain ⟨core, hcore, e⟩ := hf h.core
  refine ⟨{ k with core }, ?_, { h.mono n.le_succ with core := e }⟩
  unfold onCore
  rw [hcore]
  rfl

theorem bears_recordSegmentHit (hM : size.toNat ≤ M) (i : ℕ) :
    Bears (Spare M) (·.recordSegmentHit i size) := by
  intro n k h
  obtain ⟨core, hcore, e⟩ := Counters.bears_recordHit hM h.core
  dsimp only at hcore
  have hold := h.mono n.le_succ
  change ∃ k', k.recordSegmentHit i size = .ok k' ∧ _
  unfold recordSegmentHit
  rw [hcore]
  cases hi : k.segmentHits[i]? with
  | none => exact ⟨{ k with core }, rfl, { hold with core := e }⟩
  | some hits =>
    obtain ⟨hits', hh, eh⟩ := (h.segmentHits hits (List.mem_of_getElem? hi)).succ
    refine ⟨{ k with core, segmentHits := k.segmentHits.set i hits' }, ?_, ?_⟩
    · dsimp only
      rw [hh]
      rfl
    · refine { hold with core := e, segmentHits := fun x hx => ?_ }
      rcases List.mem_or_eq_of_mem_set hx with hx | rfl
      · exact hold.segmentHits x hx
      · exact eh

theorem bears_recordPromotion : Bears (Spare M) recordPromotion := by
  intro n k h
  obtain ⟨promotions, hr, e⟩ := h.promotions.succ
  refine ⟨{ k with promotions }, ?_, { h.mono n.le_succ with promotions := e }⟩
  unfold recordPromotion
  rw [hr]
  rfl

theorem bears_recordDemotion : Bears (Spare M) recordDemotion := by
  intro n k h
  obtain ⟨demotions, hr, e⟩ := h.demotions.succ
  refine ⟨{ k with demotions }, ?_, { h.mono n.le_succ with demotions := e }⟩
  unfold recordDemotion
  rw [hr]
  rfl

theorem bears_recordCoolingDrop : Bears (Spare M) recordCoolingDrop := by
  intro n k h
  obtain ⟨coolingDrops, hr, e⟩ := h.coolingDrops.succ
  obtain ⟨core, hcore, ecore⟩ := Counters.bears_recordEviction h.core
  refine ⟨{ k with coolingDrops, core }, ?_,
    { h.mono n.le_succ with coolingDrops := e, core := ecore }⟩
  unfold recordCoolingDrop
  rw [hr, hcore]
  rfl

theorem bears_recordRemoval : Bears (Spare M) recordRemoval := by
  intro n k h
  obtain ⟨removals, hr, e⟩ := h.removals.succ
  refine ⟨{ k with removals }, ?_, { h.mono n.le_succ with removals := e }⟩
  unfold recordRemoval
  rw [hr]
  rfl

end SegmentedCounters
end SegmentedCache
