import Mathlib
import SegmentedCache.Counters.Basic

/-!
# What is counted

A record that does not fault adds to the counters that it is about and leaves
the others as they are. Of the objects that entered, the net count leaves out those
that were evicted or removed; a record shifts it by a fixed amount.
-/
namespace SegmentedCache

theorem Word.error_of_bind_pure {α β : Type} {x : Except Fault α} {g : α → β} {e : Fault}
    (h : (x >>= fun a => pure (g a)) = .error e) : x = .error e := by
  cases x with
  | ok a => cases h
  | error e' => exact congrArg Except.error (Except.error.inj h)

theorem Counters.recordEviction_eq_ok {c c' : Counters} (h : c.recordEviction = .ok c') :
    ∃ n, n.toNat = c.evictions.toNat + 1 ∧ c' = { c with evictions := n } := by
  obtain ⟨n, hn, hc⟩ := bind_eq_ok_iff.mp h
  exact ⟨n, (Word.add_eq_ok_iff.mp hn).symm, (Except.ok.inj hc).symm⟩

theorem Counters.largest_of_recordEviction {k : Counters} {e : Fault}
    (h : k.recordEviction = .error e) : k.evictions = Word.largest := by
  obtain ⟨-, hover⟩ := Word.add_eq_error_iff.mp (Word.error_of_bind_pure h)
  have hlt := k.evictions.toNat_lt_size
  rw [← UInt64.toNat_inj, Word.toNat_largest]
  rw [UInt64.toNat_one] at hover
  omega

theorem Counters.evictions_recordHit {c c' : Counters} {size : Bytes}
    (h : c.recordHit size = .ok c') : c'.evictions = c.evictions := by
  obtain ⟨n₁, -, h₁⟩ := bind_eq_ok_iff.mp h
  obtain ⟨n₂, -, h₂⟩ := bind_eq_ok_iff.mp h₁
  obtain ⟨n₃, -, h₃⟩ := bind_eq_ok_iff.mp h₂
  obtain ⟨n₄, -, h₄⟩ := bind_eq_ok_iff.mp h₃
  rw [← Except.ok.inj h₄]

/-- A record that shifts a quantity by `d`. -/
def Shifts {K : Type} (quantity : K → ℤ) (d : ℤ) (f : K → Except Fault K) : Prop :=
  ∀ ⦃k k'⦄, f k = .ok k' → quantity k' = quantity k + d

namespace Counters
variable {size : Bytes}

/-- The objects that entered and were not evicted. -/
def net (k : Counters) : ℤ := k.insertions.toNat - k.evictions.toNat

theorem shifts_recordHit : Shifts net 0 (·.recordHit size) := by
  intro k k' h
  obtain ⟨n₁, -, h₁⟩ := bind_eq_ok_iff.mp h
  obtain ⟨n₂, -, h₂⟩ := bind_eq_ok_iff.mp h₁
  obtain ⟨n₃, -, h₃⟩ := bind_eq_ok_iff.mp h₂
  obtain ⟨n₄, -, h₄⟩ := bind_eq_ok_iff.mp h₃
  rw [← Except.ok.inj h₄, add_zero]
  rfl

theorem shifts_recordMiss : Shifts net 0 (·.recordMiss size) := by
  intro k k' h
  obtain ⟨n₁, -, h₁⟩ := bind_eq_ok_iff.mp h
  obtain ⟨n₂, -, h₂⟩ := bind_eq_ok_iff.mp h₁
  rw [← Except.ok.inj h₂, add_zero]
  rfl

theorem shifts_recordExpired : Shifts net 0 (·.recordExpired size) := by
  intro k k' h
  obtain ⟨k₁, hmiss, h₁⟩ := bind_eq_ok_iff.mp h
  obtain ⟨n, -, h₂⟩ := bind_eq_ok_iff.mp h₁
  rw [← shifts_recordMiss hmiss, ← Except.ok.inj h₂]
  rfl

theorem shifts_recordLookup (found : Lookup) : Shifts net 0 (·.recordLookup size found) := by
  cases found with
  | hit => exact shifts_recordHit
  | miss => exact shifts_recordMiss
  | expired => exact shifts_recordExpired

theorem shifts_recordInsertion : Shifts net 1 (·.recordInsertion size) := by
  intro k k' h
  obtain ⟨insertions, hadd, h₁⟩ := bind_eq_ok_iff.mp h
  obtain ⟨bytesWritten, -, h₂⟩ := bind_eq_ok_iff.mp h₁
  have hn := Word.add_eq_ok_iff.mp hadd
  rw [← Except.ok.inj h₂]
  unfold net
  dsimp only
  rw [← hn, UInt64.toNat_one]
  push_cast
  ring

theorem shifts_recordEviction : Shifts net (-1) recordEviction := by
  intro k k' h
  obtain ⟨evictions, hn, rfl⟩ := recordEviction_eq_ok h
  unfold net
  dsimp only
  rw [hn]
  push_cast
  ring

end Counters

namespace LruCounters

/-- The objects that entered and were neither evicted nor removed. -/
def net (k : LruCounters) : ℤ := k.core.net - k.removals.toNat

theorem shifts_onCore {f : Counters → Except Fault Counters} {d : ℤ} (hf : Shifts Counters.net d f) :
    Shifts net d (onCore f) := by
  intro k k' h
  obtain ⟨core, hcore, h₁⟩ := bind_eq_ok_iff.mp h
  rw [← Except.ok.inj h₁]
  unfold net
  dsimp only
  rw [hf hcore]
  ring

theorem expiredRemovals_onCore {f : Counters → Except Fault Counters} {k k' : LruCounters}
    (h : k.onCore f = .ok k') : k'.expiredRemovals = k.expiredRemovals := by
  obtain ⟨core, -, h₁⟩ := bind_eq_ok_iff.mp h
  rw [← Except.ok.inj h₁]

theorem recordRemoval_eq_ok {k k' : LruCounters} (h : k.recordRemoval = .ok k') :
    ∃ n, n.toNat = k.removals.toNat + 1 ∧ k' = { k with removals := n } := by
  obtain ⟨n, hn, hk⟩ := bind_eq_ok_iff.mp h
  exact ⟨n, (Word.add_eq_ok_iff.mp hn).symm, (Except.ok.inj hk).symm⟩

theorem recordExpiredRemoval_eq_ok {k k' : LruCounters} (h : k.recordExpiredRemoval = .ok k') :
    ∃ n, n.toNat = k.expiredRemovals.toNat + 1 ∧ k' = { k with expiredRemovals := n } := by
  obtain ⟨n, hn, hk⟩ := bind_eq_ok_iff.mp h
  exact ⟨n, (Word.add_eq_ok_iff.mp hn).symm, (Except.ok.inj hk).symm⟩

theorem shifts_recordRemoval : Shifts net (-1) recordRemoval := by
  intro k k' h
  obtain ⟨n, hn, rfl⟩ := recordRemoval_eq_ok h
  unfold net
  dsimp only
  rw [hn]
  push_cast
  ring

end LruCounters

namespace SegmentedCounters
variable {c c' : SegmentedCounters}

theorem onCore_eq_ok {f : Counters → Except Fault Counters} (h : c.onCore f = .ok c') :
    ∃ core, f c.core = .ok core ∧ c' = { c with core } := by
  obtain ⟨core, hcore, hc⟩ := bind_eq_ok_iff.mp h
  exact ⟨core, hcore, (Except.ok.inj hc).symm⟩

theorem recordPromotion_eq_ok (h : c.recordPromotion = .ok c') :
    ∃ n, n.toNat = c.promotions.toNat + 1 ∧ c' = { c with promotions := n } := by
  obtain ⟨n, hn, hc⟩ := bind_eq_ok_iff.mp h
  exact ⟨n, (Word.add_eq_ok_iff.mp hn).symm, (Except.ok.inj hc).symm⟩

theorem recordDemotion_eq_ok (h : c.recordDemotion = .ok c') :
    ∃ n, n.toNat = c.demotions.toNat + 1 ∧ c' = { c with demotions := n } := by
  obtain ⟨n, hn, hc⟩ := bind_eq_ok_iff.mp h
  exact ⟨n, (Word.add_eq_ok_iff.mp hn).symm, (Except.ok.inj hc).symm⟩

theorem recordCoolingDrop_eq_ok (h : c.recordCoolingDrop = .ok c') :
    ∃ n core, n.toNat = c.coolingDrops.toNat + 1 ∧ c.core.recordEviction = .ok core ∧
      c' = { c with coolingDrops := n, core } := by
  obtain ⟨n, hn, h₁⟩ := bind_eq_ok_iff.mp h
  obtain ⟨core, hcore, h₂⟩ := bind_eq_ok_iff.mp h₁
  exact ⟨n, core, (Word.add_eq_ok_iff.mp hn).symm, hcore, (Except.ok.inj h₂).symm⟩

/-- A hit in a segment is a hit of the whole and counts nothing else but itself. -/
theorem recordSegmentHit_eq_ok {i : Nat} {size : Bytes} (h : c.recordSegmentHit i size = .ok c') :
    ∃ core segmentHits, c.core.recordHit size = .ok core ∧
      c' = { c with core, segmentHits } := by
  obtain ⟨core, hcore, hc⟩ := bind_eq_ok_iff.mp h
  split at hc
  next => exact ⟨core, c.segmentHits, hcore, (Except.ok.inj hc).symm⟩
  next hits _ =>
    obtain ⟨n, -, hc⟩ := bind_eq_ok_iff.mp hc
    exact ⟨core, c.segmentHits.set i n, hcore, (Except.ok.inj hc).symm⟩

/-- A record that is not about dropped objects. -/
def Sparing (f : SegmentedCounters → Except Fault SegmentedCounters) : Prop :=
  ∀ ⦃c c'⦄, f c = .ok c' → c'.coolingDrops = c.coolingDrops

theorem sparing_onCore (f : Counters → Except Fault Counters) : Sparing (onCore f) := by
  intro c c' h
  obtain ⟨core, -, rfl⟩ := onCore_eq_ok h
  rfl

theorem sparing_recordDemotion : Sparing recordDemotion := by
  intro c c' h
  obtain ⟨n, -, rfl⟩ := recordDemotion_eq_ok h
  rfl

theorem sparing_recordPromotion : Sparing recordPromotion := by
  intro c c' h
  obtain ⟨n, -, rfl⟩ := recordPromotion_eq_ok h
  rfl

theorem sparing_recordSegmentHit (i : Nat) (size : Bytes) :
    Sparing (·.recordSegmentHit i size) := by
  intro c c' h
  obtain ⟨core, segmentHits, -, rfl⟩ := recordSegmentHit_eq_ok h
  rfl

theorem sparing_recordRemoval : Sparing recordRemoval := by
  intro c c' h
  obtain ⟨n, -, hc⟩ := bind_eq_ok_iff.mp h
  rw [← Except.ok.inj hc]

/-- The objects that entered and were neither evicted nor removed. -/
def net (k : SegmentedCounters) : ℤ := k.core.net - k.removals.toNat

theorem shifts_onCore {f : Counters → Except Fault Counters} {d : ℤ} (hf : Shifts Counters.net d f) :
    Shifts net d (onCore f) := by
  intro k k' h
  obtain ⟨core, hcore, rfl⟩ := onCore_eq_ok h
  unfold net
  dsimp only
  rw [hf hcore]
  ring

theorem shifts_recordSegmentHit {i : Nat} {size : Bytes} :
    Shifts net 0 (·.recordSegmentHit i size) := by
  intro k k' h
  obtain ⟨core, segmentHits, hcore, rfl⟩ := recordSegmentHit_eq_ok h
  unfold net
  dsimp only
  rw [Counters.shifts_recordHit hcore]
  ring

theorem shifts_recordPromotion : Shifts net 0 recordPromotion := by
  intro k k' h
  obtain ⟨n, -, rfl⟩ := recordPromotion_eq_ok h
  exact (add_zero _).symm

theorem shifts_recordDemotion : Shifts net 0 recordDemotion := by
  intro k k' h
  obtain ⟨n, -, rfl⟩ := recordDemotion_eq_ok h
  exact (add_zero _).symm

/-- An object dropped while cooling counts as evicted. -/
theorem shifts_recordCoolingDrop : Shifts net (-1) recordCoolingDrop := by
  intro k k' h
  obtain ⟨n, -, h₁⟩ := bind_eq_ok_iff.mp h
  obtain ⟨core, hcore, h₂⟩ := bind_eq_ok_iff.mp h₁
  rw [← Except.ok.inj h₂]
  unfold net
  dsimp only
  rw [Counters.shifts_recordEviction hcore]
  ring

theorem shifts_recordRemoval : Shifts net (-1) recordRemoval := by
  intro k k' h
  obtain ⟨n, hn, h₁⟩ := bind_eq_ok_iff.mp h
  rw [← Except.ok.inj h₁]
  unfold net
  dsimp only
  rw [← Word.add_eq_ok_iff.mp hn, UInt64.toNat_one]
  push_cast
  ring

end SegmentedCounters
end SegmentedCache
