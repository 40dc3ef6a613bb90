import SegmentedCache.Proofs.Lru.Tidy
import SegmentedCache.Proofs.Policy.Settings

/-!
# Refusals

A cache bars an object that can never fit before it touches anything. Whatever it
does afterwards is not undone, so a refusal that comes from a segment, when room
has been made for the object already, comes too late.

A cache is open to a size if no segmented cache in it bars that size and neither do
their coldest segments, which take what no segment has room for. An insertion into
an open cache is not refused late. Capacities and overheads decide what is barred,
and no operation changes them.
-/
namespace SegmentedCache

namespace Policy
open SegmentedCache.Action
variable {C : Type}

class Screened (C : Type) where
  /-- An object of this size is refused before anything is touched. -/
  Bars : C → Bytes → Bool
  /-- Nothing inside refuses an object of this size late. -/
  Open : C → Bytes → Prop

/-- All that refusals depend on. -/
def screen [Policy C] [Screened C] (c : C) : Bytes × (Bytes → Bool) × (Bytes → Prop) :=
  (capacity c, Screened.Bars c, Screened.Open c)

class Screening (C : Type) [Policy C] extends Screened C where
  refuses : ∀ {c c' : C} {st st' : Store} {r : Request} {o : Option CacheObject},
    Bars c r.size → (insert r).Yields c st o c' st' →
      o = none ∧ c' = c ∧ ∃ events, st' = { st with events }
  accepts : ∀ {c c' : C} {st st' : Store} {r : Request} {o : Option CacheObject},
    Open c r.size → ¬ Bars c r.size → (insert r).Yields c st o c' st' → o ≠ none
  not_bars : ∀ {c : C} {size : Bytes}, Open c size → hasRoom c size = .ok true → ¬ Bars c size
  constant_screen : Constant (screen : C → _)

/-- A refusal by a cache that is open to what it does not bar changes nothing. -/
theorem unchanged_of_refused [Policy C] [Screening C] {c c' : C} {st st' : Store} {r : Request}
    (hopen : ¬ Screened.Bars c r.size → Screened.Open c r.size)
    (hy : (insert r).Yields c st none c' st') : c' = c ∧ ∃ events, st' = { st with events } := by
  by_cases hbars : Screened.Bars c r.size
  · exact (Screening.refuses hbars hy).2
  · exact absurd rfl (Screening.accepts (hopen hbars) hbars hy)

end Policy

namespace Lru
open SegmentedCache.Action Policy
variable {c c' : Lru} {st st' : Store} {r : Request} {res : Option CacheObject}

instance : Screened Lru where
  Bars c size := decide (c.params.capacity < c.charge size)
  Open _ _ := True

theorem constant_screen : Constant (screen : Lru → _) :=
  constant_params.of_eq fun c c' h => by
    change (c'.params.capacity, (fun size => decide (c'.params.capacity < c'.charge size)),
      fun _ => True) = _
    unfold charge
    rw [h]
    rfl

theorem refuses (h : c.params.capacity < c.charge r.size)
    (hy : (insert r).Yields c st res c' st') :
    res = none ∧ c' = c ∧ ∃ events, st' = { st with events } := by
  unfold insert at hy
  rw [yields_get_bind_iff] at hy
  dsimp only at hy
  rw [if_pos h] at hy
  obtain ⟨_, c₁, st₁, hemit, hpure⟩ := yields_bind_iff.mp hy
  obtain ⟨rfl, rfl⟩ := yields_emit_iff.mp hemit
  obtain ⟨rfl, rfl, rfl⟩ := yields_pure_iff.mp hpure
  exact ⟨rfl, rfl, _, rfl⟩

theorem accepts (h : ¬ c.params.capacity < c.charge r.size)
    (hy : (insert r).Yields c st res c' st') : res ≠ none := by
  unfold insert at hy
  rw [yields_get_bind_iff] at hy
  dsimp only at hy
  rw [if_neg h] at hy
  obtain ⟨_, c₁, st₁, hdisplace, h₁⟩ := yields_bind_iff.mp hy
  obtain ⟨_, c₂, st₂, hroom, h₂⟩ := yields_bind_iff.mp h₁
  obtain ⟨o, c₃, st₃, hlink, h₃⟩ := yields_bind_iff.mp h₂
  obtain ⟨_, c₄, st₄, hrecord, h₄⟩ := yields_bind_iff.mp h₃
  rw [(yields_pure_iff.mp h₄).1]
  exact Option.some_ne_none o

/-- Where there is room for a charge, the charge is within the capacity. -/
theorem charge_le_of_hasRoom {size : Bytes} (h : hasRoom c size = .ok true) :
    c.charge size ≤ c.params.capacity := by
  rw [hasRoom_eq, Except.ok.injEq, decide_eq_true_eq, UInt64.le_iff_toNat_le,
    Word.toNat_saturatingAdd] at h
  rw [UInt64.le_iff_toNat_le]
  have hlt := (c.charge size).toNat_lt_size
  omega

instance : Screening Lru where
  refuses h hy := refuses (of_decide_eq_true h) hy
  accepts _ h hy := accepts (mt decide_eq_true h) hy
  not_bars _ h hbars := UInt64.not_lt.mpr (charge_le_of_hasRoom h) (of_decide_eq_true hbars)
  constant_screen := constant_screen

end Lru
end SegmentedCache
