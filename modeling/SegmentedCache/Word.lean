import SegmentedCache.Fault

/-!
# Sums and differences of 64-bit words

Sizes, times and counters are 64-bit words. Two kinds of arithmetic occur:
saturating, which stops at the end of the range, and checked, which faults
there. Plain `+` and `-` on words wrap and are not used for quantities.

Each operation is characterised on natural numbers, and nothing later unfolds
it.
-/
namespace SegmentedCache.Word

/-- The largest word. -/
def largest : UInt64 := 18446744073709551615

@[simp] theorem toNat_largest : largest.toNat = UInt64.size - 1 := rfl

def saturatingAdd (a b : UInt64) : UInt64 :=
  if a + b < a then largest else a + b

def saturatingSub (a b : UInt64) : UInt64 :=
  if a ≤ b then 0 else a - b

/-- The sum, or a fault if it leaves the range. -/
def add (a b : UInt64) : Except Fault UInt64 :=
  if a + b < a then .error .addOverflow else .ok (a + b)

/-- The difference, or a fault if it is negative. -/
def sub (a b : UInt64) : Except Fault UInt64 :=
  if b ≤ a then .ok (a - b) else .error .subOverflow

/-- The number as a word, stopping at the largest. -/
def ofNatSaturating (n : Nat) : UInt64 :=
  if n < UInt64.size then UInt64.ofNat n else largest

/-- A wrapped sum is smaller than its first term exactly if it wrapped. -/
theorem add_lt_left_iff (a b : UInt64) : a + b < a ↔ UInt64.size ≤ a.toNat + b.toNat := by
  have ha := a.toNat_lt_size
  have hb := b.toNat_lt_size
  rw [UInt64.lt_iff_toNat_lt, UInt64.toNat_add]
  simp only [UInt64.size] at *
  omega

theorem toNat_add_of_lt {a b : UInt64} (h : a.toNat + b.toNat < UInt64.size) :
    (a + b).toNat = a.toNat + b.toNat := by
  rw [UInt64.toNat_add]
  exact Nat.mod_eq_of_lt h

theorem toNat_saturatingAdd (a b : UInt64) :
    (saturatingAdd a b).toNat = min (a.toNat + b.toNat) (UInt64.size - 1) := by
  unfold saturatingAdd
  split
  next h =>
    have := (add_lt_left_iff a b).mp h
    rw [toNat_largest]
    omega
  next h =>
    have := mt (add_lt_left_iff a b).mpr h
    rw [toNat_add_of_lt (Nat.lt_of_not_le this)]
    omega

theorem saturatingAdd_le_left {a b : UInt64} (h : a ≤ b) (c : UInt64) :
    saturatingAdd a c ≤ saturatingAdd b c := by
  rw [UInt64.le_iff_toNat_le] at *
  rw [toNat_saturatingAdd, toNat_saturatingAdd]
  omega

theorem saturatingAdd_le_right {a b : UInt64} (h : a ≤ b) (c : UInt64) :
    saturatingAdd c a ≤ saturatingAdd c b := by
  rw [UInt64.le_iff_toNat_le] at *
  rw [toNat_saturatingAdd, toNat_saturatingAdd]
  omega

theorem saturatingAdd_assoc (a b c : UInt64) :
    saturatingAdd (saturatingAdd a b) c = saturatingAdd a (saturatingAdd b c) := by
  rw [← UInt64.toNat_inj]
  simp only [toNat_saturatingAdd]
  omega

theorem toNat_saturatingSub (a b : UInt64) :
    (saturatingSub a b).toNat = a.toNat - b.toNat := by
  unfold saturatingSub
  split
  next h =>
    have := UInt64.le_iff_toNat_le.mp h
    rw [UInt64.toNat_zero]
    omega
  next h =>
    have := mt UInt64.le_iff_toNat_le.mpr h
    exact UInt64.toNat_sub_of_le _ _ (UInt64.le_iff_toNat_le.mpr (by omega))

theorem add_eq_ok_iff {a b c : UInt64} :
    add a b = .ok c ↔ a.toNat + b.toNat = c.toNat := by
  have hc := c.toNat_lt_size
  unfold add
  split
  next h =>
    have := (add_lt_left_iff a b).mp h
    simp only [reduceCtorEq, false_iff]
    omega
  next h =>
    have := mt (add_lt_left_iff a b).mpr h
    rw [Except.ok.injEq, ← UInt64.toNat_inj, toNat_add_of_lt (Nat.lt_of_not_le this)]

/-- A sum that stays in range is the saturating one. -/
theorem saturatingAdd_of_add {a b c : UInt64} (h : add a b = .ok c) : saturatingAdd a b = c := by
  unfold add at h
  unfold saturatingAdd
  split at h
  next => cases h
  next hle =>
    rw [if_neg hle]
    exact Except.ok.inj h

theorem add_eq_error_iff {a b : UInt64} {e : Fault} :
    add a b = .error e ↔ e = .addOverflow ∧ UInt64.size ≤ a.toNat + b.toNat := by
  unfold add
  split
  next h =>
    have := (add_lt_left_iff a b).mp h
    rw [Except.error.injEq]
    exact ⟨fun e => ⟨e.symm, this⟩, fun e => e.1.symm⟩
  next h =>
    have := mt (add_lt_left_iff a b).mpr h
    simp only [reduceCtorEq, false_iff, not_and]
    exact fun _ => this

theorem sub_eq_ok_iff {a b c : UInt64} :
    sub a b = .ok c ↔ a.toNat = b.toNat + c.toNat := by
  unfold sub
  split
  next h =>
    have := UInt64.le_iff_toNat_le.mp h
    rw [Except.ok.injEq, ← UInt64.toNat_inj, UInt64.toNat_sub_of_le _ _ h]
    omega
  next h =>
    have := mt UInt64.le_iff_toNat_le.mpr h
    simp only [reduceCtorEq, false_iff]
    omega

theorem sub_eq_error_iff {a b : UInt64} {e : Fault} :
    sub a b = .error e ↔ e = .subOverflow ∧ a.toNat < b.toNat := by
  unfold sub
  split
  next h =>
    have := UInt64.le_iff_toNat_le.mp h
    simp only [reduceCtorEq, false_iff, not_and]
    omega
  next h =>
    have := mt UInt64.le_iff_toNat_le.mpr h
    rw [Except.error.injEq]
    exact ⟨fun e => ⟨e.symm, Nat.lt_of_not_le this⟩, fun e => e.1.symm⟩

end SegmentedCache.Word
