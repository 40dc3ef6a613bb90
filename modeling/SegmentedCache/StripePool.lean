import SegmentedCache.Table
import SegmentedCache.Text.Record
import SegmentedCache.Word

/-!
# Pools of stripes selected by hash

A pool of power `p` has `1 <<< p` stripes, each with a value of its own. The low
`p` bits of a hash select the stripe, so no hash falls outside the pool.

Building a pool first reserves its memory. A reservation above the size of the
address space is refused before the first stripe is built.
-/
namespace SegmentedCache

/-- The word whose low `power` bits are set. -/
def lowBits (power : Nat) : UInt64 := UInt64.ofNat ((1 <<< power) - 1)

theorem toNat_lowBits {power : Nat} (h : power ≤ 64) :
    (lowBits power).toNat = (1 <<< power) - 1 := by
  have hp := Nat.pow_le_pow_right (Nat.zero_lt_two) h
  unfold lowBits
  rw [UInt64.toNat_ofNat', Nat.one_shiftLeft]
  exact Nat.mod_eq_of_lt (by omega)

theorem toNat_and_lowBits {power : Nat} (h : power ≤ 64) (a : UInt64) :
    (a &&& lowBits power).toNat = a.toNat % (1 <<< power) := by
  rw [UInt64.toNat_and, toNat_lowBits h, Nat.one_shiftLeft, Nat.and_two_pow_sub_one_eq_mod]

theorem toNat_and_lowBits_lt (power : Nat) (a : UInt64) :
    (a &&& lowBits power).toNat < 1 <<< power := by
  have hp := Nat.two_pow_pos power
  have h₁ : a.toNat &&& (lowBits power).toNat ≤ (lowBits power).toNat := Nat.and_le_right
  have h₂ : (lowBits power).toNat ≤ (1 <<< power) - 1 := by
    unfold lowBits
    rw [UInt64.toNat_ofNat']
    exact Nat.mod_le _ _
  rw [UInt64.toNat_and]
  rw [Nat.one_shiftLeft] at *
  omega

structure StripePool (α : Type) (power : Nat) where
  stripes : Vector α (1 <<< power)

namespace StripePool
variable {α : Type} {power : Nat}

def replicate (power : Nat) (a : α) : StripePool α power := ⟨Vector.replicate _ a⟩

def stripeOf (hash : UInt64) : Fin (1 <<< power) :=
  ⟨(hash &&& lowBits power).toNat, toNat_and_lowBits_lt power hash⟩

def get (p : StripePool α power) (hash : UInt64) : α := p.stripes.get (stripeOf hash)

def set (p : StripePool α power) (hash : UInt64) (a : α) : StripePool α power :=
  let k : Fin (1 <<< power) := stripeOf hash
  ⟨p.stripes.set k a⟩

theorem get_set (p : StripePool α power) (g h : UInt64) (a : α) :
    (p.set h a).get g =
      if (stripeOf g : Fin (1 <<< power)) = stripeOf h then a else p.get g :=
  get_set_vector p.stripes (stripeOf h) (stripeOf g) a

@[simp] theorem get_replicate (a : α) (hash : UInt64) : (replicate power a).get hash = a := by
  change (Vector.replicate (1 <<< power) a)[(stripeOf hash : Fin (1 <<< power)).val] = a
  exact Vector.getElem_replicate _

def size (_ : StripePool α power) : Nat := 1 <<< power

/-- Powers from this one on leave no word for the number of stripes. -/
def powerLimit : Nat := 63

/-- The largest reservation, in bytes, that the address space can hold. -/
def reservationLimit : Nat := 1 <<< 47

/-- Whether `1 <<< power` stripes of `stripeBytes` bytes each can be reserved. -/
def reserve (power stripeBytes : Nat) : Except BuildError Unit :=
  if powerLimit ≤ power then .error (.config (.poolTooLarge power))
  else if reservationLimit < (1 <<< power) * stripeBytes then
    .error (.allocation "lock pool" (Word.ofNatSaturating ((1 <<< power) * stripeBytes)))
  else .ok ()

/-- Reserves the pool and builds its stripes in order. The first stripe that
cannot be built is the error of the pool. -/
def build (power stripeBytes : Nat) (init : Nat → Except BuildError α) :
    Except BuildError (StripePool α power) := do
  reserve power stripeBytes
  let stripes ← Vector.ofFnM fun k : Fin (1 <<< power) => init k
  pure ⟨stripes⟩

/-- The bytes of a stripe that holds one word beside its lock. -/
def wordStripeBytes : Nat := 16

def text (_ : StripePool α power) : String :=
  Text.record "LockPool" [
    ("locks", toString (1 <<< power)),
    ("locks_mask", Text.hexadecimal ((1 <<< power) - 1))]

end StripePool
end SegmentedCache
