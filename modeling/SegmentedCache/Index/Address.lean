import SegmentedCache.StripePool

/-!
# Bucket addresses

An index of hashpower `h` has `1 <<< h` buckets, in stripes of at most `1 <<< 10`.
The low `h` bits of a hash are the bucket's number; the low bits of the number
select the stripe and the remaining bits the place within it. Main statements:
the place is inside the stripe (`toNat_local_lt`), and stripe and place together
tell the bucket (`eq_of_stripe_of_local`).
-/
namespace SegmentedCache.Address

/-- Base-two logarithm of the largest number of buckets in a stripe. -/
def stripeBucketsPower : Nat := 10

/-- Base-two logarithm of the number of stripes. -/
def stripesPower (hashpower : Nat) : Nat := hashpower - stripeBucketsPower

/-- Base-two logarithm of the number of buckets in a stripe. -/
def bucketsPower (hashpower : Nat) : Nat := min hashpower stripeBucketsPower

theorem stripesPower_add_bucketsPower (hashpower : Nat) :
    stripesPower hashpower + bucketsPower hashpower = hashpower := by
  unfold stripesPower bucketsPower
  omega

/-- The bucket's number: the low bits of the hash. -/
def bucket (hashpower : Nat) (hash : UInt64) : UInt64 := hash &&& lowBits hashpower

/-- The bucket's place within its stripe. -/
def localIndex (hashpower : Nat) (bucket : UInt64) : UInt64 :=
  bucket >>> UInt64.ofNat (stripesPower hashpower)

theorem toNat_localIndex {hashpower : Nat} (h : hashpower ≤ maxHashpower) (b : UInt64) :
    (localIndex hashpower b).toNat = b.toNat >>> stripesPower hashpower := by
  have hs : stripesPower hashpower < 64 := by
    unfold stripesPower maxHashpower at *
    omega
  unfold localIndex
  rw [UInt64.toNat_shiftRight, UInt64.toNat_ofNat',
    Nat.mod_eq_of_lt (by omega : stripesPower hashpower < 2 ^ 64), Nat.mod_eq_of_lt hs]

theorem toNat_local_lt {hashpower : Nat} (h : hashpower ≤ maxHashpower) (hash : UInt64) :
    (localIndex hashpower (bucket hashpower hash)).toNat < 1 <<< bucketsPower hashpower := by
  have hb := toNat_and_lowBits_lt hashpower hash
  rw [toNat_localIndex h, Nat.shiftRight_eq_div_pow, Nat.one_shiftLeft]
  apply Nat.div_lt_of_lt_mul
  rwa [← Nat.pow_add, stripesPower_add_bucketsPower, ← Nat.one_shiftLeft]

theorem eq_of_stripe_of_local {hashpower : Nat} (h : hashpower ≤ maxHashpower) {a b : UInt64}
    (hs : (StripePool.stripeOf a : Fin (1 <<< stripesPower hashpower)) = StripePool.stripeOf b)
    (hl : (localIndex hashpower a).toNat = (localIndex hashpower b).toNat) : a = b := by
  have hp : stripesPower hashpower ≤ 64 := by
    unfold stripesPower maxHashpower at *
    omega
  have hm : a.toNat % 2 ^ stripesPower hashpower = b.toNat % 2 ^ stripesPower hashpower := by
    rw [← Nat.one_shiftLeft, ← toNat_and_lowBits hp, ← toNat_and_lowBits hp]
    exact Fin.mk.inj hs
  rw [toNat_localIndex h, toNat_localIndex h, Nat.shiftRight_eq_div_pow,
    Nat.shiftRight_eq_div_pow] at hl
  rw [← UInt64.toNat_inj, ← Nat.div_add_mod a.toNat (2 ^ stripesPower hashpower),
    ← Nat.div_add_mod b.toNat (2 ^ stripesPower hashpower), hl, hm]

end SegmentedCache.Address
