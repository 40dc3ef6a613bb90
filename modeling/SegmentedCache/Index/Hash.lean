import SegmentedCache.Request

/-!
# Hashing object ids

A keyed hash by two folded multiplications: the product of two words is taken
in full and its halves are combined. The keys are fixed, so an id always falls
into the same bucket.

This is the hash that a program gives to its store (`Store.hash`). It stands for
a hash function from outside and decides nothing but which ids share a bucket:
an index takes any function for it, and no result is about the values of this one.
-/
namespace SegmentedCache.Hash

/-- The two halves of the full product, combined. -/
def fold (a b : UInt64) : UInt64 :=
  let p := a.toNat * b.toNat
  UInt64.ofNat p ^^^ UInt64.ofNat (p >>> 64)

/-- Shifts take their amount modulo the width, so a turn by 0 is the identity. -/
def rotateLeft (a k : UInt64) : UInt64 := a <<< k ||| a >>> (64 - k)

def multiplier : UInt64 := 6364136223846793005

def outerKey : UInt64 := 0xbb8c484891ec6c86 ^^^ 0x452821e638d01377

def innerKey : UInt64 := 0x0522a25ae9c769f9 ^^^ 0xbe5466cf34e90c6c

def ofId (id : ObjectId) : UInt64 :=
  let b := fold (id ^^^ innerKey) multiplier
  rotateLeft (fold b outerKey) (b % 64)

end SegmentedCache.Hash
