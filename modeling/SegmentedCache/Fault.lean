/-!
# Refused constructions and faults

A constructor refuses parameters that are out of range, or a reservation that
cannot be granted; the caller gets the cause and may go on. A fault ends the
whole computation: a counter or a byte total left the range of its word, or a
constructor that may not fail was given parameters that it refuses.

The wording of every cause lives in the message functions below and nowhere
else.
-/
namespace SegmentedCache

/-- Largest base-two logarithm of a bucket count. -/
def maxHashpower : Nat := 40

/-- Why parameters are out of range. -/
inductive ConfigError
  | zeroCapacity
  | hashpowerTooLarge (hashpower : Nat)
  | noSegments
  | emptySegment (segments : Nat) (capacity : UInt64)
  | poolTooLarge (power : Nat)
  | other (reason : String)
deriving DecidableEq, Repr

def ConfigError.message : ConfigError → String
  | .zeroCapacity => "cache_size must be at least 1 byte"
  | .hashpowerTooLarge h => s!"hashpower {h} exceeds the maximum of {maxHashpower}"
  | .noSegments => "n_seg must be at least 1"
  | .emptySegment n c => s!"n_seg {n} leaves an empty segment in a cache of {c} bytes"
  | .poolTooLarge p => s!"lock pool power {p} is too large"
  | .other reason => reason

/-- Why a constructor refused. -/
inductive BuildError
  | allocation (what : String) (bytes : UInt64)
  | config (cause : ConfigError)
deriving DecidableEq, Repr

def BuildError.message : BuildError → String
  | .allocation what bytes => s!"allocating {what} ({bytes} bytes) failed"
  | .config cause => "invalid configuration: " ++ cause.message

/-- Why a computation ended. -/
inductive Fault
  | addOverflow
  | subOverflow
  | noSegments
  | refused (error : BuildError)
  | aborted (error : BuildError)
deriving DecidableEq, Repr

def Fault.message : Fault → String
  | .addOverflow => "attempt to add with overflow"
  | .subOverflow => "attempt to subtract with overflow"
  | .noSegments => ConfigError.noSegments.message
  | .refused error => error.message
  | .aborted error => error.message

/-- Of two computations in a row, the second returns exactly if both do. -/
theorem bind_eq_ok_iff {ε α β : Type} {x : Except ε α} {f : α → Except ε β} {b : β} :
    x >>= f = .ok b ↔ ∃ a, x = .ok a ∧ f a = .ok b := by
  cases x with
  | ok a =>
    constructor
    · intro h
      exact ⟨a, rfl, h⟩
    · intro ⟨a', ha, h⟩
      injection ha with e
      subst e
      exact h
  | error e =>
    constructor
    · intro h
      cases h
    · intro ⟨a, ha, _⟩
      cases ha

end SegmentedCache
