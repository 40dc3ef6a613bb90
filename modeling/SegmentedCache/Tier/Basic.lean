import SegmentedCache.Lru.Operations
import SegmentedCache.Segmented.Operations

/-!
# Caches of any depth

A tier of depth 0 is a least-recently-used cache. A tier of depth `d + 1` is one
too, or a segmented cache whose segments are tiers of depth `d`. So the segments
of one cache may be of both kinds, and every tree of caches is a tier of its
height.

A tier does what the cache does that it is made of.
-/
namespace SegmentedCache

namespace Policy

instance {C D : Type} [Policy C] [Policy D] : Policy (C ⊕ D) where
  name := Sum.elim name name
  capacity := Sum.elim capacity capacity
  overhead := Sum.elim overhead overhead
  admissionLimit := Sum.elim admissionLimit admissionLimit
  count := Sum.elim count count
  occupied := Sum.elim occupied occupied
  victim? := Sum.elim victim? victim?
  contains st := Sum.elim (contains st) (contains st)
  check r update := .either (check r update) (check r update)
  serve r := .either (serve r) (serve r)
  insert r := .either (insert r) (insert r)
  evict := .either evict evict
  remove id := .either (remove id) (remove id)
  release := .either release release

instance {I : Type} {F : I → Type} [∀ i, Policy (F i)] : Policy (Σ i, F i) where
  name c := name c.2
  capacity c := capacity c.2
  overhead c := overhead c.2
  admissionLimit c := admissionLimit c.2
  count c := count c.2
  occupied c := occupied c.2
  victim? c := victim? c.2
  contains st c := contains st c.2
  check r update := .family fun _ => check r update
  serve r := .family fun _ => serve r
  insert r := .family fun _ => insert r
  evict := .family fun _ => evict
  remove id := .family fun _ => remove id
  release := .family fun _ => release

end Policy

def Tier : Nat → Type
  | 0 => Lru
  | d + 1 => Lru ⊕ (Σ top, Segmented (Tier d) top)

namespace Tier

instance policy : (d : Nat) → Policy (Tier d)
  | 0 => inferInstanceAs (Policy Lru)
  | d + 1 =>
    letI := policy d
    inferInstanceAs (Policy (Lru ⊕ (Σ top, Segmented (Tier d) top)))

/-- A least-recently-used cache, as a tier of any depth. -/
def ofLru : {d : Nat} → Lru → Tier d
  | 0, c => c
  | _ + 1, c => .inl c

def ofSegmented {d top : Nat} (s : Segmented (Tier d) top) : Tier (d + 1) := .inr ⟨top, s⟩

/-- The least-recently-used cache that the tier is, if it is one. -/
def lru? : {d : Nat} → Tier d → Option Lru
  | 0, c => some c
  | _ + 1, .inl c => some c
  | _ + 1, .inr _ => none

/-- The tiers directly below, coldest first. -/
def segments : {d : Nat} → Tier d → List (Σ e, Tier e)
  | 0, _ => []
  | _ + 1, .inl _ => []
  | d + 1, .inr ⟨_, s⟩ => s.segments.toList.map fun t => ⟨d, t⟩

/-- The least-recently-used caches at the bottom, coldest first. -/
def leaves : {d : Nat} → Tier d → List Lru
  | 0, c => [c]
  | _ + 1, .inl c => [c]
  | _ + 1, .inr ⟨_, s⟩ => s.segments.toList.flatMap leaves

/-- The tier that a path of segment numbers leads to. -/
def descend : {d : Nat} → Tier d → List Nat → Option (Σ e, Tier e)
  | d, t, [] => some ⟨d, t⟩
  | 0, _, _ :: _ => none
  | _ + 1, .inl _, _ :: _ => none
  | _ + 1, .inr ⟨top, s⟩, i :: rest =>
    if h : i < top + 1 then (s.segment ⟨i, h⟩).descend rest else none

/-- The segment that has an id; a cache that is not segmented has none. -/
def segmentOf? : {d : Nat} → Store → Tier d → ObjectId → Option Nat
  | 0, _, _, _ => none
  | _ + 1, _, .inl _, _ => none
  | _ + 1, st, .inr ⟨_, s⟩, id => (s.segmentOf? st id).map Fin.val

def counters : {d : Nat} → Tier d → LruCounters ⊕ SegmentedCounters
  | 0, c => .inl (Lru.counters c)
  | _ + 1, .inl c => .inl c.counters
  | _ + 1, .inr ⟨_, s⟩ => .inr s.counters

def report : {d : Nat} → Tier d → Except Fault Report
  | 0, c => Lru.report c
  | _ + 1, .inl c => c.report
  | _ + 1, .inr ⟨_, s⟩ => s.report

def text : {d : Nat} → Tier d → Except Fault String
  | 0, c => pure (Lru.text c)
  | _ + 1, .inl c => pure c.text
  | _ + 1, .inr ⟨_, s⟩ => s.text

end Tier
end SegmentedCache
