import SegmentedCache.Proofs.Lru.Ledger
import SegmentedCache.Proofs.Policy.Calm

/-!
# Room that is promised

A cache that says it has room for a size promises to take an object of that size
without losing another. Its answer compares totals only. In a segmented cache the room
may lie in several segments, none of which has enough of it, and with the largest
capacity the answer is always yes. So not every answer can be relied on.

A promising policy keeps the promise where its answer is reliable and its counters
have headroom: the new object comes to the front of one leaf, and nothing else in the
leaves changes.
-/
namespace SegmentedCache

namespace Policy
variable {C : Type}

class Gauged (C : Type) where
  /-- If the cache says that it has room for an object of this size, it has. -/
  Reliable : C → Bytes → Bool
  /-- Every counter inside can spare an event of so many bytes. -/
  Spared : ℕ → C → Bool

export Gauged (Reliable Spared)

/-- One leaf got a new object at its front, and the others are as before. -/
def Gains (o : CacheObject) (cs cs' : List Lru) : Prop :=
  ∃ (before after : List Lru) (d d' : Lru),
    cs = before ++ d :: after ∧ cs' = before ++ d' :: after ∧ d'.objects = o :: d.objects

theorem Gains.append {o : CacheObject} {cs cs' : List Lru} (h : Gains o cs cs') (l l' : List Lru) :
    Gains o (l ++ cs ++ l') (l ++ cs' ++ l') := by
  obtain ⟨before, after, d, d', rfl, rfl, ho⟩ := h
  exact ⟨l ++ before, after ++ l', d, d', by simp, by simp, ho⟩

theorem Gains.mem_iff {o p : CacheObject} {cs cs' : List Lru} (h : Gains o cs cs') :
    (∃ d ∈ cs', p ∈ d.objects) ↔ p = o ∨ ∃ d ∈ cs, p ∈ d.objects := by
  obtain ⟨before, after, d, d', rfl, rfl, ho⟩ := h
  simp only [List.mem_append, List.mem_cons, or_and_right, exists_or, exists_eq_left, ho]
  rw [or_assoc, or_left_comm]

/-- A policy that keeps its promise where it can be relied on. -/
class Promising (C : Type) [Policy C] [Lawful C] extends Gauged C where
  takes : ∀ {st : Store} {c : C} {r : Request}, Neat st c → r.id ∉ held st c →
    hasRoom c r.size = .ok true → Reliable c r.size = true → Spared r.size.toNat c = true →
    ∃ o c' st', (insert r).Yields c st (some o) c' st' ∧ Lru.Made r o ∧
      Gains o (leaves c) (leaves c')

section
variable [Policy C] [Lawful C] {st st' : Store} {c c' : C}

theorem Neat.mem_held_iff (h : Neat st c) {id : ObjectId} :
    id ∈ held st c ↔ ∃ o, (∃ d ∈ leaves c, o ∈ d.objects) ∧ o.id = id := by
  constructor
  · rintro ⟨d, hd, hid⟩
    obtain ⟨o, ho⟩ := Lru.mem_ids_iff.mp hid
    obtain ⟨hm, hoid⟩ := (Lru.find?_eq_some_iff_of_tidy (h.coherent hd).toLinked (h.tidy d hd)).mp ho
    exact ⟨o, ⟨d, hd, hm⟩, hoid⟩
  · rintro ⟨o, ⟨d, hd, ho⟩, rfl⟩
    have hfind := (Lru.find?_eq_some_iff_of_tidy (h.coherent hd).toLinked (h.tidy d hd)).mpr ⟨ho, rfl⟩
    exact ⟨d, hd, Lru.mem_ids_iff.mpr ⟨o, hfind⟩⟩

/-- What gains an object in a neat cache is found as well, and nothing is lost. -/
theorem Gains.mem_held_iff {o : CacheObject} (h : Gains o (leaves c) (leaves c')) (hn : Neat st c)
    (hn' : Neat st' c') {id : ObjectId} : id ∈ held st' c' ↔ id ∈ held st c ∨ id = o.id := by
  rw [hn.mem_held_iff, hn'.mem_held_iff]
  simp only [h.mem_iff, or_and_right, exists_or, exists_eq_left]
  rw [or_comm, eq_comm]

end
end Policy

namespace Lru
open SegmentedCache.Action Policy
variable {st : Store} {c : Lru} {r : Request}

instance : Gauged Lru where
  Reliable c size := decide (c.occupied.toNat + (c.charge size).toNat < UInt64.size)
  Spared M c := decide (c.counters.Spare M 1)

/-- Below the largest capacity every such answer is reliable. -/
theorem reliable_of_hasRoom {size : Bytes} (hc : c.params.capacity ≠ Word.largest)
    (hroom : hasRoom c size = .ok true) : Reliable c size = true := by
  rw [hasRoom_eq, Except.ok.injEq, decide_eq_true_eq, UInt64.le_iff_toNat_le,
    Word.toNat_saturatingAdd] at hroom
  have hlt := c.params.capacity.toNat_lt_size
  have hne : c.params.capacity.toNat ≠ UInt64.size - 1 := fun e => hc (UInt64.toNat_inj.mp e)
  refine decide_eq_true ?_
  omega

theorem takes (h : Neat st c) (hid : r.id ∉ Policy.held st c) (hroom : hasRoom c r.size = .ok true)
    (hreliable : c.occupied.toNat + (c.charge r.size).toNat < UInt64.size)
    (hs : c.counters.Spare r.size.toNat 1) :
    ∃ o c' st', (insert r).Yields c st (some o) c' st' ∧ Made r o ∧ c'.objects = o :: c.objects := by
  have hcoh := sound_iff.mp h.toSound
  rw [hasRoom_eq, Except.ok.injEq, decide_eq_true_eq] at hroom
  obtain ⟨res, c', st', hy, -⟩ := (runs_insert (n := 0) hcoh le_rfl (.inl hroom)).yields fun hE =>
    hE.elim (fun hnot => hnot hs) fun hover => Nat.not_le.mpr hreliable hover.2
  obtain ⟨o, rfl, hmade, hobjects⟩ := ((ensures_insert hcoh r).apply hy).of_tidy
    (tidy_iff.mp h.tidy) hcoh.toLinked hid hroom
  exact ⟨o, c', st', hy, hmade, hobjects⟩

instance : Promising Lru where
  takes {st c r} h hid hroom hreliable hspared := by
    obtain ⟨o, c', st', hy, hmade, hobjects⟩ :=
      Lru.takes h hid hroom (of_decide_eq_true hreliable) (of_decide_eq_true hspared)
    exact ⟨o, c', st', hy, hmade, [], [], c, c', rfl, rfl, hobjects⟩

end Lru
end SegmentedCache
