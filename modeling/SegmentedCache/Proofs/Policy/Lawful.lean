import SegmentedCache.Proofs.Lru.Family
import SegmentedCache.Proofs.Outcome

/-!
# Laws of policies

Every cache is made of least-recently-used ones in the end, its leaves. A cache
is sound if its leaves are coherent, apart from each other, and no id is found
by two of them. A lawful policy keeps its caches sound, keeps its work confined
to their leaves, and never faults but on a sum that leaves the range of a word.
Its operations may be relied on for no more than that and for the ids, with the
sizes of their objects, that a cache holds before and after: this is all that a
segmented cache needs to know of its segments, so a segmented cache of lawful
segments is lawful again.

A cache fits if, at every cache inside it, the capacities of the segments add
up to no more than the capacity of the whole. It is roomy if no segment inside
it charges more for an object, or admits less, than the whole does. It is tidy if
its leaves queue resident objects only, as they do if nobody else writes to their
indexes.
-/
namespace SegmentedCache.Policy
open Lru

/-- What a cache is made of. -/
class Composed (C : Type) [Policy C] where
  leaves : C → List Lru
  Fits : C → Prop
  Roomy : C → Prop

section
variable {C : Type} [Policy C] [Composed C] {st st' st'' : Store} {c c' c'' : C}

export Composed (leaves Fits Roomy)

/-- The ids that the leaves find. -/
def held (st : Store) (c : C) : Set ObjectId := Lru.held st (leaves c)

/-- The ids that the leaves find, with the sizes of their objects. -/
def stock (st : Store) (c : C) : Set (ObjectId × Bytes) := Lru.stock st (leaves c)

/-- No leaf queues an orphan. -/
def Tidy (st : Store) (c : C) : Prop := ∀ d ∈ leaves c, ∀ o ∈ d.objects, st.resident o = true

theorem mem_held_of_stock {id : ObjectId} {size : Bytes} (h : (id, size) ∈ stock st c) :
    id ∈ held st c := Lru.mem_held_iff.mpr ⟨size, h⟩

theorem held_subset (h : stock st' c' ⊆ stock st c) : held st' c' ⊆ held st c := by
  intro id hid
  obtain ⟨size, hs⟩ := Lru.mem_held_iff.mp hid
  exact mem_held_of_stock (h hs)

theorem held_subset_union {id : ObjectId} {size : Bytes}
    (h : stock st' c' ⊆ stock st c ∪ {(id, size)}) : held st' c' ⊆ held st c ∪ {id} := by
  intro id' hid
  obtain ⟨size', hs⟩ := Lru.mem_held_iff.mp hid
  rcases h hs with hs | hs
  · exact .inl (mem_held_of_stock hs)
  · exact .inr (congrArg Prod.fst hs)

structure Sound (st : Store) (c : C) : Prop where
  together : Together st (leaves c)
  charged : ∀ d ∈ leaves c, d.Charged
  sole : Sole st (leaves c)

theorem Sound.coherent (h : Sound st c) {d : Lru} (hd : d ∈ leaves c) : d.Coherent st :=
  ⟨h.together.linked d hd, h.charged d hd⟩

/-- The work of a sound cache, which leaves it sound. -/
structure Kept (st : Store) (c : C) (st' : Store) (c' : C) : Prop extends Sound st' c' where
  confined : Confined st (leaves c) st' (leaves c')
  capacity : capacity c' = capacity c
  overhead : overhead c' = overhead c
  limit : admissionLimit c' = admissionLimit c
  fits : Fits c → Fits c'
  roomy : Roomy c → Roomy c'
  tidy : Tidy st c → Tidy st' c'

theorem Kept.refl (h : Sound st c) : Kept st c st c :=
  ⟨h, Confined.refl st _, rfl, rfl, rfl, fun h => h, fun h => h, fun h => h⟩

theorem Kept.trans (h : Kept st c st' c') (k : Kept st' c' st'' c'') : Kept st c st'' c'' where
  toSound := k.toSound
  confined := h.confined.trans k.confined
  capacity := k.capacity.trans h.capacity
  overhead := k.overhead.trans h.overhead
  limit := k.limit.trans h.limit
  fits hf := k.fits (h.fits hf)
  roomy hr := k.roomy (h.roomy hr)
  tidy ht := k.tidy (h.tidy ht)

theorem Sound.events (h : Sound st c) (es : Array Event) : Sound { st with events := es } c :=
  ⟨⟨fun d hd => (h.together.linked d hd).of_undisturbed (Undisturbed.events d st es),
    h.together.apart⟩, h.charged, h.sole⟩

/-- Reporting an event keeps everything. -/
theorem Kept.events (h : Sound st c) (es : Array Event) : Kept st c { st with events := es } c :=
  ⟨h.events es, Confined.events st _ es, rfl, rfl, rfl, fun h => h, fun h => h, fun h => h⟩

theorem Kept.canAdmit_eq (k : Kept st c st' c') (size : Bytes) :
    canAdmit c' size = canAdmit c size := by
  unfold canAdmit charge
  rw [k.overhead, k.limit]

/-- Work that brings no id into a cache, and no other size of one. -/
structure Shrinks (st : Store) (c : C) (st' : Store) (c' : C) : Prop
    extends Kept st c st' c' where
  stock_subset : stock st' c' ⊆ stock st c

theorem Shrinks.held_subset (h : Shrinks st c st' c') : held st' c' ⊆ held st c :=
  Policy.held_subset h.stock_subset

theorem Shrinks.refl (h : Sound st c) : Shrinks st c st c := ⟨Kept.refl h, subset_rfl⟩

theorem Shrinks.trans (h : Shrinks st c st' c') (k : Shrinks st' c' st'' c'') :
    Shrinks st c st'' c'' :=
  ⟨h.toKept.trans k.toKept, k.stock_subset.trans h.stock_subset⟩

theorem Shrinks.events (h : Sound st c) (es : Array Event) :
    Shrinks st c { st with events := es } c := ⟨Kept.events h es, subset_rfl⟩

end

/-- A policy that keeps its caches sound. -/
class Lawful (C : Type) [Policy C] extends Composed C where
  contains_iff : ∀ (st : Store) (c : C) (id : ObjectId), contains st c id = true ↔ id ∈ held st c
  sums_occupied : ∀ c : C, Word.Sums (occupied c)
  occupied_le : ∀ {c : C}, (∀ d ∈ leaves c, d.Charged) → Fits c →
    ∃ bytes, occupied c = .ok bytes ∧ bytes ≤ capacity c
  ensures_check : ∀ {st : Store} {c : C}, Sound st c → ∀ (r : Request) (update : Bool),
    (check r update).Ensures c st fun found c' st' => Shrinks st c st' c' ∧
      (found = .hit → r.id ∈ held st c)
  ensures_serve : ∀ {st : Store} {c : C}, Sound st c → ∀ r : Request,
    (serve r).Ensures c st fun _ c' st' => Kept st c st' c' ∧
      stock st' c' ⊆ stock st c ∪ {x | x = (r.id, r.size) ∧ canAdmit c r.size}
  ensures_insert : ∀ {st : Store} {c : C}, Sound st c → ∀ r : Request,
    (insert r).Ensures c st fun _ c' st' => Kept st c st' c' ∧
      stock st' c' ⊆ stock st c ∪ {(r.id, r.size)}
  ensures_evict : ∀ {st : Store} {c : C}, Sound st c →
    (evict : Action C _).Ensures c st fun victim c' st' => Shrinks st c st' c' ∧
      ∀ o, victim = some o → (o.id, o.size) ∈ stock st c ∧ o.id ∉ held st' c'
  ensures_remove : ∀ {st : Store} {c : C}, Sound st c → ∀ id : ObjectId,
    (remove id).Ensures c st fun removed c' st' => Shrinks st c st' c' ∧
      id ∉ held st' c' ∧ ∀ o, removed = some o → o.id = id ∧ (o.id, o.size) ∈ stock st c
  ensures_release : ∀ {st : Store} {c : C}, Together st (leaves c) →
    (release : Action C _).Ensures c st fun _ c' st' => Together st' (leaves c') ∧
      Confined st (leaves c) st' (leaves c')

end SegmentedCache.Policy
