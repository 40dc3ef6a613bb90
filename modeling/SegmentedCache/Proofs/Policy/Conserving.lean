import SegmentedCache.Proofs.Losses
import SegmentedCache.Proofs.Policy.Calm

/-!
# Policies that lose nothing on a move

A segmented cache moves objects between its segments and drops those that a
segment has no room for. In a steady cache, one that is calm and fits, this must
not happen: all that was admitted may be moved anywhere.

What makes it so is the spare room of a segment that has no victim to offer.
Such a segment need not be empty, since a victim is always taken from the coldest
place inside it; but then that place is empty, and whatever the whole admits fits
into it (`spare`). So a segment that is short of room can be made to shrink, over
and over, until there is room. A policy is conserving if its caches have this
spare room and their own operations lose nothing; a segmented cache of conserving
segments is conserving again.
-/
namespace SegmentedCache.Policy
open SegmentedCache.Action
variable {C : Type}

section
variable [Policy C] [Lawful C] {st st' : Store} {c c' : C}

/-- A cache that is left to itself and whose segments share its capacity. -/
structure Steady (st : Store) (c : C) : Prop extends Calm st c where
  fits : Fits c

theorem Steady.shrinks (h : Steady st c) (k : Shrinks st c st' c') : Steady st' c' :=
  ⟨h.toCalm.shrinks k, k.fits h.fits⟩

theorem Steady.perform (h : Steady st c) {op : Operation} (hop : ∀ r, op ≠ .insert r)
    {response : Response} (hy : (perform op).Yields c st response c' st') : Steady st' c' :=
  ⟨(ensures_perform_calm h.toCalm hop).apply hy,
    ((ensures_perform h.toSound op).apply hy).fits h.fits⟩

end

/-- What a cache has on record of the objects that it dropped. -/
class Recorded (C : Type) where
  /-- No segmented cache inside has counted a demoted object as dropped. -/
  Intact : C → Prop

export Recorded (Intact)

/-- Work that dropped no object on a move. -/
structure Conserves [Recorded C] (st : Store) (c : C) (st' : Store) (c' : C) : Prop where
  losses : st'.losses = st.losses
  intact : Intact c → Intact c'

section
variable [Recorded C] {st st' st'' : Store} {c c' c'' : C}

theorem Conserves.refl (st : Store) (c : C) : Conserves st c st c := ⟨rfl, fun h => h⟩

theorem Conserves.trans (h : Conserves st c st' c') (k : Conserves st' c' st'' c'') :
    Conserves st c st'' c'' :=
  ⟨k.losses.trans h.losses, fun hi => k.intact (h.intact hi)⟩

theorem Conserves.report (st : Store) (c : C) {e : Event} (he : e.isLoss = false) :
    Conserves st c { st with events := st.events.push e } c := ⟨st.losses_report he, fun h => h⟩

end

/-- A policy whose steady caches lose nothing on a move. -/
class Conserving (C : Type) [Policy C] [Lawful C] extends Recorded C where
  victim?_eq_none : ∀ {st : Store} {c : C}, Steady st c → count c = 0 → victim? c = none
  limit_le : ∀ {c : C}, Fits c → Roomy c → admissionLimit c ≤ capacity c
  spare : ∀ {st : Store} {c : C}, Steady st c → victim? c = none →
    ∃ bytes, occupied c = .ok bytes ∧
      bytes.toNat + (admissionLimit c).toNat ≤ (capacity c).toNat
  conserves_check : ∀ {st st' : Store} {c c' : C} {r : Request} {update : Bool} {found : Lookup},
    Steady st c → (check r update).Yields c st found c' st' → Conserves st c st' c' ∧
      (found = .miss ↔ r.id ∉ held st c) ∧ (update = true → (found = .hit ↔ r.id ∈ held st' c'))
  conserves_serve : ∀ {st st' : Store} {c c' : C} {r : Request} {found : Lookup},
    Steady st c → (serve r).Yields c st found c' st' →
      Conserves st c st' c' ∧ (r.id ∈ held st' c' ↔ found = .hit ∨ canAdmit c r.size)
  conserves_insert : ∀ {st st' : Store} {c c' : C} {r : Request} {o : Option CacheObject},
    Steady st c → r.id ∉ held st c → canAdmit c r.size →
      (insert r).Yields c st o c' st' → Conserves st c st' c' ∧ r.id ∈ held st' c'
  conserves_evict : ∀ {st st' : Store} {c c' : C} {victim : Option CacheObject},
    Steady st c → Yields evict c st victim c' st' →
      Conserves st c st' c' ∧ victim = victim? c
  conserves_remove : ∀ {st st' : Store} {c c' : C} {id : ObjectId} {removed : Option CacheObject},
    Steady st c → (remove id).Yields c st removed c' st' →
      Conserves st c st' c' ∧ (id ∈ held st c → removed ≠ none)

section
variable [Policy C] [Lawful C] [Conserving C] {st st' : Store} {c c' : C}

/-- A cache without a victim has room for all that it admits. -/
theorem hasRoom_of_spare (h : Steady st c) (hv : victim? c = none) {size : Bytes}
    (ha : canAdmit c size) : hasRoom c size = .ok true := by
  obtain ⟨bytes, hbytes, hle⟩ := Conserving.spare h hv
  have hcharge := UInt64.le_iff_toNat_le.mp (of_decide_eq_true ha)
  have hroom : Word.saturatingAdd (Word.saturatingAdd bytes size) (overhead c) ≤ capacity c := by
    rw [Word.saturatingAdd_assoc, UInt64.le_iff_toNat_le, Word.toNat_saturatingAdd]
    unfold charge at hcharge
    omega
  unfold hasRoom
  rw [hbytes]
  exact congrArg Except.ok (decide_eq_true hroom)

theorem conserves_perform (h : Steady st c) {op : Operation} (hop : ∀ r, op ≠ .insert r)
    {response : Response} (hy : (perform op).Yields c st response c' st') :
    Conserves st c st' c' := by
  cases op with
  | serve r =>
    obtain ⟨found, hserve, -⟩ := yields_map_iff.mp hy
    exact (Conserving.conserves_serve h hserve).1
  | check r update =>
    obtain ⟨found, hcheck, -⟩ := yields_map_iff.mp hy
    exact (Conserving.conserves_check h hcheck).1
  | insert r => exact absurd rfl (hop r)
  | evict =>
    obtain ⟨victim, hevict, -⟩ := yields_map_iff.mp hy
    exact (Conserving.conserves_evict h hevict).1
  | remove id =>
    obtain ⟨removed, hremove, -⟩ := yields_map_iff.mp hy
    exact (Conserving.conserves_remove h hremove).1

/-- A whole run without direct insertions leaves the cache steady and loses
nothing. -/
theorem conserves_performAll {ops : List Operation} (h : Steady st c)
    (hops : ∀ op ∈ ops, ∀ r, op ≠ .insert r) {responses : List Response}
    (hy : (performAll ops).Yields c st responses c' st') :
    Steady st' c' ∧ Conserves st c st' c' := by
  induction ops generalizing c st responses with
  | nil =>
    obtain ⟨-, rfl, rfl⟩ := yields_pure_iff.mp hy
    exact ⟨h, Conserves.refl _ _⟩
  | cons op rest ih =>
    obtain ⟨hop, hrest⟩ := List.forall_mem_cons.mp hops
    obtain ⟨response, c₁, st₁, hperform, h₁⟩ := yields_bind_iff.mp hy
    obtain ⟨_, c₂, st₂, hall, h₂⟩ := yields_bind_iff.mp h₁
    obtain ⟨-, rfl, rfl⟩ := yields_pure_iff.mp h₂
    obtain ⟨hsteady, k⟩ := ih (h.perform hop hperform) hrest hall
    exact ⟨hsteady, (conserves_perform h hop hperform).trans k⟩

end
end SegmentedCache.Policy
