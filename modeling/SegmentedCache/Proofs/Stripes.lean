import Mathlib
import SegmentedCache.Proofs.Index.Buckets

/-!
# Stripes and slots

A hash says where its data stands. In a pool that is the stripe of its low bits:
the stripe holds what was last written under a hash with the same low bits, and
before that what it was built with (`StripePool.Recalls`). In an index it is a
slot, a stripe and a place in the stripe. The slots of the hashes are those of the
arrays, and two hashes share theirs exactly if they share their bucket
(`Address.Exact`). So every access to an index stays inside its arrays and reaches
one bucket alone (`Index.Addressed`).

Pools are here of any power that can be built, and indexes of any hashpower that is
accepted: below the one at which an index gets its second stripe, at it and above.
Main statement: `addressing_exact`.
-/
namespace SegmentedCache

/-! ## Pools -/

/-- A vector is built position by position; it is built if every position is. -/
theorem ofFnM_eq_ok_iff {ε α : Type} {n : ℕ} {f : Fin n → Except ε α} {v : Vector α n} :
    Vector.ofFnM f = .ok v ↔ ∀ k, f k = .ok (v.get k) := by
  constructor
  · intro h
    induction n with
    | zero => exact fun k => k.elim0
    | succ n ih =>
      rw [Vector.ofFnM_succ] at h
      obtain ⟨front, hfront, h⟩ := bind_eq_ok_iff.mp h
      obtain ⟨last, hlast, h⟩ := bind_eq_ok_iff.mp h
      cases h
      refine Fin.lastCases ?_ fun k => ?_
      · rw [hlast]
        exact congrArg Except.ok Vector.getElem_push_eq.symm
      · rw [ih hfront k]
        exact congrArg Except.ok (Vector.getElem_push_lt k.isLt).symm
  · intro h
    rw [show f = fun k => pure (v.get k) from funext h, Vector.ofFnM_pure]
    exact congrArg Except.ok Vector.ofFn_getElem

namespace StripePool
variable {α : Type} {power stripeBytes : ℕ} {init : ℕ → Except BuildError α}
  {pool : StripePool α power} {g h : UInt64}

theorem lt_powerLimit_of_reserve (h : reserve power stripeBytes = .ok ()) :
    power < powerLimit := by
  unfold reserve at h
  split at h
  · cases h
  · omega

theorem build_eq_ok_iff :
    build power stripeBytes init = .ok pool ↔
      reserve power stripeBytes = .ok () ∧
        ∀ k : Fin (1 <<< power), init k = .ok (pool.stripes.get k) := by
  unfold build
  constructor
  · intro h
    obtain ⟨⟨⟩, hreserve, h⟩ := bind_eq_ok_iff.mp h
    obtain ⟨stripes, hstripes, h⟩ := bind_eq_ok_iff.mp h
    cases h
    exact ⟨hreserve, ofFnM_eq_ok_iff.mp hstripes⟩
  · rintro ⟨hreserve, hinit⟩
    exact bind_eq_ok_iff.mpr ⟨(), hreserve,
      bind_eq_ok_iff.mpr ⟨pool.stripes, ofFnM_eq_ok_iff.mpr hinit, rfl⟩⟩

theorem stripeOf_eq_iff (hpower : power ≤ 64) :
    (stripeOf g : Fin (1 <<< power)) = stripeOf h ↔ g.toNat ≡ h.toNat [MOD 2 ^ power] := by
  rw [Fin.ext_iff]
  change (g &&& lowBits power).toNat = (h &&& lowBits power).toNat ↔ _
  rw [toNat_and_lowBits hpower, toNat_and_lowBits hpower, Nat.one_shiftLeft]
  rfl

/-- Writes values, each under a hash, one after another. -/
def writeAll (pool : StripePool α power) : List (UInt64 × α) → StripePool α power
  | [] => pool
  | (g, a) :: rest => (pool.set g a).writeAll rest

theorem writeAll_append (before after : List (UInt64 × α)) :
    pool.writeAll (before ++ after) = (pool.writeAll before).writeAll after := by
  induction before generalizing pool with
  | nil => rfl
  | cons w before ih => exact ih

theorem get_writeAll_of_ne {writes : List (UInt64 × α)}
    (hne : ∀ w ∈ writes, (stripeOf w.1 : Fin (1 <<< power)) ≠ stripeOf h) :
    (pool.writeAll writes).get h = pool.get h := by
  induction writes generalizing pool with
  | nil => rfl
  | cons w rest ih =>
    obtain ⟨hw, hrest⟩ := List.forall_mem_cons.mp hne
    calc ((pool.set w.1 w.2).writeAll rest).get h
        = (pool.set w.1 w.2).get h := ih hrest
      _ = pool.get h := by rw [get_set, if_neg hw.symm]

theorem get_writeAll_last {before after : List (UInt64 × α)} {a : α}
    (hg : (stripeOf g : Fin (1 <<< power)) = stripeOf h)
    (hne : ∀ w ∈ after, (stripeOf w.1 : Fin (1 <<< power)) ≠ stripeOf h) :
    (pool.writeAll (before ++ (g, a) :: after)).get h = a := by
  rw [writeAll_append]
  calc (((pool.writeAll before).set g a).writeAll after).get h
      = ((pool.writeAll before).set g a).get h := get_writeAll_of_ne hne
    _ = a := by rw [get_set, if_pos hg.symm]

/-- Under every hash the pool answers what was last written under a hash with the same low
bits, or what `init` gave for these bits. -/
structure Recalls (init : ℕ → Except BuildError α) (pool : StripePool α power) : Prop where
  written : ∀ before g a after h, g.toNat ≡ h.toNat [MOD 2 ^ power] →
    (∀ w ∈ after, ¬ w.1.toNat ≡ h.toNat [MOD 2 ^ power]) →
    (pool.writeAll (before ++ (g, a) :: after)).get h = a
  built : ∀ writes h, (∀ w ∈ writes, ¬ w.1.toNat ≡ h.toNat [MOD 2 ^ power]) →
    init (h.toNat % 2 ^ power) = .ok ((pool.writeAll writes).get h)

theorem recalls_of_build (hbuild : build power stripeBytes init = .ok pool) :
    pool.Recalls init := by
  obtain ⟨hreserve, hinit⟩ := build_eq_ok_iff.mp hbuild
  have hpower : power ≤ 64 := by
    have := lt_powerLimit_of_reserve hreserve
    unfold powerLimit at this
    omega
  constructor
  · intro before g a after h hg hafter
    simp only [← stripeOf_eq_iff hpower] at hg hafter
    exact get_writeAll_last hg hafter
  · intro writes h hne
    simp only [← stripeOf_eq_iff hpower] at hne
    have hstripe : (stripeOf h : Fin (1 <<< power)).val = h.toNat % 2 ^ power := by
      rw [← Nat.one_shiftLeft]
      exact toNat_and_lowBits hpower h
    rw [get_writeAll_of_ne hne, ← hstripe]
    exact hinit (stripeOf h)

end StripePool

/-! ## Slots -/

namespace Address
variable {hashpower : ℕ} {a b : UInt64}

/-- Where the bucket of a hash stands: the number of its stripe and its place in the stripe. -/
def slot (hashpower : ℕ) (hash : UInt64) : ℕ × ℕ :=
  ((bucket hashpower hash &&& lowBits (stripesPower hashpower)).toNat,
    (localIndex hashpower (bucket hashpower hash)).toNat)

theorem bucketsPower_eq_sub (hashpower : ℕ) :
    bucketsPower hashpower = hashpower - stripesPower hashpower := by
  have := stripesPower_add_bucketsPower hashpower
  omega

theorem bucket_eq_iff (h : hashpower ≤ maxHashpower) :
    bucket hashpower a = bucket hashpower b ↔ a.toNat ≡ b.toNat [MOD 2 ^ hashpower] := by
  rw [← UInt64.toNat_inj, toNat_bucket h, toNat_bucket h, Nat.one_shiftLeft]
  rfl

theorem slot_eq_iff (h : hashpower ≤ maxHashpower) :
    slot hashpower a = slot hashpower b ↔ bucket hashpower a = bucket hashpower b := by
  constructor
  · intro e
    obtain ⟨hstripe, hplace⟩ := Prod.mk.inj e
    exact eq_of_stripe_of_local h (Fin.ext hstripe) hplace
  · intro e
    unfold slot
    rw [e]

/-- The slots of the hashes are those of `2 ^ stripesPower` stripes that share the buckets
evenly, a slot for every residue of the hashes. -/
structure Exact (hashpower : ℕ) : Prop where
  stripe_lt : ∀ hash, (slot hashpower hash).1 < 2 ^ stripesPower hashpower
  place_lt : ∀ hash, (slot hashpower hash).2 < 2 ^ (hashpower - stripesPower hashpower)
  eq_iff : ∀ a b, slot hashpower a = slot hashpower b ↔ a.toNat ≡ b.toNat [MOD 2 ^ hashpower]
  reached : ∀ stripe < 2 ^ stripesPower hashpower,
    ∀ place < 2 ^ (hashpower - stripesPower hashpower), ∃ hash, slot hashpower hash = (stripe, place)

theorem exact_of_le (h : hashpower ≤ maxHashpower) : Exact hashpower := by
  constructor
  · intro hash
    rw [← Nat.one_shiftLeft]
    exact toNat_and_lowBits_lt _ _
  · intro hash
    rw [← bucketsPower_eq_sub, ← Nat.one_shiftLeft]
    exact toNat_local_lt h hash
  · intro a b
    rw [slot_eq_iff h, bucket_eq_iff h]
  · intro stripe hstripe place hplace
    rw [← Nat.one_shiftLeft] at hstripe
    rw [← bucketsPower_eq_sub, ← Nat.one_shiftLeft] at hplace
    obtain ⟨hash, hs, hl⟩ := exists_bucket h ⟨stripe, hstripe⟩ ⟨place, hplace⟩
    exact ⟨hash, Prod.ext (congrArg Fin.val hs) hl⟩

end Address

namespace Index
variable {ix : Index}

/-- The chain at a slot of the plain arrays, where a slot outside them has none. -/
def chain? (ix : Index) (slot : ℕ × ℕ) : Option Chain :=
  ix.stripes.stripes[slot.1]?.bind fun stripe => stripe[slot.2]?

theorem chain?_of_lt (ix : Index) {stripe place : ℕ}
    (hs : stripe < 1 <<< Address.stripesPower ix.hashpower)
    (hp : place < 1 <<< Address.bucketsPower ix.hashpower) :
    ix.chain? (stripe, place) = some (ix.chainAt ⟨stripe, hs⟩ ⟨place, hp⟩) := by
  unfold chain?
  rw [Vector.getElem?_eq_getElem hs, Option.bind_some, Vector.getElem?_eq_getElem hp]
  rfl

theorem chain?_eq_none (ix : Index) {stripe place : ℕ}
    (h : ¬ (stripe < 1 <<< Address.stripesPower ix.hashpower ∧
      place < 1 <<< Address.bucketsPower ix.hashpower)) :
    ix.chain? (stripe, place) = none := by
  unfold chain?
  rw [Option.bind_eq_none_iff]
  intro row hrow
  have hs := (Vector.getElem?_eq_some_iff.mp hrow).1
  exact Vector.getElem?_eq_none (by omega)

/-- What is looked up for a hash is in the arrays. -/
theorem chain?_slot (ix : Index) (hash : UInt64) :
    ix.chain? (Address.slot ix.hashpower hash) = some (ix.bucket hash) :=
  ix.chain?_of_lt (toNat_and_lowBits_lt _ _) (Address.toNat_local_lt ix.hashpower_le hash)

/-- A chain that is written replaces the one at the slot of its id and no other. -/
theorem chain?_setChainOf (ix : Index) (id : ObjectId) (c : Chain) (slot : ℕ × ℕ) :
    (ix.setChainOf id c).chain? slot =
      if slot = Address.slot ix.hashpower (ix.hash id) then some c else ix.chain? slot := by
  obtain ⟨stripe, place⟩ := slot
  by_cases hin : stripe < 1 <<< Address.stripesPower ix.hashpower ∧
      place < 1 <<< Address.bucketsPower ix.hashpower
  · obtain ⟨hs, hp⟩ := hin
    have hat : (stripe, place) = Address.slot ix.hashpower (ix.hash id) ↔
        ⟨stripe, hs⟩ = ix.stripeOf id ∧ ⟨place, hp⟩ = ix.localOf id := by
      simp only [Address.slot, Prod.mk.injEq, Fin.ext_iff]
      rfl
    rw [(ix.setChainOf id c).chain?_of_lt hs hp, ix.chain?_of_lt hs hp]
    simp only [hat]
    rw [← apply_ite some]
    exact congrArg some (ix.chainAt_setChainOf id c _ _)
  · have hne : (stripe, place) ≠ Address.slot ix.hashpower (ix.hash id) := by
      intro e
      obtain ⟨rfl, rfl⟩ := Prod.mk.inj e
      exact hin ⟨toNat_and_lowBits_lt _ _, Address.toNat_local_lt ix.hashpower_le (ix.hash id)⟩
    rw [if_neg hne, ix.chain?_eq_none hin]
    exact (ix.setChainOf id c).chain?_eq_none hin

/-- Every access to the index goes to one slot of its arrays: a look-up or a change by id to
that of the id's hash, a random draw to that of the hash drawn. -/
structure Addressed (ix : Index) : Prop where
  looked : ∀ id, ix.chain? (Address.slot ix.hashpower (ix.hash id)) = some (ix.chainOf id)
  drawn : ∀ hash, ix.chain? (Address.slot ix.hashpower hash) = some (ix.bucket hash)
  changed : ∀ id c slot, (ix.setChainOf id c).chain? slot =
    if slot = Address.slot ix.hashpower (ix.hash id) then some c else ix.chain? slot

theorem addressed (ix : Index) : ix.Addressed where
  looked id := ix.chain?_slot (ix.hash id)
  drawn := ix.chain?_slot
  changed := ix.chain?_setChainOf

end Index

/-- The slots of an index of any accepted hashpower are one to one its buckets, and no access
leaves them. A pool of any power that is built recalls what was last written. -/
theorem addressing_exact :
    (∀ hashpower ≤ maxHashpower, Address.Exact hashpower ∧
      ∀ ix : Index, ix.hashpower = hashpower → ix.Addressed) ∧
    ∀ (α : Type) (power stripeBytes : ℕ) (init : ℕ → Except BuildError α)
      (pool : StripePool α power),
      StripePool.build power stripeBytes init = .ok pool → pool.Recalls init := by
  constructor
  · intro hashpower h
    exact ⟨Address.exact_of_le h, fun ix _ => ix.addressed⟩
  · intro α power stripeBytes init pool
    exact StripePool.recalls_of_build

/-- The first hashpower with two stripes, and a pool in which two hashes of one class are
written. -/
theorem addressing_exact_at_threshold :
    11 ≤ maxHashpower ∧ Address.slot 11 5 = (1, 2) ∧ Address.slot 11 2053 = Address.slot 11 5 ∧
      Address.slot 11 4 ≠ Address.slot 11 5 ∧
      (∃ ix, Index.create id 11 = .ok ix ∧
        ix.chain? (Address.slot 11 18446744073709551615) = some (ix.bucket 18446744073709551615)) ∧
      ∃ pool : StripePool ℕ 2, StripePool.build 2 16 .ok = .ok pool ∧
        (pool.writeAll [(1, 7), (5, 8), (2, 9)]).get 13 = 8 ∧
        (pool.writeAll [(1, 7), (5, 8), (2, 9)]).get 7 = 3 := by
  have hle : 11 ≤ maxHashpower := by decide
  obtain ⟨hexact, haddressed⟩ := addressing_exact.1 11 hle
  have hbuild : StripePool.build 2 16 .ok = .ok (⟨#v[0, 1, 2, 3]⟩ : StripePool ℕ 2) :=
    StripePool.build_eq_ok_iff.mpr ⟨rfl, by decide⟩
  have hrecalls := addressing_exact.2 ℕ 2 16 .ok _ hbuild
  refine ⟨hle, by decide, (hexact.eq_iff 2053 5).mpr (by decide),
    mt (hexact.eq_iff 4 5).mp (by decide), ⟨_, rfl, ?_⟩, _, hbuild, ?_, ?_⟩
  · exact (haddressed (.empty id 11 hle) rfl).drawn 18446744073709551615
  · exact hrecalls.written [(1, 7)] 5 8 [(2, 9)] 13 (by decide) (by decide)
  · exact (Except.ok.inj (hrecalls.built [(1, 7), (5, 8), (2, 9)] 7 (by decide))).symm

end SegmentedCache
