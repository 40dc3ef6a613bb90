import Mathlib
import SegmentedCache.Proofs.Index.Entries

/-!
# Buckets of an index

The chains of an index, addressed by hash value instead of by place: every chain
is the bucket of some hash (`mem_chains_iff`), and in a valid index a bucket
holds exactly the entries whose hash has the same low bits (`mem_bucket_iff`). An
index is therefore told, up to the order inside its chains, by what looking up
finds: two valid indexes of one shape that find the same objects agree on their
counts, buckets and longest chains.
-/
namespace SegmentedCache

theorem Address.toNat_bucket {hashpower : Nat} (h : hashpower ≤ maxHashpower) (hash : UInt64) :
    (bucket hashpower hash).toNat = hash.toNat % 1 <<< hashpower :=
  toNat_and_lowBits (by unfold maxHashpower at h; omega) hash

/-- Every pair of a stripe and a place in it is the address of a bucket. -/
theorem Address.exists_bucket {hashpower : Nat} (h : hashpower ≤ maxHashpower)
    (a : Fin (1 <<< stripesPower hashpower)) (b : Fin (1 <<< bucketsPower hashpower)) :
    ∃ hash, StripePool.stripeOf (bucket hashpower hash) = a ∧
      (localIndex hashpower (bucket hashpower hash)).toNat = b := by
  obtain ⟨a, ha⟩ := a
  obtain ⟨b, hb⟩ := b
  have hs : stripesPower hashpower ≤ 64 := by
    unfold stripesPower maxHashpower at *
    omega
  have hword : 2 ^ hashpower ≤ 2 ^ 64 := by
    refine Nat.pow_le_pow_right Nat.two_pos ?_
    unfold maxHashpower at h
    omega
  have hlt : a + 2 ^ stripesPower hashpower * b < 2 ^ hashpower := by
    rw [Nat.one_shiftLeft] at ha hb
    calc a + 2 ^ stripesPower hashpower * b
        < 2 ^ stripesPower hashpower * (b + 1) := by rw [Nat.mul_succ]; omega
      _ ≤ 2 ^ stripesPower hashpower * 2 ^ bucketsPower hashpower := Nat.mul_le_mul_left _ hb
      _ = 2 ^ hashpower := by rw [← Nat.pow_add, stripesPower_add_bucketsPower]
  have hnumber : (bucket hashpower (UInt64.ofNat (a + 2 ^ stripesPower hashpower * b))).toNat =
      a + 2 ^ stripesPower hashpower * b := by
    rw [toNat_bucket h, UInt64.toNat_ofNat', Nat.mod_eq_of_lt (Nat.lt_of_lt_of_le hlt hword),
      Nat.one_shiftLeft, Nat.mod_eq_of_lt hlt]
  refine ⟨UInt64.ofNat (a + 2 ^ stripesPower hashpower * b), Fin.ext ?_, ?_⟩
  · change (bucket _ _ &&& lowBits _).toNat = a
    rw [toNat_and_lowBits hs, hnumber, Nat.one_shiftLeft, Nat.add_mul_mod_self_left,
      Nat.mod_eq_of_lt (Nat.one_shiftLeft _ ▸ ha)]
  · rw [toNat_localIndex h, hnumber, Nat.shiftRight_eq_div_pow,
      Nat.add_mul_div_left _ _ (Nat.two_pow_pos _),
      Nat.div_eq_of_lt (Nat.one_shiftLeft _ ▸ ha), Nat.zero_add]

namespace Index
variable {ix ix' : Index} {o : CacheObject} {hash : UInt64}

/-- The chains are the buckets of all hashes. -/
theorem mem_chains_iff {c : Chain} : c ∈ ix.chains ↔ ∃ hash, ix.bucket hash = c := by
  unfold chains
  simp only [List.mem_flatMap]
  constructor
  · rintro ⟨v, hv, hc⟩
    obtain ⟨a, ha, rfl⟩ := Vector.getElem_of_mem (Vector.mem_toList_iff.mp hv)
    obtain ⟨b, hb, rfl⟩ := Vector.getElem_of_mem (Vector.mem_toList_iff.mp hc)
    obtain ⟨hash, hstripe, hplace⟩ := Address.exists_bucket ix.hashpower_le ⟨a, ha⟩ ⟨b, hb⟩
    refine ⟨hash, ?_⟩
    have hget : ix.stripes.get (Address.bucket ix.hashpower hash) = ix.stripes.stripes[a] :=
      congrArg ix.stripes.stripes.get hstripe
    unfold bucket
    rw [hget]
    exact congrArg (Vector.get _) (Fin.ext hplace)
  · rintro ⟨hash, rfl⟩
    exact ⟨_, Vector.mem_toList_iff.mpr (Vector.getElem_mem _),
      Vector.mem_toList_iff.mpr (Vector.getElem_mem _)⟩

theorem isEmpty_iff (h : ix.Valid) : ix.isEmpty ↔ ∀ c ∈ ix.chains, c = [] := by
  unfold isEmpty
  rw [beq_iff_eq, h.counted, List.length_eq_zero_iff]
  exact List.flatten_eq_nil_iff

/-- The chains stand stripe by stripe, each place of a stripe in turn. -/
theorem pairwise_chains {R : Chain → Chain → Prop}
    (h : ∀ a b a' b', (a, b) ≠ (a', b') → R (ix.chainAt a b) (ix.chainAt a' b')) :
    ix.chains.Pairwise R := by
  unfold chains
  rw [List.pairwise_flatMap]
  constructor
  · intro v hv
    obtain ⟨a, ha, rfl⟩ := Vector.getElem_of_mem (Vector.mem_toList_iff.mp hv)
    rw [List.pairwise_iff_getElem]
    intro b b' hb hb' hlt
    rw [Vector.length_toList] at hb hb'
    simp only [Vector.getElem_toList]
    refine h ⟨a, ha⟩ ⟨b, hb⟩ ⟨a, ha⟩ ⟨b', hb'⟩ fun e => ?_
    exact Nat.ne_of_lt hlt (Fin.mk.inj (Prod.mk.inj e).2)
  · rw [List.pairwise_iff_getElem]
    intro a a' ha ha' hlt c hc d hd
    rw [Vector.length_toList] at ha ha'
    simp only [Vector.getElem_toList] at hc hd
    obtain ⟨b, hb, rfl⟩ := Vector.getElem_of_mem (Vector.mem_toList_iff.mp hc)
    obtain ⟨b', hb', rfl⟩ := Vector.getElem_of_mem (Vector.mem_toList_iff.mp hd)
    refine h ⟨a, ha⟩ ⟨b, hb⟩ ⟨a', ha'⟩ ⟨b', hb'⟩ fun e => ?_
    exact Nat.ne_of_lt hlt (Fin.mk.inj (Prod.mk.inj e).1)

/-- No id has two entries, in one chain or in two. -/
theorem Valid.nodup_entries (h : ix.Valid) : (ix.entries.map CacheObject.id).Nodup := by
  unfold entries
  rw [List.map_flatten, List.nodup_flatten, List.pairwise_map]
  constructor
  · intro l hl
    obtain ⟨c, hc, rfl⟩ := List.mem_map.mp hl
    obtain ⟨hash, rfl⟩ := mem_chains_iff.mp hc
    exact h.nodup _ _
  · refine pairwise_chains fun a b a' b' hne id hid hid' => ?_
    obtain ⟨o, ho, rfl⟩ := List.mem_map.mp hid
    obtain ⟨p, hp, hpo⟩ := List.mem_map.mp hid'
    obtain ⟨ha, hb⟩ := h.home a b o ho
    obtain ⟨ha', hb'⟩ := h.home a' b' p hp
    rw [← hpo] at ha hb
    exact hne (by rw [← ha, ← hb, ← ha', ← hb'])

/-- A bucket holds the entries whose hash falls into it. -/
theorem mem_bucket_iff (h : ix.Valid) :
    o ∈ ix.bucket hash ↔ ix.find? o.id = some o ∧ ix.bucketOf o.id = Address.bucket ix.hashpower hash := by
  constructor
  · intro ho
    obtain ⟨hstripe, hplace⟩ := h.home _ _ o ho
    refine ⟨(mem_entries_iff h).mp (mem_entries_iff_chainAt.mpr ⟨_, _, ho⟩), ?_⟩
    exact Address.eq_of_stripe_of_local ix.hashpower_le hstripe (Fin.mk.inj hplace)
  · rintro ⟨ho, hb⟩
    have hchain : ix.chainOf o.id = ix.bucket hash := by
      unfold chainOf localOf bucket
      simp only [hb]
    exact hchain ▸ (Chain.find?_eq_some ho).1

theorem Valid.nodup_bucket (h : ix.Valid) (hash : UInt64) :
    ((ix.bucket hash).map CacheObject.id).Nodup := h.nodup _ _

/-- The entries stand where they should: one for an id at most, each in the bucket
of its masked hash, and the count is that of all chains together. -/
structure Arranged (ix : Index) : Prop where
  once : (ix.entries.map CacheObject.id).Nodup
  bucket : ∀ hash o, o ∈ ix.bucket hash ↔
    ix.find? o.id = some o ∧ ix.bucketOf o.id = Address.bucket ix.hashpower hash
  count : ix.count = (ix.chains.map List.length).sum
  isEmpty : ix.isEmpty ↔ ∀ c ∈ ix.chains, c = []

theorem Valid.arranged (h : ix.Valid) : ix.Arranged where
  once := h.nodup_entries
  bucket _ _ := mem_bucket_iff h
  count := by rw [h.counted, entries, List.length_flatten]
  isEmpty := isEmpty_iff h

theorem maxChainLength_le_iff {n : Nat} :
    ix.maxChainLength ≤ n ↔ ∀ hash, (ix.bucket hash).length ≤ n := by
  have hfold : ∀ (l : List Nat) (m : Nat), l.foldl max m ≤ n ↔ m ≤ n ∧ ∀ k ∈ l, k ≤ n := by
    intro l
    induction l with
    | nil => simp
    | cons k l ih => simp [ih, and_assoc]
  unfold maxChainLength
  rw [hfold, List.forall_mem_map]
  constructor
  · exact fun h hash => h.2 _ (mem_chains_iff.mpr ⟨hash, rfl⟩)
  · refine fun h => ⟨Nat.zero_le n, fun c hc => ?_⟩
    obtain ⟨hash, rfl⟩ := mem_chains_iff.mp hc
    exact h hash

/-- Two indexes of one shape in which every look-up finds the same. -/
structure Alike (ix ix' : Index) : Prop where
  shape : ix.shape = ix'.shape
  find : ∀ id, ix.find? id = ix'.find? id

theorem Alike.bucket_perm (a : Alike ix ix') (h : ix.Valid) (h' : ix'.Valid) (hash : UInt64) :
    (ix.bucket hash).Perm (ix'.bucket hash) := by
  refine (List.perm_ext_iff_of_nodup (h.nodup_bucket hash).of_map (h'.nodup_bucket hash).of_map).mpr
    fun o => ?_
  obtain ⟨hhash, hpower⟩ := Prod.mk.inj a.shape
  rw [mem_bucket_iff h, mem_bucket_iff h', a.find]
  unfold bucketOf
  rw [hhash, hpower]

theorem Alike.count_eq (a : Alike ix ix') (h : ix.Valid) (h' : ix'.Valid) : ix.count = ix'.count := by
  have hperm : ix.entries.Perm ix'.entries := by
    refine (List.perm_ext_iff_of_nodup h.nodup_entries.of_map h'.nodup_entries.of_map).mpr fun o => ?_
    rw [mem_entries_iff h, mem_entries_iff h', a.find]
  rw [h.counted, h'.counted, hperm.length_eq]

theorem Alike.maxChainLength_eq (a : Alike ix ix') (h : ix.Valid) (h' : ix'.Valid) :
    ix.maxChainLength = ix'.maxChainLength := by
  have hle : ∀ n, ix.maxChainLength ≤ n ↔ ix'.maxChainLength ≤ n := fun n => by
    rw [maxChainLength_le_iff, maxChainLength_le_iff]
    simp only [(a.bucket_perm h h' _).length_eq]
  exact Nat.le_antisymm ((hle _).mpr (Nat.le_refl _)) ((hle _).mp (Nat.le_refl _))

end Index
end SegmentedCache
