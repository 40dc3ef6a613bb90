import Mathlib.Data.List.Nodup
import Mathlib.Data.List.Perm.Subperm
import Mathlib.Data.Option.Basic
import SegmentedCache.Proofs.Recency.Links

/-!
# Recency lists as sequences

A list of slots and objects is spelled by a recency list if its slots form the
ring of the list in that order, no other slot is taken, and the slots on offer
are the ones that are not. Each operation on a recency list is described by what
it does to the sequence that is spelled: `Spells.pushFront`, `Spells.remove` and
`Spells.moveToFront`. An operation on an empty slot changes nothing.
-/
namespace SegmentedCache.Recency

structure Spells (q : Recency) (l : List (Nat × CacheObject)) : Prop where
  joined : (ring (l.map Prod.fst)).IsChain q.Joined
  nodup : (l.map Prod.fst).Nodup
  objectAt : ∀ k o, q.objectAt k = some o ↔ (k, o) ∈ l
  length : q.length = l.length
  free_nodup : q.free.Nodup
  mem_free : ∀ k, k ∈ q.free ↔ k < q.slots.size ∧ q.objectAt k = none

/-- Going on from a place by one of the links of the nodes meets these objects and then
ends. -/
inductive Walks (q : Recency) (link : Node → Option Nat) : Option Nat → List CacheObject → Prop
  | stop {x : Option Nat} (h : x.bind q.node? = none) : Walks q link x []
  | step {x : Option Nat} {n : Node} {l : List CacheObject} (h : x.bind q.node? = some n)
    (rest : Walks q link (link n) l) : Walks q link x (n.object :: l)

/-- Enough fuel goes the whole way. -/
theorem Walks.follow_eq {q : Recency} {x : Option Nat} {l : List CacheObject} {fuel : Nat}
    (h : q.Walks Node.older x l) (hf : l.length ≤ fuel) : q.follow fuel x = l := by
  induction h generalizing fuel with
  | stop h => cases fuel <;> simp [follow, h]
  | step h _ ih =>
    cases fuel with
    | zero => simp at hf
    | succ fuel => simp [follow, h, ih (Nat.le_of_succ_le_succ hf)]

/-- Links that lead along the slots of a list, and out of the list behind the last one. -/
theorem walks_of_chain {q : Recency} {link : Node → Option Nat}
    {next : Option Nat → Option (Option Nat)} (hnext : ∀ k, next (some k) = (q.node? k).map link)
    {l : List (Nat × CacheObject)} {x y : Option Nat}
    (hj : (x :: (l.map (some ∘ Prod.fst) ++ [none])).IsChain fun a b => next a = some b)
    (ho : ∀ e ∈ l, q.objectAt e.1 = some e.2) (hy : next x = some y) :
    q.Walks link y (l.map Prod.snd) := by
  induction l generalizing x y with
  | nil =>
    have hx : next x = some none := (List.isChain_cons_cons.mp hj).1
    obtain rfl : y = none := Option.some.inj (hy.symm.trans hx)
    exact .stop rfl
  | cons e l ih =>
    have hx : next x = some (some e.1) := (List.isChain_cons_cons.mp hj).1
    obtain rfl : y = some e.1 := Option.some.inj (hy.symm.trans hx)
    obtain ⟨n, hn, hno⟩ := Option.map_eq_some_iff.mp (ho e List.mem_cons_self)
    have hstep : next (some e.1) = some (link n) := by rw [hnext, hn, Option.map_some]
    have hrest : q.Walks link (link n) (l.map Prod.snd) :=
      ih (List.isChain_cons_cons.mp hj).2 (fun e' he => ho e' (List.mem_cons_of_mem _ he)) hstep
    rw [List.map_cons, ← hno]
    exact .step hn hrest

section
variable {ks : List Nat}

theorem dropLast_ring (ks : List Nat) : (ring ks).dropLast = none :: ks.map some := by
  unfold ring
  rw [List.dropLast_cons_of_ne_nil (by simp), List.dropLast_concat]

theorem nodup_dropLast_ring (h : ks.Nodup) : (ring ks).dropLast.Nodup := by
  rw [dropLast_ring]
  exact List.nodup_cons.mpr ⟨by simp, h.map (Option.some_injective _)⟩

theorem nodup_tail_ring (h : ks.Nodup) : (ring ks).tail.Nodup := by
  change (ks.map some ++ [none]).Nodup
  exact List.nodup_append.mpr ⟨h.map (Option.some_injective _), by simp, by simp⟩

theorem some_mem_ring_iff {k : Nat} : some k ∈ ring ks ↔ k ∈ ks := by
  simp [ring]

theorem reverse_ring (ks : List Nat) : (ring ks).reverse = ring ks.reverse := by
  simp [ring]

/-- A ring depends on the nodes in its slots and on the two ends only. -/
theorem isChain_ring_congr {q q' : Recency} (h : (ring ks).IsChain q.Joined)
    (hnewest : q'.newest = q.newest) (holdest : q'.oldest = q.oldest)
    (hnode : ∀ j ∈ ks, q'.node? j = q.node? j) : (ring ks).IsChain q'.Joined := by
  have hkeep : ∀ x ∈ ring ks, q'.olderOf x = q.olderOf x ∧ q'.newerOf x = q.newerOf x := by
    intro x hx
    cases x with
    | none => exact ⟨congrArg some hnewest, congrArg some holdest⟩
    | some j =>
      have hj := hnode j (some_mem_ring_iff.mp hx)
      exact ⟨congrArg (Option.map Node.older) hj, congrArg (Option.map Node.newer) hj⟩
  apply h.imp_of_mem_imp
  intro x y hx hy hxy
  exact ⟨(hkeep x hx).1.trans hxy.1, (hkeep y hy).2.trans hxy.2⟩

/-- A ring with a slot in it splits at the neighbours of the slot. -/
theorem ring_split (ks₁ : List Nat) (k : Nat) (ks₂ : List Nat) :
    ∃ p x z s, ring (ks₁ ++ k :: ks₂) = p ++ x :: some k :: z :: s ∧
      ring (ks₁ ++ ks₂) = p ++ x :: z :: s := by
  obtain ⟨p, x, hp⟩ : ∃ p x, none :: ks₁.map some = p ++ [x] :=
    ⟨_, _, (List.dropLast_concat_getLast (List.cons_ne_nil _ _)).symm⟩
  obtain ⟨z, s, hs⟩ : ∃ z s, ks₂.map some ++ [none] = z :: s :=
    List.exists_cons_of_ne_nil (by simp)
  have h₁ : ring (ks₁ ++ k :: ks₂) =
      (none :: ks₁.map some) ++ some k :: (ks₂.map some ++ [none]) := by simp [ring]
  have h₂ : ring (ks₁ ++ ks₂) = (none :: ks₁.map some) ++ (ks₂.map some ++ [none]) := by
    simp [ring]
  refine ⟨p, x, z, s, ?_, ?_⟩
  · rw [h₁, hp, hs, List.append_assoc, List.singleton_append]
  · rw [h₂, hp, hs, List.append_assoc, List.singleton_append]

end

/-- With one node to a slot, the others stand at other slots. -/
theorem nodup_others {l₁ l₂ : List (Nat × CacheObject)} {k : Nat} {o : CacheObject}
    (h : ((l₁ ++ (k, o) :: l₂).map Prod.fst).Nodup) :
    k ∉ (l₁ ++ l₂).map Prod.fst ∧ ((l₁ ++ l₂).map Prod.fst).Nodup := by
  rwa [List.map_append, List.map_cons, List.nodup_middle, List.nodup_cons,
    ← List.map_append] at h

namespace Spells
variable {q q' : Recency} {l l₁ l₂ : List (Nat × CacheObject)} {k : Nat} {o : CacheObject}

theorem empty : Recency.empty.Spells [] where
  joined := .cons_cons ⟨rfl, rfl⟩ (.singleton _)
  nodup := List.nodup_nil
  objectAt k o := by simp [Recency.objectAt, node?, Recency.empty]
  length := rfl
  free_nodup := List.nodup_nil
  mem_free k := by simp [Recency.empty]

theorem mem_slots_iff (h : q.Spells l) : k ∈ l.map Prod.fst ↔ ∃ o, q.objectAt k = some o := by
  simp only [List.mem_map, Prod.exists, exists_and_right, exists_eq_right, h.objectAt]

theorem length_le_size (h : q.Spells l) : l.length ≤ q.slots.size := by
  have hsub : l.map Prod.fst ⊆ List.range q.slots.size := fun k hk => by
    obtain ⟨o, ho⟩ := h.mem_slots_iff.mp hk
    exact List.mem_range.mpr (lt_size_of_objectAt ho)
  have := (h.nodup.subperm hsub).length_le
  rwa [List.length_map, List.length_range] at this

/-- The links toward the back lead through the sequence and end. -/
theorem walks_older (h : q.Spells l) : q.Walks Node.older q.newest (l.map Prod.snd) := by
  have hj := h.joined
  rw [ring, List.map_map] at hj
  exact walks_of_chain (fun _ => rfl) (hj.imp fun _ _ hab => hab.1)
    (fun e he => (h.objectAt _ _).mpr he) rfl

/-- The links toward the front lead through the sequence the other way round. -/
theorem walks_newer (h : q.Spells l) : q.Walks Node.newer q.oldest (l.map Prod.snd).reverse := by
  have hj : (ring (l.map Prod.fst)).reverse.IsChain fun a b => q.newerOf a = some b :=
    List.isChain_reverse.mpr (h.joined.imp fun _ _ hab => hab.2)
  rw [reverse_ring, ← List.map_reverse, ring, List.map_map] at hj
  rw [← List.map_reverse]
  exact walks_of_chain (fun _ => rfl) hj
    (fun e he => (h.objectAt _ _).mpr (List.mem_reverse.mp he)) rfl

theorem toList_eq (h : q.Spells l) : q.toList = l.map Prod.snd :=
  h.walks_older.follow_eq (by simpa using h.length_le_size)

theorem mem_toList_iff (h : q.Spells l) : o ∈ q.toList ↔ ∃ k, (k, o) ∈ l := by
  rw [h.toList_eq]
  simp

/-- Objects that know their slots stand at one node each. -/
theorem ne_of_slots {s : Objects} (h : q.Spells (l₁ ++ (k, o) :: l₂))
    (hs : ∀ j p, (j, p) ∈ l₁ ++ (k, o) :: l₂ → s.slot p = some j) :
    ∀ e ∈ l₁ ++ l₂, e.2 ≠ o := by
  rintro ⟨j, p⟩ hm rfl
  have hj := hs j p ((List.sublist_cons_self _ _).append_left l₁ |>.subset hm)
  have hk := hs k p (by simp)
  obtain rfl : j = k := Option.some.inj (hj.symm.trans hk)
  exact (nodup_others h.nodup).1 (List.mem_map_of_mem hm)

/-- Without its node an object is out of the sequence, if it stood at no other. -/
theorem toList_eq_filter (h : q.Spells (l₁ ++ (k, o) :: l₂)) (h' : q'.Spells (l₁ ++ l₂))
    (hne : ∀ e ∈ l₁ ++ l₂, e.2 ≠ o) : q'.toList = q.toList.filter (· ≠ o) := by
  rw [h'.toList_eq, h.toList_eq, List.map_append, List.map_append, List.map_cons,
    List.filter_append, List.filter_cons_of_neg (by simp), ← List.filter_append, ← List.map_append]
  refine (List.filter_eq_self.mpr fun p hp => ?_).symm
  obtain ⟨e, he, rfl⟩ := List.mem_map.mp hp
  simpa using hne e he

theorem length_toList (h : q.Spells l) : q.toList.length = q.length := by
  rw [h.toList_eq, List.length_map, h.length]

theorem oldest_eq (h : q.Spells l) : q.oldest = (l.map Prod.fst).getLast? := by
  have hj := h.joined
  rcases List.eq_nil_or_concat' l with rfl | ⟨l, e, rfl⟩
  · exact Option.some.inj (List.isChain_cons_cons.mp hj).1.2
  · rw [List.map_append, ring, List.map_append] at hj
    have hpair : [some e.1, none].IsChain q.Joined :=
      hj.suffix ⟨none :: (l.map Prod.fst).map some, by simp⟩
    rw [Option.some.inj (List.isChain_pair.mp hpair).2]
    simp

theorem newest_eq (h : q.Spells l) : q.newest = (l.map Prod.fst).head? := by
  have hj := h.joined
  cases l with
  | nil => exact Option.some.inj (List.isChain_cons_cons.mp hj).1.1
  | cons e l => exact Option.some.inj (List.isChain_cons_cons.mp hj).1.1

theorem back?_eq (h : q.Spells l) : q.back? = q.toList.getLast? := by
  rw [h.toList_eq, back?, h.oldest_eq]
  rcases List.eq_nil_or_concat' l with rfl | ⟨l, e, rfl⟩
  · rfl
  · have : (q.node? e.1).map Node.object = some e.2 := (h.objectAt _ _).mpr (by simp)
    simpa using this

theorem front?_eq (h : q.Spells l) : q.front? = q.toList.head? := by
  rw [h.toList_eq, front?, h.newest_eq]
  cases l with
  | nil => rfl
  | cons e l =>
    have : (q.node? e.1).map Node.object = some e.2 := (h.objectAt _ _).mpr (by simp)
    simpa using this

/-- Detaching a node closes the ring behind it. -/
theorem detach (h : q.Spells (l₁ ++ (k, o) :: l₂)) :
    ∃ q', q.detach k = some q' ∧ SameSlots q q' ∧
      (ring ((l₁ ++ l₂).map Prod.fst)).IsChain q'.Joined := by
  obtain ⟨p, x, z, s, hks, hks'⟩ := ring_split (l₁.map Prod.fst) k (l₂.map Prod.fst)
  have hr : ring ((l₁ ++ (k, o) :: l₂).map Prod.fst) = p ++ x :: some k :: z :: s := by
    rw [List.map_append, List.map_cons, hks]
  have hj := h.joined
  have hd := nodup_dropLast_ring h.nodup
  have ht := nodup_tail_ring h.nodup
  rw [hr] at hj hd ht
  have hxyz : ([x, some k, z]).IsChain q.Joined := hj.infix ⟨p, s, by simp⟩
  obtain ⟨hxk, hkz⟩ := List.isChain_cons_cons.mp hxyz
  replace hkz := List.isChain_pair.mp hkz
  obtain ⟨n, hn, hnx⟩ := Option.map_eq_some_iff.mp hxk.2
  have hnz : n.older = z := by
    have := hkz.1
    rw [olderOf, hn] at this
    exact Option.some.inj this
  refine ⟨(q.setOlder x z).setNewer z x, ?_,
    (SameSlots.setOlder q x z).trans (SameSlots.setNewer _ z x), ?_⟩
  · unfold Recency.detach
    rw [hn, Option.map_some, hnx, hnz]
  · rw [List.map_append, hks']
    refine isChain_unlink hj hd ht (fun a => ?_) fun a => ?_
    · rw [olderOf_setNewer, olderOf_setOlder _ _ _ _ (by rw [hxk.1]; rfl)]
    · rw [newerOf_setNewer _ _ _ _ (by rw [newerOf_setOlder, hkz.2]; rfl), newerOf_setOlder]

end Spells

/-- Attaching a node whose own links are already those of a front node. -/
theorem isChain_attach {q : Recency} {ks : List Nat} {k : Nat} {n : Node}
    (h : (ring ks).IsChain q.Joined) (hks : ks.Nodup) (hk : k ∉ ks) (hn : q.node? k = some n)
    (hnewer : n.newer = none) (holder : n.older = q.newest) :
    (ring (k :: ks)).IsChain
      ({ q.setNewer q.newest (some k) with newest := some k } : Recency).Joined := by
  obtain ⟨z, s, hs⟩ : ∃ z s, ks.map some ++ [none] = z :: s := List.exists_cons_of_ne_nil (by simp)
  have hr : ring ks = none :: z :: s := by rw [ring, hs]
  have hd := nodup_dropLast_ring hks
  have ht := nodup_tail_ring hks
  have hy : some k ∉ none :: z :: s := by rwa [← hr, some_mem_ring_iff]
  rw [hr] at h hd ht
  have hz : q.newest = z := Option.some.inj (List.isChain_cons_cons.mp h).1.1
  have hzn : (q.newerOf z).isSome := by rw [(List.isChain_cons_cons.mp h).1.2]; rfl
  -- Renaming the newest node touches only the older link of the list itself.
  have ho : ∀ a, ({ q.setNewer q.newest (some k) with newest := some k } : Recency).olderOf a =
      if a = none then some (some k) else q.olderOf a := by
    intro a
    cases a with
    | none => rfl
    | some j => exact olderOf_setNewer q q.newest (some k) (some j)
  have hn' : ∀ a, ({ q.setNewer q.newest (some k) with newest := some k } : Recency).newerOf a =
      if a = z then some (some k) else q.newerOf a := by
    intro a
    rw [← newerOf_setNewer q z (some k) a hzn, ← hz]
    cases a <;> rfl
  have hkz : some k ≠ z := fun e => hy (by simp [e])
  rw [show ring (k :: ks) = none :: some k :: z :: s by rw [ring, List.map_cons, List.cons_append, hs]]
  refine isChain_link h hd ht hy ?_ ?_ (fun a _ => ho a) fun a _ => hn' a
  · rw [ho, if_neg (by simp), olderOf, hn, Option.map_some, holder, hz]
  · rw [hn', if_neg hkz, newerOf, hn, Option.map_some, hnewer]

/-- Placing a node takes a slot that was not taken. -/
theorem objectAt_place {q : Recency} {l : List (Nat × CacheObject)} (h : q.Spells l) (n : Node) :
    q.objectAt (q.place n).1 = none ∧
      (∀ j, (q.place n).2.node? j = if j = (q.place n).1 then some n else q.node? j) ∧
      (q.place n).2.free.Nodup ∧
      ∀ j, j ∈ (q.place n).2.free ↔
        j < (q.place n).2.slots.size ∧ (q.place n).2.objectAt j = none := by
  unfold place
  cases hf : q.free with
  | nil =>
    have hnone : q.node? q.slots.size = none := node?_eq_none_of_size_le le_rfl
    have hnode : ∀ j, ({ q with slots := q.slots.push (some n), free := [] } : Recency).node? j =
        if j = q.slots.size then some n else q.node? j := by
      intro j
      simp only [node?, Array.getElem?_push]
      split <;> rfl
    refine ⟨objectAt_eq_none_iff.mpr hnone, hnode, List.nodup_nil, fun j => ?_⟩
    change j ∈ [] ↔ j < (q.slots.push (some n)).size ∧ _
    rw [objectAt_eq_none_iff, hnode, ← hf, h.mem_free, objectAt_eq_none_iff, Array.size_push]
    by_cases e : j = q.slots.size
    · simp [e]
    · simp only [e, if_false, and_congr_left_iff]
      omega
  | cons k rest =>
    obtain ⟨hk, hrest⟩ := List.nodup_cons.mp (hf ▸ h.free_nodup)
    obtain ⟨hlt, hnone⟩ := (h.mem_free k).mp (hf ▸ List.mem_cons_self)
    have hnode : ∀ j, ({ q with slots := q.slots.setIfInBounds k (some n), free := rest } :
        Recency).node? j = if j = k then some n else q.node? j := by
      intro j
      simp only [node?, Array.getElem?_setIfInBounds]
      by_cases e : j = k
      · simp [e, hlt]
      · simp [e, Ne.symm e]
    refine ⟨hnone, hnode, hrest, fun j => ?_⟩
    rw [objectAt_eq_none_iff, hnode]
    have hj := h.mem_free j
    rw [hf, List.mem_cons, objectAt_eq_none_iff] at hj
    simp only [Array.size_setIfInBounds]
    by_cases e : j = k
    · subst e
      simp [hk]
    · simpa [e] using hj

namespace Spells
variable {q : Recency} {l l₁ l₂ : List (Nat × CacheObject)} {k : Nat} {o : CacheObject}

/-- A linked object comes first and knows its slot. -/
theorem pushFront (h : q.Spells l) (s : Objects) (o : CacheObject) :
    ∃ k, (q.pushFront s o).1.Spells ((k, o) :: l) ∧ (q.pushFront s o).2 = s.setSlot o (some k) := by
  obtain ⟨hnone, hnode, hfree, hmem⟩ := objectAt_place h ⟨o, none, q.newest⟩
  have hnewest : (q.place ⟨o, none, q.newest⟩).2.newest = q.newest := by unfold place; split <;> rfl
  have holdest : (q.place ⟨o, none, q.newest⟩).2.oldest = q.oldest := by unfold place; split <;> rfl
  have hlen : (q.place ⟨o, none, q.newest⟩).2.length = q.length := by unfold place; split <;> rfl
  revert hnone hnode hfree hmem hnewest holdest hlen
  unfold Recency.pushFront
  dsimp only
  generalize q.place ⟨o, none, q.newest⟩ = r
  obtain ⟨k, q₁⟩ := r
  intro hnone hnode hfree hmem hnewest holdest hlen
  dsimp only at hnone hnode hfree hmem hnewest holdest hlen ⊢
  have hk : k ∉ l.map Prod.fst := by
    rw [h.mem_slots_iff]
    rintro ⟨p, hp⟩
    rw [hp] at hnone
    cases hnone
  have hself : q₁.node? k = some ⟨o, none, q.newest⟩ := by rw [hnode, if_pos rfl]
  have hj : (ring (l.map Prod.fst)).IsChain q₁.Joined := by
    apply isChain_ring_congr h.joined hnewest holdest
    intro j hj
    have hjk : j ≠ k := fun e => hk (e ▸ hj)
    rw [hnode, if_neg hjk]
  have hs := SameSlots.setNewer q₁ q₁.newest (some k)
  rw [← hnewest]
  use k
  constructor
  case right => rfl
  constructor
  case joined => exact isChain_attach hj h.nodup hk hself rfl hnewest.symm
  case nodup => exact List.nodup_cons.mpr ⟨hk, h.nodup⟩
  case objectAt =>
    intro j p
    change (q₁.setNewer q₁.newest (some k)).objectAt j = some p ↔ _
    rw [hs.objectAt, Recency.objectAt, hnode]
    by_cases e : j = k
    · subst e
      have : (j, p) ∉ l := fun hm => hk (List.mem_map.mpr ⟨(j, p), hm, rfl⟩)
      simp [this, eq_comm]
    · have := h.objectAt j p
      rw [Recency.objectAt] at this
      simp [e, this]
  case length =>
    change (q₁.setNewer q₁.newest (some k)).length + 1 = _
    rw [hs.length, hlen, h.length, List.length_cons]
  case free_nodup =>
    change (q₁.setNewer q₁.newest (some k)).free.Nodup
    rwa [hs.free]
  case mem_free =>
    intro j
    change j ∈ (q₁.setNewer q₁.newest (some k)).free ↔
      j < (q₁.setNewer q₁.newest (some k)).slots.size ∧
        (q₁.setNewer q₁.newest (some k)).objectAt j = none
    rw [hs.free, hs.size, hs.objectAt]
    exact hmem j

/-- Removing the object in a slot takes it out of the sequence and clears its
recorded slot. -/
theorem remove (h : q.Spells (l₁ ++ (k, o) :: l₂)) (s : Objects) :
    ∃ q', q.remove s k = (some o, q', s.setSlot o none) ∧ q'.Spells (l₁ ++ l₂) := by
  obtain ⟨q₁, hdetach, hs, hj⟩ := h.detach
  obtain ⟨n, hn, hno⟩ := Option.map_eq_some_iff.mp ((h.objectAt k o).mpr (by simp))
  have hnd := nodup_others h.nodup
  let q' : Recency := { q₁ with
    slots := q₁.slots.setIfInBounds k none
    free := k :: q₁.free
    length := q₁.length - 1 }
  have hlt : k < q₁.slots.size := hs.size ▸ lt_size_of_objectAt ((h.objectAt k o).mpr (by simp))
  have hnode : ∀ j, q'.node? j = if j = k then none else q₁.node? j := by
    intro j
    simp only [q', node?, Array.getElem?_setIfInBounds]
    by_cases e : j = k
    · simp [e, hlt]
    · simp [e, Ne.symm e]
  have hobj : ∀ j, q'.objectAt j = if j = k then none else q.objectAt j := by
    intro j
    rw [← hs.objectAt, Recency.objectAt, hnode]
    split <;> rfl
  have hremove : q.remove s k = (some o, q', s.setSlot o none) := by
    unfold Recency.remove
    simp only [hn, hdetach, hno, q']
  use q', hremove
  constructor
  case joined =>
    refine isChain_ring_congr hj rfl rfl fun j hj => ?_
    have hjk : j ≠ k := fun e => hnd.1 (e ▸ hj)
    rw [hnode, if_neg hjk]
  case nodup => exact hnd.2
  case objectAt =>
    intro j p
    rw [hobj]
    by_cases e : j = k
    · subst e
      have : (j, p) ∉ l₁ ++ l₂ := fun hm => hnd.1 (List.mem_map.mpr ⟨(j, p), hm, rfl⟩)
      simpa using this
    · simp [e, h.objectAt]
  case length =>
    change q₁.length - 1 = _
    rw [hs.length, h.length]
    simp only [List.length_append, List.length_cons]
    omega
  case free_nodup =>
    have hkf : k ∉ q₁.free := by
      rw [hs.free, h.mem_free]
      rintro ⟨-, hk⟩
      rw [(h.objectAt k o).mpr (by simp)] at hk
      cases hk
    exact List.nodup_cons.mpr ⟨hkf, hs.free ▸ h.free_nodup⟩
  case mem_free =>
    intro j
    change j ∈ k :: q₁.free ↔ j < (q₁.slots.setIfInBounds k none).size ∧ q'.objectAt j = none
    rw [hobj, List.mem_cons, hs.free, h.mem_free, Array.size_setIfInBounds, hs.size]
    by_cases e : j = k
    · subst e
      simp [hs.size ▸ hlt]
    · simp [e]

theorem remove_of_empty (hk : q.objectAt k = none) (s : Objects) :
    q.remove s k = (none, q, s) := by
  rw [objectAt_eq_none_iff] at hk
  unfold Recency.remove
  simp only [hk]

theorem moveToFront_of_empty (h : q.Spells l) (hk : q.objectAt k = none) :
    q.moveToFront k = none := by
  -- The newest slot is taken, so the empty one is not in front.
  have hfront : q.newest ≠ some k := by
    intro hnewest
    rw [h.newest_eq] at hnewest
    obtain ⟨o, ho⟩ := h.mem_slots_iff.mp (List.mem_of_mem_head? hnewest)
    rw [hk] at ho
    cases ho
  rw [objectAt_eq_none_iff] at hk
  simp [Recency.moveToFront, hfront, Recency.detach, hk]

/-- Moving the object in a slot to the front keeps the order of the others. -/
theorem moveToFront (h : q.Spells (l₁ ++ (k, o) :: l₂)) :
    ∃ q', q.moveToFront k = some q' ∧ q'.Spells ((k, o) :: (l₁ ++ l₂)) := by
  unfold Recency.moveToFront
  have hnd := nodup_others h.nodup
  split
  next hk =>
    -- The newest slot occurs once, so the object is already in front.
    cases l₁ with
    | nil => exact ⟨q, rfl, h⟩
    | cons e l₁ =>
      have he : e.1 = k := by
        have := h.newest_eq
        rw [hk] at this
        simpa using this.symm
      exact absurd (by simp [he]) hnd.1
  next hk =>
    obtain ⟨q₁, hdetach, hs, hj⟩ := h.detach
    have hobj : q₁.objectAt k = some o := by rw [hs.objectAt, (h.objectAt k o).mpr (by simp)]
    obtain ⟨n, hn, hno⟩ := Option.map_eq_some_iff.mp hobj
    let q₂ := q₁.modifyNode k fun n => { n with newer := none, older := q₁.newest }
    have hs₂ : SameSlots q₁ q₂ := SameSlots.modifyNode q₁ k fun _ => rfl
    have hself : q₂.node? k = some { n with newer := none, older := q₁.newest } := by
      rw [node?_modifyNode, if_pos rfl, hn, Option.map_some]
    have hj₂ : (ring ((l₁ ++ l₂).map Prod.fst)).IsChain q₂.Joined := by
      refine isChain_ring_congr hj rfl rfl fun j hj => ?_
      have hkj : k ≠ j := fun e => hnd.1 (e ▸ hj)
      rw [node?_modifyNode, if_neg hkj]
    have hs₃ : SameSlots q (q₂.setNewer q₂.newest (some k)) :=
      (hs.trans hs₂).trans (SameSlots.setNewer q₂ q₂.newest (some k))
    use { q₂.setNewer q₂.newest (some k) with newest := some k }
    constructor
    case left =>
      rw [hdetach, Option.map_some]
      rfl
    constructor
    case joined => exact isChain_attach hj₂ hnd.2 hnd.1 hself rfl rfl
    case nodup => exact List.nodup_cons.mpr hnd
    case objectAt =>
      intro j p
      change (q₂.setNewer q₂.newest (some k)).objectAt j = some p ↔ _
      rw [hs₃.objectAt, h.objectAt]
      simp only [List.mem_append, List.mem_cons]
      tauto
    case length =>
      change (q₂.setNewer q₂.newest (some k)).length = _
      rw [hs₃.length, h.length]
      simp only [List.length_append, List.length_cons]
      omega
    case free_nodup => exact hs₃.free ▸ h.free_nodup
    case mem_free =>
      intro j
      change j ∈ (q₂.setNewer q₂.newest (some k)).free ↔
        j < (q₂.setNewer q₂.newest (some k)).slots.size ∧
          (q₂.setNewer q₂.newest (some k)).objectAt j = none
      rw [hs₃.free, hs₃.size, hs₃.objectAt]
      exact h.mem_free j

end Spells
end SegmentedCache.Recency
