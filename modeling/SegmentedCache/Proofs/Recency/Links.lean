import Mathlib.Data.List.Chain
import SegmentedCache.Recency

/-!
# The links of a recency list

The list and its nodes form a ring: the list itself, named `none`, stands
between the oldest and the newest node. Every place has a link to the next older
place and one to the next newer place, and two neighbours are joined if the links
between them agree. Taking a node out and putting one in are then the same edit
everywhere in the ring, the ends of the list included.

The edits are described here on single links and on the objects in the slots;
what they do to a whole list is in `SegmentedCache.Proofs.Recency.Sequence`.
-/
namespace SegmentedCache.Recency

/-- The object of the node in a slot. -/
def objectAt (q : Recency) (k : Nat) : Option CacheObject := (q.node? k).map Node.object

/-- The place that comes after a place, toward the back. -/
def olderOf (q : Recency) : Option Nat → Option (Option Nat)
  | none => some q.newest
  | some k => (q.node? k).map Node.older

/-- The place that comes before a place, toward the front. -/
def newerOf (q : Recency) : Option Nat → Option (Option Nat)
  | none => some q.oldest
  | some k => (q.node? k).map Node.newer

def Joined (q : Recency) (x y : Option Nat) : Prop := q.olderOf x = some y ∧ q.newerOf y = some x

/-- The places of a list of slots, from the list itself all the way round. -/
def ring (ks : List Nat) : List (Option Nat) := none :: (ks.map some ++ [none])

section
variable {q : Recency} {k : Nat}

theorem node?_modifyNode (q : Recency) (j k : Nat) (f : Node → Node) :
    (q.modifyNode k f).node? j = if k = j then (q.node? j).map f else q.node? j := by
  unfold node? modifyNode
  rw [Array.getElem?_modify]
  split
  · cases q.slots[j]? <;> rfl
  · rfl

theorem node?_eq_none_of_size_le (h : q.slots.size ≤ k) : q.node? k = none := by
  unfold node?
  rw [Array.getElem?_eq_none h]
  rfl

theorem lt_size_of_objectAt {o : CacheObject} (h : q.objectAt k = some o) : k < q.slots.size := by
  by_contra hk
  rw [objectAt, node?_eq_none_of_size_le (Nat.le_of_not_lt hk)] at h
  cases h

theorem objectAt_eq_none_iff : q.objectAt k = none ↔ q.node? k = none := Option.map_eq_none_iff

theorem holds_iff {o : CacheObject} : q.holds k o = true ↔ q.objectAt k = some o := by
  unfold holds objectAt
  cases q.node? k with
  | none => simp
  | some n => simp

end

section
variable (q : Recency) (x y z : Option Nat)

theorem setOlder_some {k : Nat} {n : Node} (h : q.node? k = some n) :
    q.setOlder (some k) y = q.modifyNode k fun n => { n with older := y } := by
  unfold setOlder
  simp only [h]

theorem setNewer_some {k : Nat} {n : Node} (h : q.node? k = some n) :
    q.setNewer (some k) y = q.modifyNode k fun n => { n with newer := y } := by
  unfold setNewer
  simp only [h]

theorem olderOf_setOlder (h : (q.olderOf x).isSome) :
    (q.setOlder x y).olderOf z = if z = x then some y else q.olderOf z := by
  cases x with
  | none => cases z <;> rfl
  | some k =>
    obtain ⟨n, hn⟩ := Option.isSome_iff_exists.mp (Option.isSome_map .. ▸ h)
    rw [setOlder_some q y hn]
    cases z with
    | none => rfl
    | some j =>
      unfold olderOf
      simp only [node?_modifyNode, Option.some.injEq, eq_comm (a := j)]
      split
      next e => rw [← e, hn]; rfl
      next => rfl

theorem newerOf_setOlder : (q.setOlder x y).newerOf z = q.newerOf z := by
  cases x with
  | none => cases z <;> rfl
  | some k =>
    cases hn : q.node? k with
    | none =>
      unfold setOlder
      simp only [hn]
      cases z <;> rfl
    | some n =>
      rw [setOlder_some q y hn]
      cases z with
      | none => rfl
      | some j =>
        unfold newerOf
        simp only [node?_modifyNode]
        split <;> cases q.node? j <;> rfl

theorem newerOf_setNewer (h : (q.newerOf x).isSome) :
    (q.setNewer x y).newerOf z = if z = x then some y else q.newerOf z := by
  cases x with
  | none => cases z <;> rfl
  | some k =>
    obtain ⟨n, hn⟩ := Option.isSome_iff_exists.mp (Option.isSome_map .. ▸ h)
    rw [setNewer_some q y hn]
    cases z with
    | none => rfl
    | some j =>
      unfold newerOf
      simp only [node?_modifyNode, Option.some.injEq, eq_comm (a := j)]
      split
      next e => rw [← e, hn]; rfl
      next => rfl

theorem olderOf_setNewer : (q.setNewer x y).olderOf z = q.olderOf z := by
  cases x with
  | none => cases z <;> rfl
  | some k =>
    cases hn : q.node? k with
    | none =>
      unfold setNewer
      simp only [hn]
      cases z <;> rfl
    | some n =>
      rw [setNewer_some q y hn]
      cases z with
      | none => rfl
      | some j =>
        unfold olderOf
        simp only [node?_modifyNode]
        split <;> cases q.node? j <;> rfl

end

/-- Two lists that have the same objects in the same slots and the same free
slots, and may differ in their links. -/
structure SameSlots (q q' : Recency) : Prop where
  objectAt : ∀ k, q'.objectAt k = q.objectAt k
  size : q'.slots.size = q.slots.size
  free : q'.free = q.free
  length : q'.length = q.length

namespace SameSlots
variable {q q' q'' : Recency}

theorem trans (h : SameSlots q q') (k : SameSlots q' q'') : SameSlots q q'' :=
  ⟨fun j => (k.objectAt j).trans (h.objectAt j), k.size.trans h.size, k.free.trans h.free,
    k.length.trans h.length⟩

theorem modifyNode (q : Recency) (k : Nat) {f : Node → Node} (hf : ∀ n, (f n).object = n.object) :
    SameSlots q (q.modifyNode k f) where
  objectAt j := by
    unfold Recency.objectAt
    rw [node?_modifyNode]
    split
    · cases q.node? j with
      | none => rfl
      | some n => exact congrArg some (hf n)
    · rfl
  size := Array.size_modify
  free := rfl
  length := rfl

theorem setOlder (q : Recency) (x y : Option Nat) : SameSlots q (q.setOlder x y) := by
  unfold Recency.setOlder
  split
  · split
    · exact modifyNode q _ fun _ => rfl
    · exact ⟨fun _ => rfl, rfl, rfl, rfl⟩
  · exact ⟨fun _ => rfl, rfl, rfl, rfl⟩

theorem setNewer (q : Recency) (x y : Option Nat) : SameSlots q (q.setNewer x y) := by
  unfold Recency.setNewer
  split
  · split
    · exact modifyNode q _ fun _ => rfl
    · exact ⟨fun _ => rfl, rfl, rfl, rfl⟩
  · exact ⟨fun _ => rfl, rfl, rfl, rfl⟩

end SameSlots

/-- A chain stays one under links that agree on it. The last place has no older
neighbour in the chain and the first no newer one, so their outward links may
change. -/
theorem isChain_congr {R S : Option Nat → Option Nat → Prop} {l : List (Option Nat)}
    (h : l.IsChain R) (hl : ∀ a ∈ l.dropLast, ∀ b ∈ l.tail, R a b → S a b) : l.IsChain S := by
  induction h with
  | nil => exact .nil
  | singleton a => exact .singleton a
  | cons_cons hab _ ih =>
    refine .cons_cons (hl _ List.mem_cons_self _ List.mem_cons_self hab) (ih fun a ha b hb => ?_)
    exact hl a (List.mem_cons_of_mem _ ha) b (List.mem_cons_of_mem _ hb)

/-- Joining the neighbours of a place takes it out of a ring. -/
theorem isChain_unlink {q q' : Recency} {p s : List (Option Nat)} {x y z : Option Nat}
    (h : (p ++ x :: y :: z :: s).IsChain q.Joined)
    (hd : (p ++ x :: y :: z :: s).dropLast.Nodup) (ht : (p ++ x :: y :: z :: s).tail.Nodup)
    (ho : ∀ a, q'.olderOf a = if a = x then some z else q.olderOf a)
    (hn : ∀ a, q'.newerOf a = if a = z then some x else q.newerOf a) :
    (p ++ x :: z :: s).IsChain q'.Joined := by
  have hp : (p ++ [x]).IsChain q.Joined := h.prefix ⟨y :: z :: s, by simp⟩
  have hs : (z :: s).IsChain q.Joined := h.suffix ⟨p ++ [x, y], by simp⟩
  have hd' : (p ++ x :: y :: (z :: s).dropLast).Nodup := by
    rwa [List.dropLast_append_of_ne_nil (by simp), List.dropLast_cons_of_ne_nil (by simp),
      List.dropLast_cons_of_ne_nil (by simp)] at hd
  rw [List.isChain_split, List.isChain_cons_cons]
  refine ⟨isChain_congr hp fun a ha b hb hab => ?_, ⟨by rw [ho, if_pos rfl],
    by rw [hn, if_pos rfl]⟩, isChain_congr hs fun a ha b hb hab => ?_⟩
  · rw [List.dropLast_concat] at ha
    have hax : a ≠ x := (List.nodup_append.mp hd').2.2 a ha x List.mem_cons_self
    have hbz : b ≠ z := by
      rintro rfl
      cases p with
      | nil => simp at hb
      | cons c p =>
        have hb' : b ∈ p ++ [x] := hb
        rw [List.cons_append, List.tail_cons,
          show p ++ x :: y :: b :: s = (p ++ [x]) ++ y :: b :: s by simp] at ht
        exact (List.nodup_append.mp ht).2.2 b hb' b (by simp) rfl
    exact ⟨by rw [ho, if_neg hax, hab.1], by rw [hn, if_neg hbz, hab.2]⟩
  · have hax : a ≠ x := by
      rintro rfl
      have := (List.nodup_cons.mp (List.nodup_append.mp hd').2.1).1
      exact this (List.mem_cons_of_mem _ ha)
    have hbz : b ≠ z := by
      rintro rfl
      have hsub : (b :: s).Sublist (p ++ x :: y :: b :: s).tail := by
        cases p with
        | nil => exact List.sublist_cons_self ..
        | cons c p => exact (List.suffix_append (p ++ [x, y]) (b :: s)).sublist.trans (by simp)
      exact (List.nodup_cons.mp (ht.sublist hsub)).1 hb
    exact ⟨by rw [ho, if_neg hax, hab.1], by rw [hn, if_neg hbz, hab.2]⟩

/-- Joining a place that is not in a ring with the front of the ring. -/
theorem isChain_link {q q' : Recency} {s : List (Option Nat)} {y z : Option Nat}
    (h : (none :: z :: s).IsChain q.Joined) (hd : (none :: z :: s).dropLast.Nodup)
    (ht : (z :: s).Nodup) (hy : y ∉ none :: z :: s)
    (hyo : q'.olderOf y = some z) (hyn : q'.newerOf y = some none)
    (ho : ∀ a, a ≠ y → q'.olderOf a = if a = none then some y else q.olderOf a)
    (hn : ∀ a, a ≠ y → q'.newerOf a = if a = z then some y else q.newerOf a) :
    (none :: y :: z :: s).IsChain q'.Joined := by
  have hyz : z ≠ y := fun e => hy (by simp [e])
  have hy0 : none ≠ y := fun e => hy (by simp [e])
  rw [List.isChain_cons_cons, List.isChain_cons_cons]
  refine ⟨⟨by rw [ho _ hy0, if_pos rfl], hyn⟩, ⟨hyo, by rw [hn _ hyz, if_pos rfl]⟩,
    isChain_congr h.tail fun a ha b hb hab => ?_⟩
  have ha0 : a ≠ none := by
    rintro rfl
    rw [List.dropLast_cons_of_ne_nil (by simp)] at hd
    exact (List.nodup_cons.mp hd).1 ha
  have hbz : b ≠ z := by
    rintro rfl
    exact (List.nodup_cons.mp ht).1 hb
  have hay : a ≠ y := fun e => hy (List.mem_cons_of_mem _ (e ▸ List.dropLast_subset _ ha))
  have hby : b ≠ y := fun e => hy (List.mem_cons_of_mem _ (e ▸ List.mem_of_mem_tail hb))
  exact ⟨by rw [ho a hay, if_neg ha0, hab.1], by rw [hn b hby, if_neg hbz, hab.2]⟩

end SegmentedCache.Recency
