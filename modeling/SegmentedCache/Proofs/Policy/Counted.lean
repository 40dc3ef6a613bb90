import SegmentedCache.Proofs.Lru.Working
import SegmentedCache.Proofs.Recency.Links

/-!
# How many objects an operation adds

An eviction that returns an object lowers the number of objects, and one that
returns none does not raise it. An insertion adds at most one object, and a
removal adds none. This holds in every state, coherent or not, and is what bounds
the work that a segmented cache does on its segments.
-/
namespace SegmentedCache

namespace Policy
open SegmentedCache.Action
variable {C α : Type} [Policy C] {n : Nat}

/-- A policy whose evictions and insertions change the count as they should. -/
class Counted (C : Type) [Policy C] : Prop where
  count_evict : ∀ {c c' : C} {st st' : Store} {victim : Option CacheObject},
    Action.Yields Policy.evict c st victim c' st' →
      Policy.count c' + victim.isSome.toNat ≤ Policy.count c
  count_insert : ∀ {c c' : C} {st st' : Store} {r : Request} {o : Option CacheObject},
    Action.Yields (Policy.insert r) c st o c' st' → Policy.count c' ≤ Policy.count c + 1

/-- At most `n` more objects than before. -/
def Raises (n : Nat) (c : C) (_ : Store) (c' : C) (_ : Store) : Prop := count c' ≤ count c + n

/-- Ends with at most `n` more objects than before. -/
abbrev Adds (n : Nat) : Action C α → Prop := Relates (Raises n)

/-- A counted policy whose removals add no object either. -/
class Tallied (C : Type) [Policy C] : Prop extends Counted C where
  adds_remove : ∀ id : ObjectId, Adds 0 (remove id : Action C (Option CacheObject))

theorem composes_raises : Composes (Raises 0 : C → _) where
  refl c _ := Nat.le_refl (count c)
  trans h k := Nat.le_trans k h

theorem absorbs_raises : Absorbs (Raises 0 : C → _) (Raises n) where
  of h := Nat.le_trans h (Nat.le_add_right _ n)
  before h k := Nat.le_trans k (Nat.add_le_add_right h n)
  after h k := Nat.le_trans k h

theorem adds_lift (x : CacheM α) : Adds 0 (liftM x : Action C α) :=
  relates_lift (fun c => Nat.le_refl (count c)) x

end Policy

namespace Recency
variable {q : Recency} {k : Nat} {o : CacheObject}

theorem length_remove (s : Objects) (h : q.holds k o = true) :
    (q.remove s k).2.1.length = q.length - 1 := by
  unfold holds at h
  unfold remove detach
  cases hn : q.node? k with
  | none =>
    rw [hn] at h
    cases h
  | some n =>
    change ((q.setOlder n.newer n.older).setNewer n.older n.newer).length - 1 = _
    rw [(SameSlots.setNewer _ _ _).length, (SameSlots.setOlder _ _ _).length]

theorem length_pushFront (q : Recency) (s : Objects) (o : CacheObject) :
    (q.pushFront s o).1.length = q.length + 1 := by
  have hplace : (q.place ⟨o, none, q.newest⟩).2.length = q.length := by
    unfold place
    split <;> rfl
  unfold pushFront
  dsimp only
  rw [(SameSlots.setNewer _ _ _).length, hplace]

end Recency

namespace Lru
open SegmentedCache.Action Policy
variable {c c' : Lru} {st st' : Store} {o : CacheObject}

theorem adds_record (f : LruCounters → Except Fault LruCounters) : Adds 0 (record f) := by
  intro c st a c' st' h
  unfold record at h
  rw [yields_get_bind_iff, yields_bind_iff] at h
  obtain ⟨counters, c₁, st₁, -, hs⟩ := h
  rw [(yields_set_iff.mp hs).1]
  exact Nat.le_refl c.queue.length

/-- Unlinking changes the queue and the byte total at most. -/
theorem unlink_eq {o : CacheObject} {b : Bool} (h : (unlink o).Yields c st b c' st') :
    ∃ queue occupied, c' = { c with queue, occupied } := by
  unfold unlink at h
  rw [yields_get_bind_iff, yields_getThe_bind_iff] at h
  split at h
  next =>
    obtain ⟨-, rfl, -⟩ := yields_pure_iff.mp h
    exact ⟨c'.queue, c'.occupied, rfl⟩
  next k hk =>
    dsimp only at h
    obtain ⟨_, c₁, st₁, hmodify, h₁⟩ := yields_bind_iff.mp h
    obtain ⟨_, c₂, st₂, hindex, h₂⟩ := yields_bind_iff.mp h₁
    obtain ⟨occupied, c₃, st₃, hsub, h₃⟩ := yields_bind_iff.mp h₂
    obtain ⟨_, c₄, st₄, hset, hpure⟩ := yields_bind_iff.mp h₃
    obtain ⟨-, rfl, -⟩ := yields_pure_iff.mp hpure
    exact ⟨_, occupied, (yields_set_iff.mp hset).1⟩

/-- Unlinking takes out one object or leaves the cache as it is. -/
theorem length_unlink {b : Bool} (h : (unlink o).Yields c st b c' st') :
    c'.queue.length = c.queue.length - b.toNat := by
  unfold unlink at h
  rw [yields_get_bind_iff, yields_getThe_bind_iff] at h
  cases hk : (st.objects.slot o).filter (c.queue.holds · o) with
  | none =>
    rw [hk] at h
    obtain ⟨rfl, rfl, -⟩ := yields_pure_iff.mp h
    rfl
  | some k =>
    rw [hk] at h
    dsimp only at h
    simp only [yields_bind_iff, yields_set_iff, yields_pure_iff, yields_checked_iff] at h
    obtain ⟨-, -, -, -, -, -, -, -, occupied, -, -, -, -, -, -, ⟨rfl, -⟩, rfl, rfl, -⟩ := h
    exact Recency.length_remove _ (Option.filter_eq_some_iff.mp hk).2

/-- Of all the steps, linking alone adds an object. -/
theorem clearing_raises : Clearing (Raises 0) where
  toComposes := composes_raises
  emit _ := adds_lift _
  createFor _ := adds_lift _
  enter _ _ := adds_lift _
  unlink o c st b c' st' h := by
    change c'.queue.length ≤ c.queue.length + 0
    rw [length_unlink h]
    omega
  eviction := adds_record _
  insertion _ := adds_record _
  removal := adds_record _

theorem adds_attach (r : Request) (o : CacheObject) : Adds 1 (attach r o) := by
  intro c st p c' st' h
  obtain ⟨-, occupied, -, rfl, -⟩ := yields_attach_iff.mp h
  exact (Recency.length_pushFront _ st.objects _).le

/-- An eviction within no more steps than there are objects. -/
theorem length_evictWithin {victim : Option CacheObject} (fuel : Nat)
    (hf : fuel ≤ c.queue.length) (h : (evictWithin fuel).Yields c st victim c' st') :
    c'.queue.length + victim.isSome.toNat ≤ c.queue.length := by
  induction fuel generalizing c st with
  | zero =>
    obtain ⟨rfl, rfl, -⟩ := yields_pure_iff.mp h
    exact le_rfl
  | succ fuel ih =>
    unfold evictWithin at h
    rw [yields_get_bind_iff] at h
    cases hb : c.queue.back? with
    | none =>
      rw [hb] at h
      obtain ⟨rfl, rfl, -⟩ := yields_pure_iff.mp h
      exact le_rfl
    | some o =>
      rw [hb] at h
      dsimp only at h
      rw [yields_getThe_bind_iff, yields_bind_iff] at h
      obtain ⟨b, c₁, st₁, hu, h⟩ := h
      have hlen := length_unlink hu
      cases b with
      | false =>
        obtain ⟨rfl, rfl, -⟩ := yields_pure_iff.mp h
        exact hlen.le
      | true =>
        rw [Bool.toNat_true] at hlen
        cases hr : st.resident o with
        | true =>
          rw [hr, if_pos rfl, if_pos rfl] at h
          have hle : c'.queue.length ≤ c₁.queue.length + 0 :=
            composes_raises.bind (adds_record _) (fun _ => composes_raises.bind (adds_lift _) fun _ =>
              composes_raises.pure _) h
          have hone := Bool.toNat_le victim.isSome
          omega
        | false =>
          rw [hr, if_pos rfl, if_neg Bool.false_ne_true] at h
          have hle := ih (by omega) h
          omega

theorem length_evict {victim : Option CacheObject} (h : evict.Yields c st victim c' st') :
    c'.queue.length + victim.isSome.toNat ≤ c.queue.length :=
  length_evictWithin _ le_rfl h

instance : Tallied Lru where
  count_evict h := length_evict h
  count_insert h := clearing_raises.insert absorbs_raises adds_attach _ h
  adds_remove := clearing_raises.remove

end Lru
end SegmentedCache
