import SegmentedCache.Proofs.Index.Buckets
import SegmentedCache.Proofs.Runs
import SegmentedCache.Proofs.Segmented.Load
import SegmentedCache.Proofs.World.Coherence

/-!
# What a release takes out

An index may outlive the cache that it was made for. When the cache is released, the
objects that it queues are deleted from the index, each only if the entry of its id is
that very object. So an orphan that was entered again goes, an entry that replaced an
object of the cache stays, and none of the objects is resident any more.

A release goes from leaf to leaf, each on an index of its own: a leaf that was released
is not touched again, and one whose turn is still to come finds its index as it was.
-/
namespace SegmentedCache

namespace Lru
variable {st st₁ st' : Store} {c c' : Lru} {o : CacheObject}

/-- The objects that a cache queues are out of its index and not resident; the other
entries are as before. -/
structure Cleared (c : Lru) (st st' : Store) : Prop where
  valid : (st'.index c.index).Valid
  entry? : ∀ id, c.entry? st' id = (c.entry? st id).filter (· ∉ c.objects)
  resident : ∀ o ∈ c.objects, st'.resident o = false

theorem Drops.cleared (h : Drops c.objects.reverse st c st' c') (hc : c.Linked st) :
    c.Cleared st st' where
  valid := h.index ▸ h.linked.valid
  entry? id := by
    have he := h.entry? id
    simp only [List.mem_reverse] at he
    rw [← he]
    unfold Lru.entry?
    rw [h.index]
  resident o ho := by
    rw [h.resident o (hc.issued ho), decide_eq_false (by simpa using ho), Bool.and_false]

/-- What is done elsewhere afterwards does not matter. -/
theorem Cleared.after (h : c.Cleared st st₁) (hindex : st'.index c.index = st₁.index c.index)
    (hfalls : ∀ o ∈ c.objects, st'.resident o = true → st₁.resident o = true) :
    c.Cleared st st' where
  valid := hindex ▸ h.valid
  entry? id := by
    rw [← h.entry? id]
    unfold Lru.entry?
    rw [hindex]
  resident o ho := by
    rw [Bool.eq_false_iff]
    intro hr
    have := hfalls o ho hr
    rw [h.resident o ho] at this
    cases this

/-- What was done elsewhere before does not matter. -/
theorem Cleared.before (h : c.Cleared st₁ st') (u : Undisturbed c st st₁) : c.Cleared st st' where
  valid := h.valid
  entry? id := by rw [h.entry? id, u.entry?_eq]
  resident := h.resident

/-- The index has as many entries as are left. -/
theorem Cleared.count_eq (h : c.Cleared st st') (hv : (st.index c.index).Valid) :
    (st'.index c.index).count =
      ((st.index c.index).entries.filter (· ∉ c.objects)).length := by
  have hperm : (st'.index c.index).entries.Perm
      ((st.index c.index).entries.filter (· ∉ c.objects)) := by
    refine (List.perm_ext_iff_of_nodup h.valid.nodup_entries.of_map
      (hv.nodup_entries.of_map.filter _)).mpr fun o => ?_
    have he := h.entry? o.id
    unfold Lru.entry? at he
    rw [List.mem_filter, Index.mem_entries_iff h.valid, Index.mem_entries_iff hv, he,
      Option.filter_eq_some_iff]
  rw [h.valid.counted, hperm.length_eq]

end Lru

/-! ## Policies whose caches can be released -/

namespace Policy

/-- A release clears every leaf, and nothing stops it. -/
class Parting (C : Type) [Policy C] [Lawful C] : Prop where
  runs_release : ∀ {st : Store} {c : C}, Lru.Together st (leaves c) →
    (release : Action C _).Runs c st False fun _ _ st' => ∀ d ∈ leaves c, d.Cleared st st'

end Policy

instance Lru.parting : Policy.Parting Lru where
  runs_release {st c} h := by
    have hc := Lru.together_singleton.mp h
    refine (Lru.runs_release hc).mono id fun _ _ _ _ hd d hmem => ?_
    rw [List.mem_singleton.mp hmem]
    exact hd.cleared hc

namespace Segmented
open SegmentedCache.Action Policy
variable {C : Type} {top : Nat} [Policy C] [Lawful C] [Parting C] {st : Store} {s : Segmented C top}

/-- The segments at these levels are cleared, and the indexes of no other leaf touched. -/
theorem runs_releaseAll (h : Lru.Together st (leaves s)) {l : List (Level top)} (hl : l.Nodup) :
    (releaseAll l).Runs s st False fun _ _ st' =>
      (∀ i ∈ l, ∀ d ∈ leaves (s.segment i), d.Cleared st st') ∧
        ∀ k, (∀ i ∈ l, ∀ d ∈ leaves (s.segment i), d.index ≠ k) → st'.index k = st.index k := by
  induction l generalizing s st with
  | nil => exact ⟨by simp, fun _ _ => rfl⟩
  | cons i rest ih =>
    obtain ⟨hi, hrest⟩ := List.nodup_cons.mp hl
    have ht := h.perm (leaves_perm s i)
    unfold releaseAll
    rw [runs_bind_iff]
    refine runs_onSegment (Parting.runs_release ht.left) fun _ c st₁ hy hcleared => ?_
    obtain ⟨-, hconf⟩ := (Lawful.ensures_release ht.left).apply hy
    obtain ⟨h₁, -⟩ := (ensures_releaseAt h i).apply (yields_onSegment_iff.mpr ⟨c, hy, rfl⟩)
    have hsame : ∀ j ∈ rest, (s.setSegment i c).segment j = s.segment j := fun j hj => by
      rw [segment_setSegment, if_neg (ne_of_mem_of_not_mem hj hi)]
    have hother : ∀ j ∈ rest, ∀ d ∈ leaves (s.segment j), d ∈ others s i := fun j hj d hd =>
      mem_others (ne_of_mem_of_not_mem hj hi) hd
    refine (ih h₁ hrest).mono id fun _ s' st' hy' hlater => ?_
    obtain ⟨-, hconf'⟩ := (ensures_releaseAll h₁ rest).apply hy'
    obtain ⟨hclear', hindex'⟩ := hlater
    constructor
    case left =>
      rw [List.forall_mem_cons]
      constructor
      · intro d hd
        refine (hcleared d hd).after (hindex' d.index fun j hj e he => ?_) fun o ho hr => ?_
        · rw [hsame j hj] at he
          exact (ht.apart_of_mem (hother j hj e he) d hd).index.symm
        · exact hconf'.falls o (hconf.issued o ((ht.left.linked d hd).issued ho)) hr
      · intro j hj d hd
        have hd' := hother j hj d hd
        refine (hclear' j hj d (by rwa [hsame j hj])).before ?_
        exact hconf.undisturbed (ht.right.linked d hd') (ht.apart_of_mem hd')
    case right =>
      intro k hk
      obtain ⟨hself, hk⟩ := List.forall_mem_cons.mp hk
      rw [hindex' k fun j hj d hd => hk j hj d (by rwa [← hsame j hj]), hconf.index k hself]

instance parting : Parting (Segmented C top) where
  runs_release h := (runs_releaseAll h (List.nodup_finRange _)).mono id
    fun _ _ _ _ hall d hd => by
      obtain ⟨i, hd⟩ := mem_leaves_iff.mp hd
      exact hall.1 i (List.mem_finRange i) d hd

end Segmented

namespace Policy
open SegmentedCache.Action
variable {C D I : Type} {F : I → Type}

instance [Policy C] [Policy D] [Lawful C] [Lawful D] [Parting C] [Parting D] : Parting (C ⊕ D) where
  runs_release {_ c} h := by
    cases c with
    | inl c => exact runs_either_inl (Parting.runs_release (c := c) h) fun _ _ _ hd => hd
    | inr d => exact runs_either_inr (Parting.runs_release (c := d) h) fun _ _ _ hd => hd

instance [∀ i, Policy (F i)] [∀ i, Lawful (F i)] [∀ i, Parting (F i)] : Parting (Σ i, F i) where
  runs_release {_ c} h := runs_family (Parting.runs_release (c := c.2) h) fun _ _ _ hd => hd

end Policy

instance Tier.parting : (d : Nat) → Policy.Parting (Tier d)
  | 0 => inferInstanceAs (Policy.Parting Lru)
  | d + 1 =>
    letI := parting d
    inferInstanceAs (Policy.Parting (Lru ⊕ (Σ top, Segmented (Tier d) top)))

namespace World
open Policy
variable {w : World} {m : Member}

/-- In every world, a cache of any depth can be released. Then the index of each of its
leaves has the entries that it had before, but for the objects that the leaf queued, and
counts them; these objects are not resident. All other indexes are as before. -/
theorem Reachable.release_clears (h : Reachable w) (hm : m ∈ w.members) :
    ∃ t st, (release : Action (Tier m.depth) _).Yields m.tier w.store () t st ∧
      (∀ c ∈ m.tier.leaves,
        (∀ id o, (st.index c.index).find? id = some o ↔
          (w.store.index c.index).find? id = some o ∧ o ∉ c.objects) ∧
        (st.index c.index).count =
          ((w.store.index c.index).entries.filter (· ∉ c.objects)).length ∧
        ∀ o ∈ c.objects, st.resident o = false ∧ ∀ id, (st.index c.index).find? id ≠ some o) ∧
      ∀ k, (∀ c ∈ m.tier.leaves, c.index ≠ k) → st.index k = w.store.index k := by
  have htog := (h.sound.member m hm).together
  obtain ⟨_, t, st, hy, hcleared⟩ := (Parting.runs_release htog).yields id
  obtain ⟨-, hconf⟩ := (Lawful.ensures_release htog).apply hy
  rw [Tier.leaves_eq] at htog hcleared hconf
  refine ⟨t, st, hy, fun c hc => ?_, hconf.index⟩
  have hentry : ∀ id o, (st.index c.index).find? id = some o ↔
      (w.store.index c.index).find? id = some o ∧ o ∉ c.objects := by
    intro id o
    have he := Lru.Cleared.entry? (hcleared c hc) id
    unfold Lru.entry? at he
    rw [he, Option.filter_eq_some_iff, decide_eq_true_eq]
  refine ⟨hentry, (hcleared c hc).count_eq (htog.linked c hc).valid, fun o ho => ?_⟩
  exact ⟨(hcleared c hc).resident o ho, fun id hf => ((hentry id o).mp hf).2 ho⟩

/-- Of two objects one was deleted behind the back of their cache, and a client entered a
third. The release leaves this one alone. -/
theorem release_clears_orphaned :
    ∃ m ∈ (orphaned.enter 0 9 1).members, ∃ c ∈ m.tier.leaves, ∃ t st,
      (release : Action (Tier m.depth) _).Yields m.tier (orphaned.enter 0 9 1).store () t st ∧
      c.objects.length = 2 ∧ (st.index c.index).count = 1 ∧
      ∀ id o, (st.index c.index).find? id = some o ↔
        ((orphaned.enter 0 9 1).store.index c.index).find? id = some o ∧ o ∉ c.objects := by
  have hr : Reachable (orphaned.enter 0 9 1) :=
    ((((Reachable.start.build _ _).work _).work _).delete 0 1).enter 0 9 1
  have hm : ∃ m ∈ (orphaned.enter 0 9 1).members, ∃ c ∈ m.tier.leaves, c.objects.length = 2 ∧
      (((orphaned.enter 0 9 1).store.index c.index).entries.filter
        (· ∉ c.objects)).length = 1 := by decide +kernel
  obtain ⟨m, hm, c, hc, hlen, hleft⟩ := hm
  obtain ⟨t, st, hy, hleaves, -⟩ := hr.release_clears hm
  obtain ⟨hentry, hcount, -⟩ := hleaves c hc
  exact ⟨m, hm, c, hc, t, st, hy, hlen, hcount.trans hleft, hentry⟩

end World
end SegmentedCache
