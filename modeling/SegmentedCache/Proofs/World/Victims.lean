import SegmentedCache.Proofs.Lru.Ledger
import SegmentedCache.Proofs.Segmented.Placement
import SegmentedCache.Proofs.World.Coherence

/-!
# The next victim

A cache names the object at the back of its coldest leaf as its next victim. An
eviction takes the last object there that is resident, and drops the orphans behind
it. So the two agree as long as the object at the back is no orphan, and where it is
one, the cache names an object that no eviction ever returns.

An eviction faults only if it has a victim to count and a counter that it counts in
is at the end of its range.
-/
namespace SegmentedCache

namespace Policy

/-- A policy whose evictions are known beforehand. -/
class Foreseen (C : Type) [Policy C] [Lawful C] where
  /-- The leaf that evictions take from. -/
  outlet : C → Lru
  /-- An eviction could not be counted. -/
  Spent : C → Prop
  leaves_eq : ∀ c : C, ∃ rest, leaves c = outlet c :: rest
  victim?_eq : ∀ c : C, victim? c = (outlet c).queue.back?
  runs_evict : ∀ {st : Store} {c : C}, Sound st c →
    (evict : Action C _).Runs c st (Spent c ∧ ∃ o ∈ (outlet c).objects, st.resident o = true)
      fun victim _ _ => victim = ((outlet c).objects.filter st.resident).getLast?

export Foreseen (outlet Spent)

end Policy

namespace Lru
open SegmentedCache.Action Policy
variable {st st' : Store} {c c' : Lru} {o : CacheObject} {gone : List CacheObject}

/-- Where only orphans are shed, the resident objects are as before. -/
theorem Sheds.filter_resident (h : Sheds gone st c st' c') (hc : c.Linked st)
    (hgone : ∀ o ∈ gone, st.resident o = false) :
    c'.objects.filter st'.resident = c.objects.filter st.resident := by
  rw [h.objects, List.filter_filter]
  refine List.filter_congr fun o ho => ?_
  rw [h.resident o (hc.issued ho), Bool.and_assoc, Bool.and_self]
  cases hr : st.resident o with
  | false => rfl
  | true => exact decide_eq_true fun hg => by rw [hgone o hg] at hr; cases hr

theorem runs_evictWithin_foreseen (fuel : ℕ) (h : c.Coherent st) (hf : c.objects.length ≤ fuel) :
    (evictWithin fuel).Runs c st
      (c.counters.core.evictions = Word.largest ∧ ∃ o ∈ c.objects, st.resident o = true)
      fun victim _ _ => victim = (c.objects.filter st.resident).getLast? := by
  induction fuel generalizing c st with
  | zero =>
    rw [List.length_eq_zero_iff.mp (Nat.le_zero.mp hf)]
    exact runs_pure.mpr rfl
  | succ fuel ih =>
    unfold evictWithin
    rw [runs_get_bind, h.back?_eq]
    rcases List.eq_nil_or_concat' c.objects with hnil | ⟨kept, o, hobj⟩
    · rw [hnil]
      exact runs_pure.mpr rfl
    · have ho : o ∈ c.objects := by simp [hobj]
      obtain ⟨c₁, st₁, hy, hs, hcounters⟩ := unlink_of_mem h ho
      rw [hobj, List.getLast?_concat]
      dsimp only
      rw [runs_getThe_bind, runs_bind_of_yields hy, if_pos rfl]
      cases hr : st.resident o with
      | true =>
        rw [if_pos rfl, runs_bind_iff]
        refine runs_record (fun e he => ?_) fun counters _ => ?_
        · rw [hcounters] at he
          exact ⟨Counters.largest_of_recordEviction (Word.error_of_bind_pure he), o, by simp, hr⟩
        · rw [runs_emit_bind, runs_pure]
          simp [hr]
      | false =>
        have hlt := hs.length_lt (List.mem_singleton_self o)
        have hsame := hs.filter_resident h.toLinked (by simp [hr])
        rw [if_neg Bool.false_ne_true, ← hobj, ← hsame, ← hcounters]
        refine (ih hs.coherent (by omega)).mono (fun hE => ?_) fun _ _ _ _ hv => hv
        obtain ⟨hspent, p, hp⟩ := hE
        rw [← List.mem_filter, hsame, List.mem_filter] at hp
        exact ⟨hspent, p, hp⟩

instance : Foreseen Lru where
  outlet c := c
  Spent c := c.counters.core.evictions = Word.largest
  leaves_eq c := ⟨[], rfl⟩
  victim?_eq _ := rfl
  runs_evict {st c} h := by
    have hcoh := sound_iff.mp h
    exact runs_evictWithin_foreseen c.queue.length hcoh hcoh.length_objects.le

end Lru

namespace Segmented
open SegmentedCache.Action Policy
variable {C : Type} {top : Nat} [Policy C] [Lawful C] [Foreseen C]

instance : Foreseen (Segmented C top) where
  outlet s := outlet s.coldest
  Spent s := s.counters.core.evictions = Word.largest ∨ Spent s.coldest
  leaves_eq s := by
    obtain ⟨rest, hrest⟩ := Foreseen.leaves_eq s.coldest
    change ∃ rest, s.segments.toList.flatMap leaves = _
    rw [toList_eq_cons, List.flatMap_cons, ← coldest_eq, hrest]
    exact ⟨_, rfl⟩
  victim?_eq s := Foreseen.victim?_eq s.coldest
  runs_evict {st s} h := by
    have hcoldest := Foreseen.runs_evict (sound_segment h 0)
    change (evict : Action (Segmented C top) _).Runs _ _ _ _
    unfold evict
    rw [runs_bind_iff]
    refine runs_onSegment (hcoldest.mono (fun hE => ⟨.inr hE.1, hE.2⟩) fun _ _ _ _ hv => hv) ?_
    intro victim c st₁ _ hv
    cases victim with
    | none => exact hv
    | some v =>
      dsimp only
      rw [runs_bind_iff]
      refine runs_record (fun e he => ?_) fun _ _ => hv
      obtain ⟨hmem, hr⟩ := List.mem_filter.mp (List.mem_of_getLast? hv.symm)
      have hspent := Counters.largest_of_recordEviction (Word.error_of_bind_pure he)
      exact ⟨.inl hspent, v, hmem, hr⟩

end Segmented

namespace Policy
open SegmentedCache.Action
variable {C D I : Type} {F : I → Type}

instance [Policy C] [Policy D] [Lawful C] [Lawful D] [Foreseen C] [Foreseen D] :
    Foreseen (C ⊕ D) where
  outlet := Sum.elim outlet outlet
  Spent := Sum.elim Spent Spent
  leaves_eq
    | .inl c => Foreseen.leaves_eq c
    | .inr d => Foreseen.leaves_eq d
  victim?_eq
    | .inl c => Foreseen.victim?_eq c
    | .inr d => Foreseen.victim?_eq d
  runs_evict {st c} h := by
    cases c with
    | inl c => exact runs_either_inl (Foreseen.runs_evict h.of_inl) fun _ _ _ hv => hv
    | inr d => exact runs_either_inr (Foreseen.runs_evict h.of_inr) fun _ _ _ hv => hv

instance [∀ i, Policy (F i)] [∀ i, Lawful (F i)] [∀ i, Foreseen (F i)] : Foreseen (Σ i, F i) where
  outlet c := outlet c.2
  Spent c := Spent c.2
  leaves_eq c := Foreseen.leaves_eq c.2
  victim?_eq c := Foreseen.victim?_eq c.2
  runs_evict h := runs_family (Foreseen.runs_evict h.of_mk) fun _ _ _ hv => hv

end Policy

instance Tier.foreseen : (d : Nat) → Policy.Foreseen (Tier d)
  | 0 => inferInstanceAs (Policy.Foreseen Lru)
  | d + 1 =>
    letI := foreseen d
    inferInstanceAs (Policy.Foreseen (Lru ⊕ (Σ top, Segmented (Tier d) top)))

namespace World
open Policy
variable {w : World} {m : Member}

theorem getLast?_filter_eq_iff {l : List CacheObject} {p : CacheObject → Bool} :
    (l.filter p).getLast? = l.getLast? ↔ ∀ o, l.getLast? = some o → p o = true := by
  rcases List.eq_nil_or_concat' l with rfl | ⟨kept, o, rfl⟩
  · simp
  · constructor
    · intro h v hv
      rw [hv] at h
      exact (List.mem_filter.mp (List.mem_of_getLast? h)).2
    · intro h
      simp [h o List.getLast?_concat]

/-- In every world, a cache of any depth names the object at the back of its first leaf,
and an eviction returns the last object there that is resident. They are the same if
and only if the object that is named, if there is one, is resident. -/
theorem Reachable.evict_foreseen (h : Reachable w) (hm : m ∈ w.members) :
    ∃ c rest, m.tier.leaves = c :: rest ∧ victim? m.tier = c.objects.getLast? ∧
      (evict : Action (Tier m.depth) _).Runs m.tier w.store
        (Spent m.tier ∧ ∃ o ∈ c.objects, w.store.resident o = true)
        fun victim _ _ => victim = (c.objects.filter w.store.resident).getLast? ∧
          (victim = victim? m.tier ↔ ∀ o, victim? m.tier = some o → w.store.resident o = true) := by
  have hsound := h.sound.member m hm
  obtain ⟨rest, hleaves⟩ := Foreseen.leaves_eq m.tier
  have hmem : outlet m.tier ∈ Policy.leaves m.tier := by simp [hleaves]
  have hvictim : victim? m.tier = (outlet m.tier).objects.getLast? := by
    rw [Foreseen.victim?_eq, (hsound.coherent hmem).back?_eq]
  refine ⟨outlet m.tier, rest, by rw [← Tier.leaves_eq, hleaves], hvictim, ?_⟩
  refine (Foreseen.runs_evict hsound).mono id fun victim _ _ _ hv => ⟨hv, ?_⟩
  rw [hv, hvictim]
  exact getLast?_filter_eq_iff

/-- Two objects are in the cold segment of two, and the one whose turn it is was
deleted behind the back of the cache. -/
def undermined : World :=
  ((empty.build (.ofLrus {} false 2 : Blueprint 1) ⟨20, 1, 0⟩).work (.insert ⟨1, 3, 0, none⟩)).work
    (.insert ⟨2, 4, 0, none⟩) |>.delete 0 1

theorem evict_foreseen_undermined :
    ∃ m ∈ undermined.members, ∃ c rest victim t st, m.tier.leaves = c :: rest ∧
      (evict : Action (Tier m.depth) _).Yields m.tier undermined.store victim t st ∧
      victim.isSome ∧ victim = (c.objects.filter undermined.store.resident).getLast? ∧
      ¬ ∀ o, victim? m.tier = some o → undermined.store.resident o = true := by
  have hr : Reachable undermined := (((Reachable.start.build _ _).work _).work _).delete 0 1
  have hrun : ∃ m ∈ undermined.members,
      (match (evict : Action (Tier m.depth) _) m.tier undermined.store with
        | .ok (victim, _) _ => victim.isSome && decide (victim ≠ victim? m.tier)
        | .error _ _ => false) = true := by
    decide +kernel
  obtain ⟨m, hm, hcheck⟩ := hrun
  split at hcheck
  next victim t st hy =>
    rw [Bool.and_eq_true, decide_eq_true_eq] at hcheck
    obtain ⟨c, rest, hleaves, -, hruns⟩ := hr.evict_foreseen hm
    obtain ⟨hv, hiff⟩ := hruns.apply hy
    exact ⟨m, hm, c, rest, victim, t, st, hleaves, hy, hcheck.1, hv, fun hall =>
      hcheck.2 (hiff.mpr hall)⟩
  next => cases hcheck

/-- The cache names the object that was deleted, and evicts the other one. -/
theorem victim_passed_over :
    ¬ ∀ w, Reachable w → ∀ m ∈ w.members, ∀ victim t st,
      (evict : Action (Tier m.depth) _).Yields m.tier w.store victim t st → victim = victim? m.tier := by
  intro hall
  have hr : Reachable orphaned := (((Reachable.start.build _ _).work _).work _).delete 0 1
  have hrun : ∃ m ∈ orphaned.members,
      (match (evict : Action (Tier m.depth) _) m.tier orphaned.store with
        | .ok (victim, _) _ => decide (victim ≠ victim? m.tier)
        | .error _ _ => false) = true := by
    decide +kernel
  obtain ⟨m, hm, hcheck⟩ := hrun
  split at hcheck
  next victim t st hy => exact of_decide_eq_true hcheck (hall _ hr m hm victim t st hy)
  next => cases hcheck

end World
end SegmentedCache
