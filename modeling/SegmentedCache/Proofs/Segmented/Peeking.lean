import SegmentedCache.Proofs.Policy.Peeking
import SegmentedCache.Proofs.Segmented.Lawful
import SegmentedCache.Proofs.Segmented.Load

/-!
# Lookups in a segmented cache

The segments are asked from the coldest on, and the first that knows the id decides.
Those asked before it find nothing, and so they change nothing. What a lookup does at
the level that is found, a promotion or a removal, comes after its answer is settled.
-/
namespace SegmentedCache.Segmented
open SegmentedCache.Action Policy
variable {C : Type} {top : Nat} [Policy C] [Peeking C]
variable {s s' : Segmented C top} {st st' : Store} {r : Request} {update : Bool}
variable {i : Level top} {l : List (Level top)}

/-- The first of the given levels that knows the id, and what it answers. -/
def seen (st : Store) (s : Segmented C top) (r : Request) (l : List (Level top)) :
    Option (Level top × Lookup) :=
  (l.find? fun i => contains st (s.segment i) r.id).map fun i => (i, peek st (s.segment i) r)

theorem seen_cons_of_miss (h : peek st (s.segment i) r = .miss) :
    seen st s r (i :: l) = seen st s r l := by
  unfold seen
  rw [List.find?_cons_of_neg]
  rw [(Peeking.peek_eq_miss_iff st (s.segment i) r).mp h]
  exact Bool.false_ne_true

theorem seen_cons_of_ne_miss (h : peek st (s.segment i) r ≠ .miss) :
    seen st s r (i :: l) = some (i, peek st (s.segment i) r) := by
  have hc : contains st (s.segment i) r.id = true :=
    Bool.eq_true_of_not_eq_false fun hf => h ((Peeking.peek_eq_miss_iff st _ r).mpr hf)
  unfold seen
  rw [List.find?_cons_of_pos (p := fun i => contains st (s.segment i) r.id) hc]
  rfl

omit [Peeking C] in
/-- A level is asked by looking the request up in its segment. -/
theorem yields_askAt {found : Lookup}
    (h : (Policy.check r update).Yields (s.segment i) st found (s.segment i) st) :
    (onSegment i (Policy.check r update)).Yields s st found s st :=
  yields_onSegment_iff.mpr ⟨_, h, (s.setSegment_segment i).symm⟩

theorem yields_seen (st : Store) (s : Segmented C top) (r : Request) (l : List (Level top)) :
    (probe r false l).Yields s st (seen st s r l) s st := by
  induction l with
  | nil => exact yields_pure_iff.mpr ⟨rfl, rfl, rfl⟩
  | cons i rest ih =>
    refine yields_bind_iff.mpr ⟨_, s, st, yields_askAt (Peeking.yields_peek st _ r), ?_⟩
    cases hpeek : peek st (s.segment i) r with
    | miss =>
      rw [seen_cons_of_miss hpeek]
      exact ih
    | hit =>
      rw [seen_cons_of_ne_miss (by simp [hpeek]), hpeek]
      exact yields_pure_iff.mpr ⟨rfl, rfl, rfl⟩
    | expired =>
      rw [seen_cons_of_ne_miss (by simp [hpeek]), hpeek]
      exact yields_pure_iff.mpr ⟨rfl, rfl, rfl⟩

/-- A lookup with update passes a level that finds nothing. -/
theorem probe_cons_of_miss (h : peek st (s.segment i) r = .miss) :
    probe r true (i :: l) s st = probe r true l s st := by
  change (onSegment i (Policy.check r true) >>= _) s st = _
  rw [bind_apply, show onSegment i (Policy.check r true) s st = _ from
    yields_askAt (Peeking.yields_miss h)]

theorem eq_seen_of_probe {found : Option (Level top × Lookup)}
    (hy : (probe r true l).Yields s st found s' st') : found = seen st s r l := by
  induction l with
  | nil => exact (yields_pure_iff.mp hy).1
  | cons i rest ih =>
    by_cases hmiss : peek st (s.segment i) r = .miss
    · rw [seen_cons_of_miss hmiss]
      exact ih ((probe_cons_of_miss hmiss).symm.trans hy)
    · rw [seen_cons_of_ne_miss hmiss]
      obtain ⟨answer, s₁, st₁, hcheck, h₁⟩ := yields_bind_iff.mp hy
      obtain ⟨c, hc, -⟩ := yields_onSegment_iff.mp hcheck
      obtain rfl := Peeking.eq_peek_of_check hc
      cases hpeek : peek st (s.segment i) r with
      | miss => exact absurd hpeek hmiss
      | hit =>
        rw [hpeek, if_pos rfl] at h₁
        obtain ⟨_, s₂, st₂, -, h₂⟩ := yields_bind_iff.mp h₁
        exact (yields_pure_iff.mp h₂).1
      | expired =>
        rw [hpeek] at h₁
        exact (yields_pure_iff.mp h₁).1

/-- Levels that all find nothing are passed without a trace. -/
theorem yields_probe_of_unseen (h : seen st s r l = none) :
    (probe r true l).Yields s st none s st := by
  induction l with
  | nil => exact yields_pure_iff.mpr ⟨rfl, rfl, rfl⟩
  | cons i rest ih =>
    by_cases hmiss : peek st (s.segment i) r = .miss
    · rw [seen_cons_of_miss hmiss] at h
      exact (probe_cons_of_miss hmiss).trans (ih h)
    · rw [seen_cons_of_ne_miss hmiss] at h
      cases h

/-- The answer of the whole, which is that of the segment that knows the id. -/
def sight (st : Store) (s : Segmented C top) (r : Request) : Lookup :=
  outcome (seen st s r (levels top))

theorem seen_eq_none_iff : seen st s r (levels top) = none ↔ contains st s r.id = false := by
  change _ ↔ (s.segmentOf? st r.id).isSome = false
  unfold seen segmentOf?
  rw [Option.map_eq_none_iff, Option.isSome_eq_false_iff, Option.isNone_iff_eq_none]

theorem sight_eq_miss_iff : sight st s r = .miss ↔ contains st s r.id = false := by
  rw [← seen_eq_none_iff]
  unfold sight
  cases hseen : seen st s r (levels top) with
  | none => exact ⟨fun _ => rfl, fun _ => rfl⟩
  | some p =>
    -- The level found knows the id, so it does not answer with a miss.
    obtain ⟨i, hi, rfl⟩ := Option.map_eq_some_iff.mp hseen
    have hc := List.find?_some hi
    refine ⟨fun h => ?_, fun h => by cases h⟩
    exact absurd ((Peeking.peek_eq_miss_iff st (s.segment i) r).mp h) (by simp [hc])

theorem yields_sight (st : Store) (s : Segmented C top) (r : Request) :
    (check r false).Yields s st (sight st s r) s st := by
  rw [check_eq, yields_map_iff]
  exact ⟨_, yields_seen st s r (levels top), rfl⟩

theorem eq_sight_of_check {found : Lookup} (hy : (check r true).Yields s st found s' st') :
    found = sight st s r := by
  rw [check_eq, yields_map_iff] at hy
  obtain ⟨seen, hprobe, rfl⟩ := hy
  rw [eq_seen_of_probe hprobe]
  rfl

/-- A request is counted by what its lookup has seen, and answered so. -/
theorem seen_of_serve {found : Lookup} (hy : (serve r).Yields s st found s' st') :
    found = sight st s r ∧ ∃ s₁ st₁ s₂,
      (probe r true (levels top)).Yields s st (seen st s r (levels top)) s₁ st₁ ∧
      (record (tally (seen st s r (levels top)) r.size)).Yields s₁ st₁ () s₂ st₁ ∧
      (admission r found).Yields s₂ st₁ found s' st' := by
  rw [serve_eq] at hy
  obtain ⟨seen', s₁, st₁, hprobe, h₁⟩ := yields_bind_iff.mp hy
  obtain ⟨_, s₂, st₂, hrecord, h₂⟩ := yields_bind_iff.mp h₁
  obtain rfl := eq_seen_of_probe hprobe
  obtain rfl := answer_admission h₂
  obtain ⟨_, -, -, rfl⟩ := yields_record_iff.mp hrecord
  exact ⟨rfl, s₁, _, s₂, hprobe, hrecord, h₂⟩

instance : Peeking (Segmented C top) where
  peek := sight
  peek_eq_miss_iff _ _ _ := sight_eq_miss_iff
  yields_peek := yields_sight
  yields_miss {st s r} h := by
    have hnone := seen_eq_none_iff.mpr (sight_eq_miss_iff.mp h)
    change (check r true).Yields s st .miss s st
    rw [check_eq, yields_map_iff]
    exact ⟨none, yields_probe_of_unseen hnone, rfl⟩
  eq_peek_of_check := eq_sight_of_check
  eq_peek_of_serve hy := (seen_of_serve hy).1

end SegmentedCache.Segmented
