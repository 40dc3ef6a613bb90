import SegmentedCache.Operation
import SegmentedCache.Proofs.Outcome

/-!
# Lookups that change nothing

A lookup without update is a peek. It answers from the state as it stands, leaves the
cache and the store alone and never faults. A lookup with update and a request ask the
same places in the same order and act only on what they have found, so they answer what
a peek would have answered. Where it would have found nothing, a lookup with update
changes nothing either.
-/
namespace SegmentedCache

namespace Policy

/-- A policy whose lookups answer what a peek answers. -/
class Peeking (C : Type) [Policy C] where
  /-- The answer to a request as things stand. -/
  peek : Store → C → Request → Lookup
  peek_eq_miss_iff : ∀ (st : Store) (c : C) (r : Request),
    peek st c r = .miss ↔ contains st c r.id = false
  yields_peek : ∀ (st : Store) (c : C) (r : Request),
    (check r false).Yields c st (peek st c r) c st
  yields_miss : ∀ {st : Store} {c : C} {r : Request}, peek st c r = .miss →
    (check r true).Yields c st .miss c st
  eq_peek_of_check : ∀ {st st' : Store} {c c' : C} {r : Request} {found : Lookup},
    (check r true).Yields c st found c' st' → found = peek st c r
  eq_peek_of_serve : ∀ {st st' : Store} {c c' : C} {r : Request} {found : Lookup},
    (serve r).Yields c st found c' st' → found = peek st c r

export Peeking (peek)

/-! ## Runs without their peeks -/

/-- What a cache lives through: an operation on it, or any work that others do on the
store, such as a command to one of its indexes. -/
inductive Turn (α : Type)
  | own (op : Operation)
  | others (work : CacheM α)

section
open SegmentedCache.Action
variable {C α : Type} [Policy C]

def Turn.isPeek : Turn α → Bool
  | .own (.check _ false) => true
  | _ => false

def Turn.run : Turn α → Action C (Response ⊕ α)
  | .own op => .inl <$> perform op
  | .others work => .inr <$> (liftM work : Action C α)

/-- Takes the turns one after another and returns the result of each. -/
def runAll : List (Turn α) → Action C (List (Turn α × (Response ⊕ α)))
  | [] => pure []
  | turn :: rest => do
    let result ← turn.run
    List.cons (turn, result) <$> runAll rest

theorem runAll_cons (turn : Turn α) (rest : List (Turn α)) (c : C) (st : Store) :
    runAll (turn :: rest) c st =
      match turn.run c st with
      | .ok (result, c) st => (List.cons (turn, result) <$> runAll rest) c st
      | .error e st => .error e st := by
  change (turn.run >>= fun result => List.cons (turn, result) <$> runAll rest) c st = _
  rw [bind_apply]
  cases (turn.run : Action C _) c st <;> rfl

variable [Peeking C] {turn : Turn α}

theorem Turn.yields_of_isPeek (h : turn.isPeek = true) (c : C) (st : Store) :
    ∃ result, turn.run.Yields c st result c st := by
  match turn, h with
  | .own (.check r false), _ =>
    have hpeek : (perform (.check r false)).Yields c st (.found (peek st c r)) c st :=
      yields_map_iff.mpr ⟨_, Peeking.yields_peek st c r, rfl⟩
    exact ⟨_, yields_map_iff.mpr ⟨_, hpeek, rfl⟩⟩

/-- Without its peeks, a run has the same other results, the same end and the same fault. -/
theorem runAll_filter (turns : List (Turn α)) :
    (runAll (turns.filter fun turn => !turn.isPeek) : Action C _) =
      (List.filter fun x => !x.1.isPeek) <$> runAll turns := by
  funext c st
  induction turns generalizing c st with
  | nil => rfl
  | cons turn rest ih =>
    cases hpeek : turn.isPeek with
    | true =>
      obtain ⟨result, hy⟩ := turn.yields_of_isPeek hpeek c st
      rw [List.filter_cons_of_neg (by simp [hpeek]), ih, map_apply, map_apply, runAll_cons,
        show turn.run c st = _ from hy]
      dsimp only
      rw [map_apply]
      cases runAll rest c st with
      | ok x st' => simp [hpeek]
      | error e st' => rfl
    | false =>
      rw [List.filter_cons_of_pos (by simp [hpeek]), map_apply, runAll_cons, runAll_cons]
      cases (turn.run : Action C _) c st with
      | error e st₁ => rfl
      | ok x st₁ =>
        dsimp only
        rw [map_apply, map_apply, ih, map_apply]
        cases runAll rest x.2 st₁ with
        | ok y st' => simp [hpeek]
        | error e st' => rfl

end
end Policy

namespace Lru
open SegmentedCache.Action Policy
variable {c c' : Lru} {st st' : Store} {r : Request} {update : Bool} {found : Lookup}

/-- An object that is found is a hit unless it has expired. -/
def sight (st : Store) (c : Lru) (r : Request) : Lookup :=
  match c.find? st r.id with
  | none => .miss
  | some o => if o.expiredAt r.time then .expired else .hit

theorem sight_eq_miss_iff : c.sight st r = .miss ↔ c.find? st r.id = none := by
  unfold sight
  cases c.find? st r.id with
  | none => simp
  | some o =>
    dsimp only
    split <;> simp

theorem yields_sight (st : Store) (c : Lru) (r : Request) :
    (check r false).Yields c st (c.sight st r) c st := by
  unfold check sight
  rw [yields_get_bind_iff, yields_getThe_bind_iff]
  cases c.find? st r.id with
  | none => exact yields_pure_iff.mpr ⟨rfl, rfl, rfl⟩
  | some o =>
    dsimp only
    split <;> exact yields_pure_iff.mpr ⟨rfl, rfl, rfl⟩

theorem eq_sight_of_check (hy : (check r update).Yields c st found c' st') :
    found = c.sight st r := by
  unfold check at hy
  unfold sight
  rw [yields_get_bind_iff, yields_getThe_bind_iff] at hy
  cases hfind : c.find? st r.id with
  | none =>
    rw [hfind] at hy
    exact (yields_pure_iff.mp hy).1
  | some o =>
    rw [hfind] at hy
    dsimp only at hy ⊢
    split at hy
    next hexpired =>
      rw [if_pos hexpired]
      cases update with
      | false => exact (yields_pure_iff.mp hy).1
      | true =>
        rw [if_pos rfl] at hy
        obtain ⟨_, c₁, st₁, -, h₁⟩ := yields_bind_iff.mp hy
        obtain ⟨_, c₂, st₂, -, h₂⟩ := yields_bind_iff.mp h₁
        exact (yields_pure_iff.mp h₂).1
    next halive =>
      rw [if_neg halive]
      cases update with
      | false => exact (yields_pure_iff.mp hy).1
      | true =>
        rw [if_pos rfl] at hy
        split at hy
        · obtain ⟨_, c₁, st₁, -, h₁⟩ := yields_bind_iff.mp hy
          exact (yields_pure_iff.mp h₁).1
        · exact (yields_pure_iff.mp hy).1

/-- The end of a request: unless it was a hit, the object is inserted if its charge is
within the capacity. -/
def admission (r : Request) (answer : Lookup) : Action Lru Lookup := do
  if answer ≠ .hit then
    let c ← get
    if c.charge r.size ≤ c.params.capacity then discard <| insert r
    else CacheM.emit (.notAdmitted r.id r.size)
  pure answer

/-- A request is a lookup, a count and an admission. -/
theorem serve_eq (r : Request) :
    serve r = (do
      let found ← check r true
      recordCore (·.recordLookup r.size found)
      admission r found) := rfl

/-- An admission leaves the answer of the lookup as it was. -/
theorem answer_admission {answer : Lookup} (hy : (admission r answer).Yields c st found c' st') :
    found = answer := by
  unfold admission at hy
  split at hy
  · rw [yields_get_bind_iff] at hy
    split at hy
    · obtain ⟨_, c₁, st₁, -, h₁⟩ := yields_bind_iff.mp hy
      exact (yields_pure_iff.mp h₁).1
    · obtain ⟨_, c₁, st₁, -, h₁⟩ := yields_bind_iff.mp hy
      exact (yields_pure_iff.mp h₁).1
  · exact (yields_pure_iff.mp hy).1

/-- A request is counted by what its lookup has found, and answered so. -/
theorem found_of_serve (hy : (serve r).Yields c st found c' st') :
    ∃ c₁ st₁ c₂, (check r true).Yields c st found c₁ st₁ ∧
      (recordCore (·.recordLookup r.size found)).Yields c₁ st₁ () c₂ st₁ ∧
      (admission r found).Yields c₂ st₁ found c' st' := by
  rw [serve_eq] at hy
  obtain ⟨answer, c₁, st₁, hcheck, h₁⟩ := yields_bind_iff.mp hy
  obtain ⟨_, c₂, st₂, hrecord, hend⟩ := yields_bind_iff.mp h₁
  obtain rfl := answer_admission hend
  obtain ⟨_, -, -, rfl⟩ := yields_record_iff.mp hrecord
  exact ⟨c₁, _, c₂, hcheck, hrecord, hend⟩

instance : Peeking Lru where
  peek := fun st c r => c.sight st r
  peek_eq_miss_iff st c r := by
    rw [sight_eq_miss_iff, ← Option.isSome_eq_false_iff.trans Option.isNone_iff_eq_none]
    rfl
  yields_peek := yields_sight
  yields_miss {st c r} h := by
    have hnone := sight_eq_miss_iff.mp h
    change (check r true).Yields c st .miss c st
    unfold check
    rw [yields_get_bind_iff, yields_getThe_bind_iff, hnone]
    exact yields_pure_iff.mpr ⟨rfl, rfl, rfl⟩
  eq_peek_of_check hy := eq_sight_of_check hy
  eq_peek_of_serve hy := by
    obtain ⟨c₁, st₁, c₂, hcheck, -⟩ := found_of_serve hy
    exact eq_sight_of_check hcheck

end Lru
end SegmentedCache
