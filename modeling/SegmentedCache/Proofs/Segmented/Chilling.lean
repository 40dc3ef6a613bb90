import SegmentedCache.Proofs.Segmented.Load

/-!
# Cooling by recursion

The cooling of a segment, told as a recursion on its level. To chill a level is
to evict from it and to let the victim enter one level down. Where there is no
room for it, that level is chilled, over and over, until there is room, or
nothing is left there, or nothing can be evicted.

Every round of this takes an object out of the level and puts none there, so the
count of the level bounds the rounds; `reenter_eq` is the recursion without the
bound.
-/
namespace SegmentedCache.Segmented
open SegmentedCache.Action
variable {C : Type} {top : Nat}

/-- Gives up an object for which a level cannot be cooled. -/
def abandon (dest : Level top) (r : Request) : Action (Segmented C top) Unit := do
  CacheM.emit (.demotionStuck r.id dest)
  record SegmentedCounters.recordCoolingDrop

section
variable [Policy C]

/-- One round of entering an object at a level that `chilled` evicts from, with
`again` for the rounds to come. -/
def reenterRound (chilled : Action (Segmented C top) Bool) (dest : Level top) (r : Request)
    (again : Action (Segmented C top) Unit) : Action (Segmented C top) Unit := do
  let s ← get
  if ← s.hasRoomAt dest r.size then
    discard <| onSegment dest (Policy.insert r)
  else if Policy.count (s.segment dest) = 0 then
    CacheM.emit (.demotionDropped r.id dest)
    record SegmentedCounters.recordCoolingDrop
  else if ← chilled then again
  else abandon dest r

/-- Enters an object at a level within `fuel` rounds. -/
def reenterWithin (chilled : Action (Segmented C top) Bool) (dest : Level top) (r : Request) :
    Nat → Action (Segmented C top) Unit
  | 0 => pure ()
  | fuel + 1 => reenterRound chilled dest r (reenterWithin chilled dest r fuel)

def chillAt (time : Time) : (i : Nat) → i < top + 1 → Action (Segmented C top) Bool
  | 0, h => do
    match ← onSegment ⟨0, h⟩ Policy.evict with
    | none => pure false
    | some _ =>
      recordCore Counters.recordEviction
      pure true
  | below + 1, h => do
    match ← onSegment ⟨below + 1, h⟩ Policy.evict with
    | none => pure false
    | some victim =>
      record SegmentedCounters.recordDemotion
      CacheM.emit (.demoted victim.id below)
      let s ← get
      let dest : Level top := ⟨below, Nat.lt_of_succ_lt h⟩
      reenterWithin (chillAt time below dest.isLt) dest (Request.readmitting victim time)
        (Policy.count (s.segment dest) + 1)
      pure true

/-- Evicts from a level and enters the victim one level down; a victim of level 0
leaves the cache. Reports whether there was a victim. -/
def chill (time : Time) : Level top → Action (Segmented C top) Bool
  | ⟨i, h⟩ => chillAt time i h

/-- Enters an object at a level, chilling that level as needed. -/
def reenter (time : Time) (dest : Level top) (r : Request) : Action (Segmented C top) Unit := do
  let s ← get
  reenterWithin (chill time dest) dest r (Policy.count (s.segment dest) + 1)

variable {time : Time}

theorem chill_zero : (chill time 0 : Action (Segmented C top) Bool) = (do
    match ← onSegment 0 Policy.evict with
    | none => pure false
    | some _ =>
      recordCore Counters.recordEviction
      pure true) := rfl

theorem chill_succ {below : Nat} (h : below + 1 < top + 1) :
    (chill time ⟨below + 1, h⟩ : Action (Segmented C top) Bool) = (do
      match ← onSegment ⟨below + 1, h⟩ Policy.evict with
      | none => pure false
      | some victim =>
        record SegmentedCounters.recordDemotion
        CacheM.emit (.demoted victim.id below)
        reenter time ⟨below, Nat.lt_of_succ_lt h⟩ (Request.readmitting victim time)
        pure true) := rfl

end

/-! ## The levels above stay as they are -/

/-- The segments above a level are the same. -/
def SameAbove (i : Nat) (s : Segmented C top) (_ : Store) (s' : Segmented C top) (_ : Store) :
    Prop := ∀ j : Level top, i < j.val → s'.segment j = s.segment j

/-- Leaves the segments above a level as they are. -/
abbrev Under {α : Type} (i : Nat) : Action (Segmented C top) α → Prop := Relates (SameAbove i)

variable {α : Type} {i : Nat} {time : Time} {dest : Level top} {r : Request}

theorem composes_sameAbove : Composes (SameAbove i : Segmented C top → _) where
  refl _ _ _ _ := rfl
  trans h k j hj := (k j hj).trans (h j hj)

theorem Under.succ {x : Action (Segmented C top) α} (h : Under i x) : Under (i + 1) x :=
  h.mono fun h j hj => h j (Nat.lt_of_succ_lt hj)

theorem under_lift (x : CacheM α) : Under i (liftM x : Action (Segmented C top) α) := by
  intro s st a s' st' h j _
  rw [(yields_lift_iff.mp h).2]

theorem under_record (f : SegmentedCounters → Except Fault SegmentedCounters) :
    Under i (record f : Action (Segmented C top) Unit) := by
  intro s st u s' st' h j _
  obtain ⟨counters, -, rfl, -⟩ := yields_record_iff.mp h
  rfl

theorem under_onSegment {level : Level top} (hl : level.val ≤ i) (act : Action C α) :
    Under i (onSegment level act) := by
  intro s st a s' st' h j hj
  obtain ⟨c, -, rfl⟩ := yields_onSegment_iff.mp h
  have hne : j ≠ level := by
    intro e
    rw [e] at hj
    omega
  rw [segment_setSegment, if_neg hne]

theorem under_abandon : Under i (abandon dest r : Action (Segmented C top) Unit) :=
  composes_sameAbove.bind (under_lift _) fun _ => under_record _

variable [Policy C]

theorem under_reenterWithin {chilled : Action (Segmented C top) Bool} (hc : Under i chilled)
    (hd : dest.val ≤ i) (fuel : Nat) : Under i (reenterWithin chilled dest r fuel) := by
  have hu : Composes (SameAbove i : Segmented C top → _) := composes_sameAbove
  induction fuel with
  | zero => exact hu.pure ()
  | succ fuel ih =>
    unfold reenterWithin reenterRound
    refine Relates.get_bind fun s => hu.bind (hu.checked _) fun room => ?_
    split
    · exact (under_onSegment hd _).discard
    · split
      · exact hu.bind (under_lift _) fun _ => under_record _
      · apply hu.bind hc
        intro cooled
        split
        · exact ih
        · exact under_abandon

theorem under_chillAt (i : Nat) (h : i < top + 1) :
    Under i (chillAt time i h : Action (Segmented C top) Bool) := by
  have hu : ∀ i, Composes (SameAbove i : Segmented C top → _) := fun _ => composes_sameAbove
  induction i with
  | zero =>
    apply (hu 0).bind (under_onSegment le_rfl _)
    intro victim
    cases victim with
    | none => exact (hu 0).pure _
    | some v => exact (hu 0).bind (under_record _) fun _ => (hu 0).pure _
  | succ i ih =>
    apply (hu (i + 1)).bind (under_onSegment le_rfl _)
    intro victim
    cases victim with
    | none => exact (hu (i + 1)).pure _
    | some v =>
      refine (hu (i + 1)).bind (under_record _) fun _ => (hu (i + 1)).bind (under_lift _) fun _ =>
        Relates.get_bind fun s => (hu (i + 1)).bind ?_ fun _ => (hu (i + 1)).pure _
      exact under_reenterWithin (ih _).succ (Nat.le_succ i) _

/-! ## The recursion without its bound -/

variable [Policy.Counted C] {st st' : Store} {s s' : Segmented C top} {level : Level top}

/-- Chilling a level takes an object out of it. -/
theorem count_chill {cooled : Bool} (h : (chill time level).Yields s st cooled s' st') :
    Policy.count (s'.segment level) + cooled.toNat ≤ Policy.count (s.segment level) := by
  obtain ⟨i, hi⟩ := level
  have hevict : ∀ {victim s₁ st₁}, (onSegment ⟨i, hi⟩ (Policy.evict : Action C _)).Yields s st
      victim s₁ st₁ → Policy.count (s₁.segment ⟨i, hi⟩) + victim.isSome.toNat ≤
        Policy.count (s.segment ⟨i, hi⟩) := by
    intro victim s₁ st₁ he
    obtain ⟨c, hc, rfl⟩ := yields_onSegment_iff.mp he
    rw [segment_setSegment, if_pos rfl]
    exact Policy.Counted.count_evict hc
  cases i with
  | zero =>
    obtain ⟨victim, s₁, st₁, he, h⟩ := yields_bind_iff.mp h
    have hle := hevict he
    cases victim with
    | none =>
      obtain ⟨rfl, rfl, -⟩ := yields_pure_iff.mp h
      exact hle
    | some v =>
      obtain ⟨u, s₂, st₂, hr, hp⟩ := yields_bind_iff.mp h
      obtain ⟨counters, -, rfl, -⟩ := yields_record_iff.mp hr
      obtain ⟨rfl, rfl, -⟩ := yields_pure_iff.mp hp
      exact hle
  | succ below =>
    rw [chill_succ] at h
    obtain ⟨victim, s₁, st₁, he, h⟩ := yields_bind_iff.mp h
    have hle := hevict he
    cases victim with
    | none =>
      obtain ⟨rfl, rfl, -⟩ := yields_pure_iff.mp h
      exact hle
    | some v =>
      have hreenter : Under below (reenter time ⟨below, Nat.lt_of_succ_lt hi⟩
          (Request.readmitting v time) : Action (Segmented C top) Unit) :=
        Relates.get_bind fun s => under_reenterWithin (under_chillAt below _) le_rfl _
      have hu : Composes (SameAbove below : Segmented C top → _) := composes_sameAbove
      have hrest := hu.bind (under_record _) (fun _ => hu.bind (under_lift _) fun _ =>
        hu.bind hreenter fun _ => hu.pure _) h
      rw [hrest ⟨below + 1, hi⟩ (Nat.lt_succ_self below)]
      have hone := Bool.toNat_le cooled
      rw [Option.isSome_some, Bool.toNat_true] at hle
      omega

/-- What follows a round starts from fewer objects at the level. -/
theorem reenterRound_congr {again again' : Action (Segmented C top) Unit}
    (h : ∀ s' st', Policy.count (s'.segment dest) < Policy.count (s.segment dest) →
      again s' st' = again' s' st') :
    reenterRound (chill time dest) dest r again s st =
      reenterRound (chill time dest) dest r again' s st := by
  unfold reenterRound
  apply bind_apply_congr
  intro s₁ s₂ st₂ hg
  injection hg with hg
  obtain ⟨rfl, rfl⟩ := Prod.mk.inj hg
  apply bind_apply_congr
  intro room s₃ st₃ hroom
  obtain ⟨-, rfl, rfl⟩ := yields_checked_iff.mp hroom
  split
  · rfl
  · split
    · rfl
    · apply bind_apply_congr
      intro cooled s₄ st₄ hc
      have hle := count_chill hc
      cases cooled with
      | true => exact h s₄ st₄ hle
      | false => rfl

/-- More rounds than there are objects at the level change nothing. -/
theorem reenterWithin_eq_of_lt {n m : Nat} (hn : Policy.count (s.segment dest) < n)
    (hm : Policy.count (s.segment dest) < m) :
    reenterWithin (chill time dest) dest r n s st =
      reenterWithin (chill time dest) dest r m s st := by
  induction n generalizing s st m with
  | zero => omega
  | succ n ih =>
    obtain ⟨m, rfl⟩ : ∃ k, m = k + 1 := ⟨m - 1, by omega⟩
    apply reenterRound_congr
    intro s' st' hlt
    exact ih (by omega) (by omega)

/-- Entering an object takes a round, and then entering it from there. -/
theorem reenter_eq (time : Time) (dest : Level top) (r : Request) :
    (reenter time dest r : Action (Segmented C top) Unit) =
      reenterRound (chill time dest) dest r (reenter time dest r) := by
  funext s st
  apply reenterRound_congr
  intro s' st' hlt
  exact reenterWithin_eq_of_lt hlt (Nat.lt_succ_self _)

end SegmentedCache.Segmented
