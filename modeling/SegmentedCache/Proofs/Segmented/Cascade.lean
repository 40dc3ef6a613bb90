import SegmentedCache.Proofs.Segmented.Chilling

/-!
# The cascade refines the recursion

The loop that cools a level keeps its pending demotions in a list. Each of them
stands for an object that is yet to enter its level, and the loop lets them in
one after another, the topmost first. So cooling a level is chilling it, state
for state and fault for fault.
-/
namespace SegmentedCache.Segmented
open SegmentedCache.Action
variable {C : Type} {top : Nat} [Policy C]

/-- Enters the objects of the demotions, the topmost first. -/
def reenterAll (time : Time) : List (Demotion top) → Action (Segmented C top) Unit
  | [] => pure ()
  | (dest, r) :: rest => do
    reenter time dest r
    reenterAll time rest

/-- What is left to do once a level was chilled for the topmost demotion. -/
def reenterOnce (time : Time) (cooled : Bool) (pending : List (Demotion top)) :
    Action (Segmented C top) Unit :=
  if cooled then reenterAll time pending
  else
    match pending with
    | [] => pure ()
    | (dest, r) :: rest => do
      abandon dest r
      reenterAll time rest

/-- Gives up the topmost demotion, as a pass does that can evict nothing. -/
def giveUp : List (Demotion top) → Action (Segmented C top) (List (Demotion top))
  | [] => pure []
  | (dest, r) :: rest => do
    abandon dest r
    pure rest

/-- What the loop does after a pass. -/
def proceed (time : Time) (fuel : Nat) : List (Demotion top) → Action (Segmented C top) Unit
  | [] => pure ()
  | (dest, r) :: rest => coolWithin time fuel dest ((dest, r) :: rest)

theorem coolWithin_succ (time : Time) (fuel : Nat) (level : Level top)
    (pending : List (Demotion top)) :
    (coolWithin time (fuel + 1) level pending : Action (Segmented C top) Unit) =
      demote time level pending >>= fun pending => settle pending >>= proceed time fuel := by
  unfold coolWithin
  congr 1

theorem demote_zero (time : Time) (pending : List (Demotion top)) :
    (demote time 0 pending : Action (Segmented C top) _) = (do
      match ← onSegment 0 Policy.evict with
      | none => giveUp pending
      | some _ =>
        recordCore Counters.recordEviction
        pure pending) := by
  unfold demote
  congr 1
  funext victim
  cases victim with
  | none => cases pending <;> rfl
  | some v => rfl

theorem demote_succ (time : Time) {below : Nat} (h : below + 1 < top + 1)
    (pending : List (Demotion top)) :
    (demote time ⟨below + 1, h⟩ pending : Action (Segmented C top) _) = (do
      match ← onSegment ⟨below + 1, h⟩ Policy.evict with
      | none => giveUp pending
      | some victim =>
        record SegmentedCounters.recordDemotion
        CacheM.emit (.demoted victim.id below)
        pure ((⟨below, Nat.lt_of_succ_lt h⟩, Request.readmitting victim time) :: pending)) := by
  unfold demote
  congr 1
  funext victim
  cases victim with
  | none => cases pending <;> rfl
  | some v => rfl

variable [Policy.Counted C] {time : Time} {level : Level top} {pending : List (Demotion top)}
variable {s s' : Segmented C top} {st st' : Store}

omit [Policy.Counted C] in
theorem load_abandon {dest : Level top} {r : Request} {u : Unit}
    (h : (abandon dest r).Yields s st u s' st') : s'.load = s.load := by
  obtain ⟨_, s₁, st₁, he, hr⟩ := yields_bind_iff.mp h
  obtain ⟨-, rfl⟩ := yields_lift_iff.mp he
  obtain ⟨counters, -, rfl, -⟩ := yields_record_iff.mp hr
  rfl

/-- The loop from the end of a pass, given that from the next pass on it does
what the recursion does. -/
theorem settle_bind_eq {fuel : Nat}
    (ih : ∀ {s : Segmented C top} {st level pending}, s.load + burden pending < fuel →
      coolWithin time fuel level pending s st =
        (chill time level >>= fun cooled => reenterOnce time cooled pending) s st)
    (h : s.load + burden pending < fuel) :
    (settle pending >>= proceed time fuel) s st = reenterAll time pending s st := by
  induction pending generalizing s st with
  | nil => rfl
  | cons d rest ihp =>
    obtain ⟨dest, r⟩ := d
    rw [burden_cons] at h
    dsimp only at h
    unfold settle reenterAll
    rw [reenter_eq]
    unfold reenterRound
    simp only [bind_assoc]
    apply bind_apply_congr
    intro s₁ s₂ st₂ hg
    injection hg with hg
    obtain ⟨rfl, rfl⟩ := Prod.mk.inj hg
    apply bind_apply_congr
    intro room s₃ st₃ hroom
    obtain ⟨-, rfl, rfl⟩ := yields_checked_iff.mp hroom
    cases room with
    | true =>
      rw [if_pos rfl, if_pos rfl]
      simp only [bind_assoc]
      apply bind_apply_congr
      intro _ s₁ st₁ hi
      obtain ⟨o, hi⟩ := yields_discard_iff.mp hi
      have hload := load_insert hi
      exact ihp (by omega)
    | false =>
      rw [if_neg Bool.false_ne_true, if_neg Bool.false_ne_true]
      by_cases hc : Policy.count (s₃.segment dest) = 0
      · rw [if_pos hc, if_pos hc]
        simp only [bind_assoc]
        apply bind_apply_congr
        intro _ s₄ st₄ he
        obtain ⟨-, rfl⟩ := yields_lift_iff.mp he
        apply bind_apply_congr
        intro _ s₅ st₅ hr
        obtain ⟨counters, -, rfl, -⟩ := yields_record_iff.mp hr
        exact ihp (show s₄.load + burden rest < fuel by omega)
      · rw [if_neg hc, if_neg hc, pure_bind, bind_assoc]
        have hpass := @ih s₃ st₃ dest ((dest, r) :: rest) (by rw [burden_cons]; dsimp only; omega)
        refine hpass.trans (bind_apply_congr fun cooled s₄ st₄ _ => ?_)
        cases cooled with
        | true => rfl
        | false => rfl

/-- A cooling with enough passes left does what the recursion does. -/
theorem coolWithin_eq {fuel : Nat} (h : s.load + burden pending < fuel) :
    coolWithin time fuel level pending s st =
      (chill time level >>= fun cooled => reenterOnce time cooled pending) s st := by
  induction fuel generalizing s st level pending with
  | zero => omega
  | succ fuel ih =>
    have hrest : ∀ {s : Segmented C top} {st pending}, s.load + burden pending < fuel →
        (settle pending >>= proceed time fuel) s st = reenterAll time pending s st := by
      intro s st pending h
      exact settle_bind_eq (fun h => ih h) h
    -- Nothing could be evicted, so the topmost demotion is given up.
    have hnone : ∀ {s₁ : Segmented C top} {st₁}, s₁.load ≤ s.load →
        (giveUp pending >>= fun pending => settle pending >>= proceed time fuel) s₁ st₁ =
          reenterOnce time false pending s₁ st₁ := by
      intro s₁ st₁ hload
      cases pending with
      | nil => rfl
      | cons d rest =>
        rw [burden_cons] at h
        rw [giveUp, bind_assoc]
        change _ = (abandon d.1 d.2 >>= fun _ => reenterAll time rest) s₁ st₁
        apply bind_apply_congr
        intro _ s₂ st₂ ha
        rw [pure_bind]
        exact hrest (by rw [load_abandon ha]; omega)
    rw [coolWithin_succ]
    obtain ⟨i, hi⟩ := level
    cases i with
    | zero =>
      rw [show (⟨0, hi⟩ : Level top) = 0 from rfl, chill_zero, demote_zero, bind_assoc, bind_assoc]
      apply bind_apply_congr
      intro victim s₁ st₁ he
      have hload := load_evict he
      cases victim with
      | none => exact hnone (Nat.le_of_add_right_le hload)
      | some v =>
        simp only [bind_assoc, pure_bind]
        apply bind_apply_congr
        intro _ s₂ st₂ hr
        obtain ⟨counters, -, rfl, -⟩ := yields_record_iff.mp hr
        rw [Option.isSome_some, Bool.toNat_true, Nat.mul_one] at hload
        exact hrest (show s₁.load + burden pending < fuel by omega)
    | succ below =>
      rw [chill_succ, demote_succ, bind_assoc, bind_assoc]
      apply bind_apply_congr
      intro victim s₁ st₁ he
      have hload := load_evict he
      cases victim with
      | none => exact hnone (Nat.le_of_add_right_le hload)
      | some v =>
        simp only [bind_assoc, pure_bind]
        apply bind_apply_congr
        intro _ s₂ st₂ hr
        obtain ⟨counters, -, rfl, -⟩ := yields_record_iff.mp hr
        apply bind_apply_congr
        intro _ s₃ st₃ hm
        obtain ⟨-, rfl⟩ := yields_lift_iff.mp hm
        rw [Option.isSome_some, Bool.toNat_true, Nat.mul_one] at hload
        refine hrest (show s₁.load + burden _ < fuel from ?_)
        rw [burden_cons]
        dsimp only at hload ⊢
        omega

theorem coolWithin_nil_eq {fuel : Nat} (h : s.coolingBound ≤ fuel) :
    coolWithin time fuel level [] s st = discard (chill time level) s st := by
  rw [coolingBound_eq] at h
  rw [coolWithin_eq (by rw [burden_nil]; omega), discard_apply, bind_apply]
  cases hx : chill time level s st with
  | ok x st' =>
    obtain ⟨cooled, s'⟩ := x
    cases cooled <;> rfl
  | error e st' => rfl

theorem cool_eq (time : Time) (level : Level top) :
    (cool time level : Action (Segmented C top) Unit) = discard (chill time level) := by
  funext s st
  exact coolWithin_nil_eq le_rfl

end SegmentedCache.Segmented
