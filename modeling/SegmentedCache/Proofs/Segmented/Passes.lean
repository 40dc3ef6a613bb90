import SegmentedCache.Proofs.Segmented.Cascade

/-!
# The points of a cooling

The loop that cools a level, told one point at a time. Going on to the next
point lowers the load and the burden together, or leaves them and goes from the
end of a pass to an eviction. So there are at most three points for each pass
that the load allows for.

The levels that demotions wait for rise strictly from the top of the list
downward and all are below the level that is cooled, so the list is never longer
than that level is high.
-/
namespace SegmentedCache.Segmented
open SegmentedCache.Action
variable {C : Type} {top : Nat} [Policy C]

/-- Where the loop is: about to evict from a level, or at the end of a pass. -/
inductive Point (top : Nat)
  | cooling (level : Level top) (pending : List (Demotion top))
  | settling (pending : List (Demotion top))

namespace Point

def pending : Point top → List (Demotion top)
  | .cooling _ pending => pending
  | .settling pending => pending

/-- Goes on to the next point; there is none once no demotion is under way. -/
def next (time : Time) : Point top → Action (Segmented C top) (Option (Point top))
  | .cooling level pending => do
    let pending ← demote time level pending
    pure (some (.settling pending))
  | .settling [] => pure none
  | .settling ((dest, r) :: rest) => do
    let s ← get
    if ← s.hasRoomAt dest r.size then
      discard <| onSegment dest (Policy.insert r)
      pure (some (.settling rest))
    else if Policy.count (s.segment dest) = 0 then
      CacheM.emit (.demotionDropped r.id dest)
      record SegmentedCounters.recordCoolingDrop
      pure (some (.settling rest))
    else pure (some (.cooling dest ((dest, r) :: rest)))

/-- What is left to do, in points. -/
def rank (s : Segmented C top) : Point top → Nat
  | .cooling _ pending => 3 * (s.load + burden pending) + 1
  | .settling [] => 3 * s.load
  | .settling (d :: rest) => 3 * (s.load + burden (d :: rest)) + 2

/-- The demotions wait for levels below `limit`, a lower one first, and none
waits below the level that is cooled. -/
def Ordered (limit : Nat) : Point top → Prop
  | .cooling level pending => level.val ≤ limit ∧ (∀ d ∈ pending, level ≤ d.1) ∧
      (∀ d ∈ pending, d.1.val < limit) ∧ pending.Pairwise fun d e => d.1 < e.1
  | .settling pending =>
      (∀ d ∈ pending, d.1.val < limit) ∧ pending.Pairwise fun d e => d.1 < e.1

theorem rank_settling_le (s : Segmented C top) (pending : List (Demotion top)) :
    rank s (.settling pending) ≤ 3 * (s.load + burden pending) + 2 := by
  cases pending with
  | nil =>
    change 3 * s.load ≤ 3 * (s.load + burden []) + 2
    rw [burden_nil]
    omega
  | cons d rest => exact le_rfl

end Point

/-- What one step of the loop does to its point and to the load. -/
inductive Advances (s s' : Segmented C top) : Point top → Point top → Prop
  | demoted {level below : Level top} {pending : List (Demotion top)} (r : Request)
    (hl : level.val = below.val + 1) (h : s'.load + (2 * level.val + 1) ≤ s.load) :
    Advances s s' (.cooling level pending) (.settling ((below, r) :: pending))
  | left {level : Level top} {pending : List (Demotion top)} (h : s'.load < s.load) :
    Advances s s' (.cooling level pending) (.settling pending)
  | gaveUp {level : Level top} {pending : List (Demotion top)} (h : s'.load ≤ s.load) :
    Advances s s' (.cooling level pending) (.settling pending.tail)
  | ended {d : Demotion top} {rest : List (Demotion top)}
    (h : s'.load ≤ s.load + (2 * d.1.val + 1)) :
    Advances s s' (.settling (d :: rest)) (.settling rest)
  | waits {d : Demotion top} {rest : List (Demotion top)} (h : s' = s) :
    Advances s s' (.settling (d :: rest)) (.cooling d.1 (d :: rest))

/-- The loop gets from one point to another in so many steps. -/
inductive Visits (time : Time) : Nat → Point top → Segmented C top → Store → Point top →
    Segmented C top → Store → Prop
  | here (p : Point top) (s : Segmented C top) (st : Store) : Visits time 0 p s st p s st
  | next {n : Nat} {p q p' : Point top} {s s₁ s' : Segmented C top} {st st₁ st' : Store}
    (h : (p.next time).Yields s st (some q) s₁ st₁) (k : Visits time n q s₁ st₁ p' s' st') :
    Visits time (n + 1) p s st p' s' st'

variable {time : Time} {level : Level top} {pending : List (Demotion top)} {p q : Point top}
variable {s s' : Segmented C top} {st st' : Store} {limit : Nat}

theorem Advances.rank_lt (h : Advances s s' p q) : q.rank s' < p.rank s := by
  cases h with
  | @demoted level below pending r hl h =>
    change 3 * (s'.load + burden ((below, r) :: pending)) + 2 < 3 * (s.load + burden pending) + 1
    rw [burden_cons]
    dsimp only
    omega
  | @left level pending h =>
    have hle := Point.rank_settling_le s' pending
    change _ < 3 * (s.load + burden pending) + 1
    omega
  | @gaveUp level pending h =>
    cases pending with
    | nil =>
      change 3 * s'.load < 3 * (s.load + burden []) + 1
      rw [burden_nil]
      omega
    | cons d rest =>
      have hle := Point.rank_settling_le s' rest
      change _ < 3 * (s.load + burden (d :: rest)) + 1
      rw [burden_cons]
      rw [List.tail_cons]
      omega
  | @ended d rest h =>
    have hle := Point.rank_settling_le s' rest
    change _ < 3 * (s.load + burden (d :: rest)) + 2
    rw [burden_cons]
    omega
  | @waits d rest h =>
    subst h
    change 3 * (s'.load + burden (d :: rest)) + 1 < 3 * (s'.load + burden (d :: rest)) + 2
    omega

theorem Advances.ordered (h : Advances s s' p q) (ho : p.Ordered limit) : q.Ordered limit := by
  cases h with
  | @demoted level below pending r hl h =>
    obtain ⟨hlevel, hahead, hbelow, hpair⟩ := ho
    refine ⟨?_, List.pairwise_cons.mpr ⟨?_, hpair⟩⟩
    · intro d hd
      rcases List.mem_cons.mp hd with rfl | hd
      · dsimp only
        omega
      · exact hbelow d hd
    · intro d hd
      have hle : level.val ≤ d.1.val := hahead d hd
      change below.val < d.1.val
      omega
  | left h => exact ⟨ho.2.2.1, ho.2.2.2⟩
  | @gaveUp level pending h =>
    exact ⟨fun d hd => ho.2.2.1 d (List.mem_of_mem_tail hd), ho.2.2.2.sublist (List.tail_sublist _)⟩
  | @ended d rest h =>
    exact ⟨fun e he => ho.1 e (List.mem_cons_of_mem _ he), (List.pairwise_cons.mp ho.2).2⟩
  | @waits d rest h =>
    refine ⟨(ho.1 d List.mem_cons_self).le, ?_, ho.1, ho.2⟩
    intro e he
    rcases List.mem_cons.mp he with rfl | he
    · exact le_rfl
    · exact ((List.pairwise_cons.mp ho.2).1 e he).le

theorem Point.Ordered.of_pending (h : p.Ordered limit) :
    (∀ d ∈ p.pending, d.1.val < limit) ∧ p.pending.Pairwise fun d e => d.1 < e.1 := by
  cases p with
  | cooling level pending => exact ⟨h.2.2.1, h.2.2.2⟩
  | settling pending => exact h

theorem Point.Ordered.length_le (h : p.Ordered limit) : p.pending.length ≤ limit := by
  obtain ⟨hbelow, hpair⟩ := h.of_pending
  have hnd : (p.pending.map fun d => d.1.val).Nodup :=
    List.pairwise_map.mpr (hpair.imp fun hde => Nat.ne_of_lt hde)
  have hsub : (p.pending.map fun d => d.1.val) ⊆ List.range limit := by
    intro i hi
    obtain ⟨d, hd, rfl⟩ := List.mem_map.mp hi
    exact List.mem_range.mpr (hbelow d hd)
  have hle := (hnd.subperm hsub).length_le
  rwa [List.length_map, List.length_range] at hle

variable [Policy.Counted C]

theorem advances_demote {pending' : List (Demotion top)}
    (h : (demote time level pending).Yields s st pending' s' st') :
    Advances s s' (.cooling level pending) (.settling pending') := by
  have hgive : ∀ {s₁ : Segmented C top} {st₁}, s₁.load ≤ s.load →
      (giveUp pending).Yields s₁ st₁ pending' s' st' →
      Advances s s' (.cooling level pending) (.settling pending') := by
    intro s₁ st₁ hload h
    cases pending with
    | nil =>
      obtain ⟨rfl, rfl, -⟩ := yields_pure_iff.mp h
      exact .gaveUp hload
    | cons d rest =>
      obtain ⟨_, s₂, st₂, ha, hp⟩ := yields_bind_iff.mp h
      obtain ⟨rfl, rfl, -⟩ := yields_pure_iff.mp hp
      exact .gaveUp ((load_abandon ha).le.trans hload)
  obtain ⟨i, hi⟩ := level
  cases i with
  | zero =>
    rw [show (⟨0, hi⟩ : Level top) = 0 from rfl, demote_zero] at h
    obtain ⟨victim, s₁, st₁, he, h⟩ := yields_bind_iff.mp h
    have hload := load_evict he
    cases victim with
    | none => exact hgive (Nat.le_of_add_right_le hload) h
    | some v =>
      obtain ⟨_, s₂, st₂, hr, hp⟩ := yields_bind_iff.mp h
      obtain ⟨counters, -, rfl, -⟩ := yields_record_iff.mp hr
      obtain ⟨rfl, rfl, -⟩ := yields_pure_iff.mp hp
      rw [Option.isSome_some, Bool.toNat_true, Nat.mul_one] at hload
      exact .left (show s₁.load < s.load by omega)
  | succ below =>
    rw [demote_succ] at h
    obtain ⟨victim, s₁, st₁, he, h⟩ := yields_bind_iff.mp h
    have hload := load_evict he
    cases victim with
    | none => exact hgive (Nat.le_of_add_right_le hload) h
    | some v =>
      obtain ⟨_, s₂, st₂, hr, h⟩ := yields_bind_iff.mp h
      obtain ⟨counters, -, rfl, -⟩ := yields_record_iff.mp hr
      obtain ⟨_, s₃, st₃, hm, hp⟩ := yields_bind_iff.mp h
      obtain ⟨-, rfl⟩ := yields_lift_iff.mp hm
      obtain ⟨rfl, rfl, -⟩ := yields_pure_iff.mp hp
      rw [Option.isSome_some, Bool.toNat_true, Nat.mul_one] at hload
      exact .demoted _ rfl hload

theorem advances_next (h : (p.next time).Yields s st (some q) s' st') : Advances s s' p q := by
  cases p with
  | cooling level pending =>
    obtain ⟨pending', s₁, st₁, hd, hp⟩ := yields_bind_iff.mp h
    obtain ⟨hq, rfl, -⟩ := yields_pure_iff.mp hp
    obtain rfl := Option.some.inj hq
    exact advances_demote hd
  | settling pending =>
    cases pending with
    | nil =>
      obtain ⟨hq, -⟩ := yields_pure_iff.mp h
      cases hq
    | cons d rest =>
      obtain ⟨dest, r⟩ := d
      unfold Point.next at h
      rw [yields_get_bind_iff] at h
      obtain ⟨room, s₁, st₁, hr, h⟩ := yields_bind_iff.mp h
      obtain ⟨-, rfl, rfl⟩ := yields_checked_iff.mp hr
      cases room with
      | true =>
        rw [if_pos rfl] at h
        obtain ⟨_, s₂, st₂, hi, hp⟩ := yields_bind_iff.mp h
        obtain ⟨o, hi⟩ := yields_discard_iff.mp hi
        obtain ⟨hq, rfl, -⟩ := yields_pure_iff.mp hp
        obtain rfl := Option.some.inj hq
        exact .ended (load_insert hi)
      | false =>
        rw [if_neg Bool.false_ne_true] at h
        by_cases hc : Policy.count (s₁.segment dest) = 0
        · rw [if_pos hc] at h
          obtain ⟨_, s₂, st₂, he, hd⟩ := yields_bind_iff.mp h
          obtain ⟨-, rfl⟩ := yields_lift_iff.mp he
          obtain ⟨_, s₃, st₃, hr, hp⟩ := yields_bind_iff.mp hd
          obtain ⟨counters, -, rfl, -⟩ := yields_record_iff.mp hr
          obtain ⟨hq, rfl, -⟩ := yields_pure_iff.mp hp
          obtain rfl := Option.some.inj hq
          exact .ended (Nat.le_add_right _ _)
        · rw [if_neg hc] at h
          obtain ⟨hq, rfl, -⟩ := yields_pure_iff.mp h
          obtain rfl := Option.some.inj hq
          exact .waits rfl

namespace Visits
variable {n m : Nat} {p' : Point top} {s'' : Segmented C top} {st'' : Store}

omit [Policy.Counted C] in
theorem trans (h : Visits time n p s st q s' st') (k : Visits time m q s' st' p' s'' st'') :
    Visits time (n + m) p s st p' s'' st'' := by
  induction h with
  | here p s st => rwa [Nat.zero_add]
  | @next n p q p' s s₁ s' st st₁ st' h _ ih =>
    rw [Nat.add_right_comm]
    exact .next h (ih k)

theorem rank_le (h : Visits time n p s st q s' st') : n + q.rank s' ≤ p.rank s := by
  induction h with
  | here p s st => rw [Nat.zero_add]
  | @next n p q p' s s₁ s' st st₁ st' h _ ih =>
    have hlt := (advances_next h).rank_lt
    omega

theorem ordered (h : Visits time n p s st q s' st') (ho : p.Ordered limit) : q.Ordered limit := by
  induction h with
  | here p s st => exact ho
  | next h _ ih => exact ih ((advances_next h).ordered ho)

end Visits

/-! ## The points are those of the loop -/

/-- Where a pass starts, or the loop ends, with these demotions left. -/
def Point.arrived : List (Demotion top) → Point top
  | [] => .settling []
  | (dest, r) :: rest => .cooling dest ((dest, r) :: rest)

omit [Policy.Counted C] in
theorem visits_settle {left : List (Demotion top)}
    (h : (settle pending).Yields s st left s' st') :
    ∃ n, Visits time n (.settling pending) s st (Point.arrived left) s' st' := by
  induction pending generalizing s st with
  | nil =>
    obtain ⟨rfl, rfl, rfl⟩ := yields_pure_iff.mp h
    exact ⟨0, .here _ _ _⟩
  | cons d rest ih =>
    obtain ⟨dest, r⟩ := d
    unfold settle at h
    rw [yields_get_bind_iff] at h
    obtain ⟨room, s₁, st₁, hr, h⟩ := yields_bind_iff.mp h
    obtain ⟨hroom, rfl, rfl⟩ := yields_checked_iff.mp hr
    -- What the point does next, given what the rest of it does.
    have hnext : ∀ {q s₂ st₂}, (do
        if room then
          discard <| onSegment dest (Policy.insert r)
          pure (some (.settling rest))
        else if Policy.count (s₁.segment dest) = 0 then
          CacheM.emit (.demotionDropped r.id dest)
          record SegmentedCounters.recordCoolingDrop
          pure (some (.settling rest))
        else pure (some (.cooling dest ((dest, r) :: rest))) : Action (Segmented C top) _).Yields
          s₁ st₁ q s₂ st₂ →
        ((Point.settling ((dest, r) :: rest)).next time).Yields s₁ st₁ q s₂ st₂ := by
      intro q s₂ st₂ hq
      unfold Point.next
      rw [yields_get_bind_iff]
      exact yields_bind_iff.mpr ⟨room, s₁, st₁, hr, hq⟩
    cases room with
    | true =>
      rw [if_pos rfl] at h
      obtain ⟨_, s₂, st₂, hi, hs⟩ := yields_bind_iff.mp h
      obtain ⟨n, hv⟩ := ih hs
      exact ⟨n + 1, .next (hnext (yields_bind_iff.mpr ⟨_, s₂, st₂, hi, rfl⟩)) hv⟩
    | false =>
      rw [if_neg Bool.false_ne_true] at h
      by_cases hc : Policy.count (s₁.segment dest) = 0
      · rw [if_pos hc] at h
        obtain ⟨_, s₂, st₂, he, h⟩ := yields_bind_iff.mp h
        obtain ⟨_, s₃, st₃, hr, hs⟩ := yields_bind_iff.mp h
        obtain ⟨n, hv⟩ := ih hs
        refine ⟨n + 1, .next (hnext ?_) hv⟩
        rw [if_neg Bool.false_ne_true, if_pos hc]
        exact yields_bind_iff.mpr ⟨_, s₂, st₂, he, yields_bind_iff.mpr ⟨_, s₃, st₃, hr, rfl⟩⟩
      · rw [if_neg hc] at h
        obtain ⟨rfl, rfl, rfl⟩ := yields_pure_iff.mp h
        refine ⟨1, .next (hnext ?_) (.here _ _ _)⟩
        rw [if_neg Bool.false_ne_true, if_neg hc]
        rfl

theorem visits_coolWithin {fuel : Nat} (hf : s.load + burden pending < fuel)
    (h : (coolWithin time fuel level pending).Yields s st () s' st') :
    ∃ n, Visits time n (.cooling level pending) s st (.settling []) s' st' := by
  induction fuel generalizing s st level pending with
  | zero => omega
  | succ fuel ih =>
    rw [coolWithin_succ] at h
    obtain ⟨pending₁, s₁, st₁, hd, h⟩ := yields_bind_iff.mp h
    obtain ⟨left, s₂, st₂, hs, h⟩ := yields_bind_iff.mp h
    obtain ⟨n, hv⟩ : ∃ n, Visits time n (.settling pending₁) s₁ st₁ (Point.arrived left) s₂ st₂ :=
      visits_settle hs
    have hpass : Visits time (n + 1) (.cooling level pending) s st (Point.arrived left) s₂ st₂ :=
      .next (yields_bind_iff.mpr ⟨pending₁, s₁, st₁, hd, rfl⟩) hv
    cases left with
    | nil =>
      obtain ⟨-, rfl, rfl⟩ := yields_pure_iff.mp h
      exact ⟨n + 1, hpass⟩
    | cons d rest =>
      obtain ⟨dest, r⟩ := d
      have hle := hpass.rank_le
      change n + 1 + (3 * (s₂.load + burden ((dest, r) :: rest)) + 1) ≤
        3 * (s.load + burden pending) + 1 at hle
      obtain ⟨m, hm⟩ := ih (by omega) h
      exact ⟨n + 1 + m, hpass.trans hm⟩

/-- Cooling a level is chilling it: the work list, whose levels fall strictly
toward its top, carries out the recursion, within a bounded number of steps and
in no more room than the level is high. -/
theorem cool_refines (time : Time) (level : Level top) :
    (cool time level : Action (Segmented Lru top) Unit) = discard (chill time level) ∧
    (∀ dest r, (reenter time dest r : Action (Segmented Lru top) Unit) = (do
      let s ← get
      if ← s.hasRoomAt dest r.size then
        discard <| onSegment dest (Policy.insert r)
      else if Policy.count (s.segment dest) = 0 then
        CacheM.emit (.demotionDropped r.id dest)
        record SegmentedCounters.recordCoolingDrop
      else if ← chill time dest then reenter time dest r
      else abandon dest r)) ∧
    ∀ (s : Segmented Lru top) (st : Store),
      (∀ fuel, s.coolingBound ≤ fuel →
        coolWithin time fuel level [] s st = cool time level s st) ∧
      (∀ s' st', (cool time level).Yields s st () s' st' →
        ∃ n, Visits time n (.cooling level []) s st (.settling []) s' st') ∧
      ∀ n p s' st', Visits time n (.cooling level []) s st p s' st' →
        n ≤ 3 * s.coolingBound ∧ (p.pending.Pairwise fun d e => d.1 < e.1) ∧
          p.pending.length ≤ level := by
  refine ⟨cool_eq time level, fun dest r => reenter_eq time dest r, fun s st => ⟨?_, ?_, ?_⟩⟩
  · intro fuel hf
    rw [cool_eq]
    exact coolWithin_nil_eq hf
  · intro s' st' h
    exact visits_coolWithin (by rw [coolingBound_eq, burden_nil]; omega) h
  · intro n p s' st' h
    have hstart : (Point.cooling level []).Ordered level.val :=
      ⟨le_rfl, fun d hd => absurd hd List.not_mem_nil, fun d hd => absurd hd List.not_mem_nil, .nil⟩
    have hle := h.rank_le
    change n + _ ≤ 3 * (s.load + burden []) + 1 at hle
    rw [burden_nil] at hle
    have hp := h.ordered hstart
    exact ⟨by rw [coolingBound_eq]; omega, hp.of_pending.2, hp.length_le⟩

end SegmentedCache.Segmented
