import SegmentedCache.Proofs.Policy.Screening
import SegmentedCache.Proofs.Segmented.Placement
import SegmentedCache.Proofs.Segmented.Settings

/-!
# Refusals of a segmented cache

A segmented cache bars what its own charge shows to be larger than the coldest
segment. The segment that takes the object may be segmented too and then has a
narrower coldest segment of its own, so it may refuse what the whole did not bar.
By then the object with the same id is gone and others have been evicted. Where no
segment bars the size, this does not happen.
-/
namespace SegmentedCache.Segmented
open SegmentedCache.Action Policy
variable {C : Type} {top : Nat} [Policy C] {s s' : Segmented C top} {st st' : Store}
variable {i : Level top} {size : Bytes} {r : Request} {res : Option CacheObject}

instance [Screened C] : Screened (Segmented C top) where
  Bars s size := decide (Policy.capacity s.coldest < s.charge size)
  Open s size := s.charge size ≤ Policy.capacity s.coldest ∧
    ¬ Screened.Bars s.coldest size ∧ ∀ i, Screened.Open (s.segment i) size

/-- Refusals depend on no more than the settings. -/
theorem screen_eq_of_settings [Screened C] (h : settings screen s' = settings screen s) :
    screen s' = screen s := by
  have hscreen : ∀ s : Segmented C top, screen s =
      let (p, _, part) := settings screen s
      let charge (size : Bytes) := Word.saturatingAdd size p.overhead
      (p.capacity, fun size => decide ((part 0).1 < charge size), fun size =>
        charge size ≤ (part 0).1 ∧ ¬ (part 0).2.1 size ∧ ∀ i, (part i).2.2 size) := fun _ => rfl
  rw [hscreen, hscreen, h]

variable [Screening C]

theorem working_screen :
    Working fun (s : Segmented C top) _ s' _ => settings screen s' = settings screen s :=
  working_settings Screening.constant_screen

theorem constant_screen : Constant (screen : Segmented C top → _) :=
  (constant_settings Screening.constant_screen).of_eq fun _ _ => screen_eq_of_settings

/-- What keeps the settings keeps a cache open. -/
theorem opens_of_settings (h : settings screen s' = settings screen s) :
    Screened.Open s size → Screened.Open s' size := by
  have hopen : Screened.Open s' = Screened.Open s := congrArg (·.2.2) (screen_eq_of_settings h)
  rw [hopen]
  exact id

/-- The segment that is chosen for an object takes it. -/
theorem not_bars_of_levelFor (ho : Screened.Open s size)
    (h : (levelFor size).Yields s st i s' st') :
    Screened.Open (s'.segment i) size ∧ ¬ Screened.Bars (s'.segment i) size := by
  rcases levelFor_cases h with ⟨hroom, rfl, rfl⟩ | ⟨rfl, hevict⟩
  · exact ⟨ho.2.2 i, Screening.not_bars (ho.2.2 i) hroom⟩
  · have ho' := opens_of_settings (working_screen.evictUntilRoom _ _ hevict) ho
    exact ⟨ho'.2.2 0, ho'.2.1⟩

omit [Screening C] in
theorem refuses (h : Policy.capacity (s.segment 0) < s.charge r.size)
    (hy : (insert r).Yields s st res s' st') :
    res = none ∧ s' = s ∧ ∃ events, st' = { st with events } := by
  unfold insert at hy
  rw [yields_get_bind_iff] at hy
  dsimp only at hy
  rw [if_pos h] at hy
  obtain ⟨_, s₁, st₁, hemit, hpure⟩ := yields_bind_iff.mp hy
  obtain ⟨rfl, rfl⟩ := yields_emit_iff.mp hemit
  obtain ⟨rfl, rfl, rfl⟩ := yields_pure_iff.mp hpure
  exact ⟨rfl, rfl, _, rfl⟩

theorem accepts (ho : Screened.Open s r.size) (hy : (insert r).Yields s st res s' st') :
    res ≠ none := by
  unfold insert at hy
  rw [yields_get_bind_iff] at hy
  dsimp only at hy
  rw [← coldest_eq, if_neg (UInt64.not_lt.mpr ho.1)] at hy
  obtain ⟨_, s₁, st₁, hdisplace, h₁⟩ := yields_bind_iff.mp hy
  obtain ⟨level, s₂, st₂, hlevel, h₂⟩ := yields_bind_iff.mp h₁
  obtain ⟨o, s₃, st₃, hinsert, h₃⟩ := yields_bind_iff.mp h₂
  have ho₁ := opens_of_settings (working_screen.displace r.id hdisplace) ho
  obtain ⟨hopen, hbars⟩ := not_bars_of_levelFor ho₁ hlevel
  obtain ⟨c, hc, rfl⟩ := yields_onSegment_iff.mp hinsert
  obtain ⟨o, rfl⟩ := Option.ne_none_iff_exists'.mp (Screening.accepts hopen hbars hc)
  obtain ⟨_, s₄, st₄, hrecord, hpure⟩ := yields_bind_iff.mp h₃
  rw [(yields_pure_iff.mp hpure).1]
  exact Option.some_ne_none o

instance : Screening (Segmented C top) where
  refuses h hy := refuses (of_decide_eq_true h) hy
  accepts ho _ hy := accepts ho hy
  not_bars ho _ hbars := UInt64.not_lt.mpr ho.1 (of_decide_eq_true hbars)
  constant_screen := constant_screen

end SegmentedCache.Segmented
