import SegmentedCache.Proofs.Tier.Ledger
import SegmentedCache.Proofs.World.Residency

/-!
# The arithmetic of capacities

The byte total of a cache stays within its capacity, and no difference in its
accounting is ever negative. Two sums are not as safe. An insertion adds the byte
total and the new charge before it evicts, and this sum may leave the range of a word
if the capacity is half of the range or more. The sum behind an answer about room
stops at the largest word, so where that is the capacity there always seems to be
room.

Away from these two edges every answer about room is exact, and no operation faults
as long as the counters can spare what it counts.
-/
namespace SegmentedCache

namespace Policy
variable {C : Type} [Policy C] {c : C} {bytes : Bytes}

theorem hasRoom_of_occupied (h : occupied c = .ok bytes) (size : Bytes) :
    hasRoom c size = .ok (decide (capacity c = Word.largest ∨
      bytes.toNat + size.toNat + (overhead c).toNat ≤ (capacity c).toNat)) := by
  unfold hasRoom
  rw [h]
  refine congrArg Except.ok (decide_eq_decide.mpr ?_)
  have hlt := (capacity c).toNat_lt_size
  rw [UInt64.le_iff_toNat_le, Word.saturatingAdd_assoc, Word.toNat_saturatingAdd,
    Word.toNat_saturatingAdd, ← UInt64.toNat_inj, Word.toNat_largest]
  omega

end Policy

namespace Tier
open SegmentedCache.Action Policy
variable {M : ℕ} {t : Tier 1} {st : Store}

/-- The counters can spare what an operation counts. The capacity of a lone cache is
less than half of the range of a word, and that of a segment less than the largest. -/
def Ample (M : ℕ) : Tier 1 → Prop
  | .inl c => 2 * c.params.capacity.toNat < UInt64.size ∧ c.counters.Spare M (Policy.count c + 3)
  | .inr ⟨top, s⟩ => Segmented.Sturdy M (2 * Segmented.load (C := Lru) s + (4 * top + 12)) s

instance decidableAmple (M : ℕ) : (t : Tier 1) → Decidable (t.Ample M)
  | .inl _ => inferInstanceAs (Decidable (_ ∧ _))
  | .inr ⟨_, s⟩ => Segmented.decidableSturdy M _ s

/-- An ample tier performs every operation on objects no larger than `M`. -/
theorem Ample.performs (h : t.Ample M) (hs : Sound st t) (hsmall : ∀ x ∈ stock st t, x.2.toNat ≤ M)
    {op : Operation} (hM : op.bytes ≤ M) :
    ∃ response t' st', (perform op).Yields t st response t' st' := by
  cases t with
  | inl c =>
    obtain ⟨hcapacity, hspare⟩ := h
    obtain ⟨response, c', st', hy, -⟩ :=
      (Lru.runs_perform (Lru.sound_iff.mp hs.of_inl) hM).yields fun hE =>
        hE.elim (fun hnot => hnot hspare) (Nat.not_le.mpr hcapacity)
    refine ⟨response, .inl c', st', ?_⟩
    rw [show (perform op : Action (Tier 1) Response) = _ from perform_either op]
    exact yields_either_inl.mpr ⟨c', hy, rfl⟩
  | inr t =>
    obtain ⟨top, s⟩ := t
    obtain ⟨k, hcosts, -⟩ := Segmented.costs_perform (s := (s : Segmented Lru top))
      ⟨hs.of_inr.of_mk, hsmall⟩ hM
    obtain ⟨response, s', st', hy, -⟩ := Action.Runs.yields hcosts fun hnot => hnot h
    refine ⟨response, .inr ⟨top, s'⟩, st', ?_⟩
    rw [show (perform op : Action (Tier 1) Response) = _ from perform_either op]
    refine yields_either_inr.mpr ⟨⟨top, s'⟩, ?_, rfl⟩
    rw [show (perform op : Action (Σ top, Segmented (Tier 0) top) Response) = _ from
      perform_family op]
    exact yields_family.mpr ⟨s', hy, rfl⟩

end Tier

namespace World
open Policy
variable {w : World} {b : Blueprint 1} {p : Params} {t : Tier 1}

/-- Whatever was written to its indexes, a cache keeps its byte total within its
capacity and answers exactly about room, unless its capacity is the largest word. An
operation on it faults on a sum if at all, and not at all if the cache is ample. -/
theorem Reachable.accounting_in_range (h : Reachable w) (hm : ⟨1, b, p, t⟩ ∈ w.members) :
    (b.Narrowing → ∃ bytes, occupied t = .ok bytes ∧ bytes ≤ capacity t ∧
      ∀ size, hasRoom t size = .ok (decide (capacity t = Word.largest ∨
        bytes.toNat + size.toNat + (overhead t).toNat ≤ (capacity t).toNat))) ∧
    (∀ op e st, perform op t w.store = .error e st → e = .addOverflow) ∧
    ∀ op M, t.Ample M → op.bytes ≤ M → (∀ c ∈ t.leaves, ∀ o ∈ c.objects, o.size.toNat ≤ M) →
      ∃ response t' st', (perform op).Yields t w.store response t' st' := by
  have hsound : Policy.Sound w.store t := h.sound.member _ hm
  refine ⟨?total, ?faults, ?performs⟩
  case total =>
    intro hn
    obtain ⟨bytes, hbytes, hle⟩ := Lawful.occupied_le hsound.charged (h.sound.fits _ hm hn)
    exact ⟨bytes, hbytes, hle, hasRoom_of_occupied hbytes⟩
  case faults =>
    intro op e st hfault
    have hk := ensures_perform hsound op
    unfold Action.Ensures at hk
    rwa [hfault] at hk
  case performs =>
    intro op M hample hbytes hsmall
    refine hample.performs hsound ?_ hbytes
    rintro x ⟨c, hc, o, ho, hsize⟩
    rw [← hsize]
    exact hsmall c (Tier.leaves_eq t ▸ hc) o ((hsound.coherent hc).find?_eq_some_iff_mem.mp ho).1

/-! ## Histories that compute -/

/-- The history of a single cache, in a world of its own. -/
theorem Reachable.of_history {d : Nat} {b : Blueprint d} {t t' : Tier d} {st st' : Store}
    {ops : List Operation} {responses : List Response}
    (hbuild : (b.build p).run {} = .ok (.ok t) st)
    (hrun : (performAll ops).Yields t st responses t' st') :
    Reachable ⟨st', [⟨d, b, p, t'⟩]⟩ := by
  have hbuilt : Reachable ⟨st, [⟨d, b, p, t⟩]⟩ := .step .start (.built b p hbuild)
  clear hbuild
  induction ops generalizing t st responses with
  | nil =>
    obtain ⟨-, rfl, rfl⟩ := Action.yields_pure_iff.mp hrun
    exact hbuilt
  | cons op rest ih =>
    obtain ⟨response, t₁, st₁, hop, h₁⟩ := Action.yields_bind_iff.mp hrun
    obtain ⟨others, t₂, st₂, hrest, hpure⟩ := Action.yields_bind_iff.mp h₁
    obtain ⟨-, rfl, rfl⟩ := Action.yields_pure_iff.mp hpure
    refine ih hrest (.step hbuilt ?_)
    have hm : [(⟨d, b, p, t⟩ : Member)] = [] ++ ⟨d, b, p, t⟩ :: [] := rfl
    exact .performed (w := ⟨st, _⟩) hm op hop

/-- Two segments of ten bytes, one object above and one below. -/
theorem accounting_in_range_halves :
    ∃ (w : World) (t : Tier 1), Reachable w ∧
      ⟨1, .ofLrus {} false 2, ⟨20, 1, 0⟩, t⟩ ∈ w.members ∧
      occupied t = .ok 8 ∧ hasRoom t 11 = .ok true ∧ hasRoom t 12 = .ok false ∧
      ∃ response t' st', (perform (.insert ⟨3, 5, 0, none⟩)).Yields t w.store response t' st' := by
  have h : (Blueprint.trial (.ofLrus {} false 2 : Blueprint 1) ⟨20, 1, 0⟩
      [.serve ⟨1, 3, 0, none⟩, .serve ⟨1, 3, 0, none⟩, .serve ⟨2, 3, 0, none⟩]).any (fun x =>
        decide (occupied x.2.1 = .ok 8 ∧ capacity x.2.1 = 20 ∧ overhead x.2.1 = 1 ∧
          x.2.1.Ample 5 ∧ ∀ c ∈ x.2.1.leaves, ∀ o ∈ c.objects, o.size.toNat ≤ 5)) = true := by
    decide +kernel
  obtain ⟨⟨x, y⟩, htrial, hcheck⟩ := (Option.any_eq_true _ _).mp h
  obtain ⟨hbuild, responses, hrun⟩ := Blueprint.build_of_trial htrial
  obtain ⟨hoccupied, hcapacity, hoverhead, hample, hsmall⟩ := of_decide_eq_true hcheck
  have hreachable := Reachable.of_history hbuild hrun
  have hm := List.mem_singleton_self (⟨1, .ofLrus {} false 2, ⟨20, 1, 0⟩, y.1⟩ : Member)
  obtain ⟨htotal, -, hperforms⟩ := hreachable.accounting_in_range hm
  obtain ⟨bytes, hbytes, -, hroom⟩ := htotal (by decide)
  obtain rfl : 8 = bytes := Except.ok.inj (hoccupied.symm.trans hbytes)
  rw [hcapacity, hoverhead] at hroom
  exact ⟨_, y.1, hreachable, hm, hoccupied, (hroom 11).trans (congrArg Except.ok (by decide)),
    (hroom 12).trans (congrArg Except.ok (by decide)),
    hperforms (.insert ⟨3, 5, 0, none⟩) 5 hample (by decide) hsmall⟩

/-- With half of the range of a word as its capacity, a full cache faults on the next
object of its own size. With all of the range, a full cache has room for one more. -/
theorem sum_out_of_range :
    (∃ (t : Tier 1) (st st' : Store),
      Reachable ⟨st, [⟨1, .lru {} false, ⟨9223372036854775808, 0, 0⟩, t⟩]⟩ ∧
      perform (.insert ⟨2, 9223372036854775808, 0, none⟩) t st = .error .addOverflow st') ∧
    ∃ (t : Tier 1) (st : Store),
      Reachable ⟨st, [⟨1, .lru {} false, ⟨Word.largest, 0, 0⟩, t⟩]⟩ ∧
      occupied t = .ok Word.largest ∧ hasRoom t 1 = .ok true := by
  constructor
  · have h : (Blueprint.trial (.lru {} false : Blueprint 1) ⟨9223372036854775808, 0, 0⟩
        [.insert ⟨1, 9223372036854775808, 0, none⟩]).any (fun x =>
          match perform (.insert ⟨2, 9223372036854775808, 0, none⟩) x.2.1 x.2.2 with
          | .error .addOverflow _ => true
          | _ => false) = true := by
      decide +kernel
    obtain ⟨⟨x, y⟩, htrial, hcheck⟩ := (Option.any_eq_true _ _).mp h
    obtain ⟨hbuild, responses, hrun⟩ := Blueprint.build_of_trial htrial
    dsimp only at hcheck
    split at hcheck
    next st' hfault => exact ⟨y.1, y.2, st', .of_history hbuild hrun, hfault⟩
    next => cases hcheck
  · have h : (Blueprint.trial (.lru {} false : Blueprint 1) ⟨Word.largest, 0, 0⟩
        [.insert ⟨1, Word.largest, 0, none⟩]).any (fun x =>
          decide (occupied x.2.1 = .ok Word.largest ∧ hasRoom x.2.1 1 = .ok true)) = true := by
      decide +kernel
    obtain ⟨⟨x, y⟩, htrial, hcheck⟩ := (Option.any_eq_true _ _).mp h
    obtain ⟨hbuild, responses, hrun⟩ := Blueprint.build_of_trial htrial
    obtain ⟨hoccupied, hroom⟩ := of_decide_eq_true hcheck
    exact ⟨y.1, y.2, .of_history hbuild hrun, hoccupied, hroom⟩

end World
end SegmentedCache
