import SegmentedCache.Proofs.Tier.Dating
import SegmentedCache.Proofs.World.Demotions

/-!
# Moves among clients

An operation on a cache leaves the objects in it as they are, or moves them, and at most
one object enters for the request itself. An object that moves is replaced by one of the
same id and size. As long as its expiry has not come by the clock of the operation, the new
object has the same expiry, whatever clocks there were before. An object that is moved
after its expiry gets the time of that operation for its expiry. So a client whose clock
goes back finds it alive at a time at which it was expired before the move.
-/
namespace SegmentedCache

namespace Policy
open SegmentedCache.Action
variable {C : Type} [Policy C] [Lawful C] {st st' : Store} {c c' : C} {o o' : CacheObject}

theorem Sound.eq_of_id_eq (h : Sound st c) (ho : o ∈ finds st c) (ho' : o' ∈ finds st c)
    (hid : o'.id = o.id) : o' = o := Lru.Sole.eq_of_id_eq h.sole ho ho' hid

/-- The first leaf that finds the id finds it for the cache. -/
theorem mem_finds_of_findSome? {id : ObjectId}
    (h : ((leaves c).findSome? fun d => d.find? st id) = some o) : o ∈ finds st c ∧ o.id = id := by
  obtain ⟨d, hd, ho⟩ := List.exists_of_findSome?_eq_some h
  have hid := Lru.id_of_entry? (Lru.find?_eq_some_iff.mp ho).1
  exact ⟨⟨d, hd, hid ▸ ho⟩, hid⟩

/-- What an operation leaves in a cache was there, or was admitted by it, or was moved. -/
theorem carries_perform [Carrying C] {op : Operation} {response : Response} (h : Sound st c)
    (hy : (perform op).Yields c st response c' st') (ho : o' ∈ finds st' c') :
    o' ∈ finds st c ∨
    (∃ r, Account.admitted c' st' op response = some r ∧ Lru.Made r o') ∨
    ∃ now, op.time? = some now ∧ ∃ o ∈ finds st c, Remade now o o' := by
  cases op with
  | check r update =>
    obtain ⟨found, hcheck, rfl⟩ := yields_map_iff.mp hy
    exact ((Carrying.looked_check h hcheck).carries o' ho).imp_right fun hmoved =>
      .inr ⟨r.time, rfl, hmoved⟩
  | evict =>
    obtain ⟨victim, hevict, rfl⟩ := yields_map_iff.mp hy
    exact .inl ((Carrying.finds_evict h hevict).1 ho)
  | remove id =>
    obtain ⟨removed, hremove, rfl⟩ := yields_map_iff.mp hy
    exact .inl ((Carrying.finds_remove h hremove).1 ho)
  | insert r =>
    obtain ⟨res, hinsert, rfl⟩ := yields_map_iff.mp hy
    cases Carrying.lodged_insert h hinsert with
    | refused hsub => exact .inl (hsub ho)
    | admitted hsub =>
      exact (hsub ho).imp (fun hold => hold.1) fun hmade => .inl ⟨r, rfl, hmade⟩
  | serve r =>
    obtain ⟨found, hserve, rfl⟩ := yields_map_iff.mp hy
    obtain ⟨c₁, st₁, hlooked, hsame, hsub⟩ := Carrying.looked_serve h hserve
    have hcases : o' ∈ finds st₁ c₁ ∨ (found ≠ .hit ∧ Lru.Made r o') := by
      by_cases hhit : found = .hit
      · exact .inl (hsame hhit ▸ ho)
      · exact (hsub hhit ho).imp_right fun hmade => ⟨hhit, hmade⟩
    rcases hcases with hold | ⟨hmiss, hmade⟩
    · exact (hlooked.carries o' hold).imp_right fun hmoved => .inr ⟨r.time, rfl, hmoved⟩
    · have hheld : contains st' c' r.id = true := by
        rw [Lawful.contains_iff]
        exact mem_held_iff_finds.mpr ⟨o', ho, hmade.id⟩
      exact .inr (.inl ⟨r, if_pos ⟨hmiss, hheld⟩, hmade⟩)

end Policy

namespace World
open Policy
variable {w : World} {m : Member}

/-- In every world, what an operation leaves in a cache was there before, or was admitted by
it, or takes the place of one object that was there, with its id and size. It has the expiry
of that object too, unless this has come by the clock of the operation: then its expiry is
that clock. -/
theorem Reachable.moves_keep_expiry (h : Reachable w) (hm : m ∈ w.members) {op : Operation}
    {response : Response} {t : Tier m.depth} {st : Store}
    (hy : (perform op).Yields m.tier w.store response t st) {o' : CacheObject}
    (ho : o' ∈ finds st t) :
    o' ∈ finds w.store m.tier ∨
    (∃ r, Account.admitted t st op response = some r ∧ Lru.Made r o') ∨
    ∃ now, op.time? = some now ∧ ∃ o ∈ finds w.store m.tier, o ∉ finds st t ∧
      o'.id = o.id ∧ o'.size = o.size ∧
      o'.expiry = if o.expiredAt now then some now else o.expiry := by
  have hsound : Policy.Sound w.store m.tier := h.sound.member m hm
  by_cases hold : o' ∈ finds w.store m.tier
  · exact .inl hold
  refine .inr (((carries_perform hsound hy ho).resolve_left hold).imp_right ?_)
  rintro ⟨now, htime, o, hfound, hmoved⟩
  refine ⟨now, htime, o, hfound, fun hstays => ?_, hmoved.id, hmoved.size, ?_⟩
  · have hafter := ((ensures_perform hsound op).apply hy).toSound
    rw [hafter.eq_of_id_eq hstays ho hmoved.id] at hold
    exact hold hfound
  · rw [hmoved.expiry]
    split
    next hstale => exact renewal_of_expiredAt hstale
    next halive => exact renewal_of_alive (Bool.eq_false_iff.mpr halive)

/-- An object that expires at 5 is in the upper one of two segments, and another below. -/
def aging : World :=
  (((empty.build (.ofLrus {} false 2 : Blueprint 1) ⟨20, 0, 0⟩).work
    (.serve ⟨1, 10, 0, some 5⟩)).work (.serve ⟨1, 10, 1, none⟩)).work (.serve ⟨2, 10, 2, none⟩)

theorem reachable_aging : Reachable aging :=
  (((Reachable.start.build _ _).work _).work _).work _

/-- The response to an operation, with the objects found under an id before and after it. -/
def succession (w : World) (m : Member) (op : Operation) (id : ObjectId) :
    Option (Response × CacheObject × CacheObject) :=
  match perform op m.tier w.store with
  | .ok (response, t) st => do
    let before ← (Policy.leaves m.tier).findSome? fun c => c.find? w.store id
    let after ← (Policy.leaves t).findSome? fun c => c.find? st id
    pure (response, before, after)
  | .error _ _ => none

theorem exists_of_succession {op : Operation} {id : ObjectId} {response : Response}
    {o o' : CacheObject} (h : succession w m op id = some (response, o, o')) :
    ∃ t st, (perform op).Yields m.tier w.store response t st ∧
      (o ∈ finds w.store m.tier ∧ o.id = id) ∧ o' ∈ finds st t ∧ o'.id = id := by
  unfold succession at h
  split at h
  next response' t st hy =>
    obtain ⟨before, hbefore, h⟩ := Option.bind_eq_some_iff.mp h
    obtain ⟨after, hafter, h⟩ := Option.bind_eq_some_iff.mp h
    cases Option.some.inj h
    exact ⟨t, st, hy, mem_finds_of_findSome? hbefore, mem_finds_of_findSome? hafter⟩
  next => cases h

/-- The object is demoted before it expires. -/
theorem moves_keep_expiry_aging :
    ∃ m ∈ aging.members, ∃ t st, ∃ o' ∈ finds st t,
      (perform (.serve ⟨2, 10, 3, none⟩)).Yields m.tier aging.store (.found .hit) t st ∧
      o'.id = 1 ∧ o' ∉ finds aging.store m.tier ∧
      ∃ o ∈ finds aging.store m.tier, o ∉ finds st t ∧ o'.id = o.id ∧ o'.size = o.size ∧
        o'.expiry = if o.expiredAt 3 then some 3 else o.expiry := by
  have hrun : ∃ m ∈ aging.members, (succession aging m (.serve ⟨2, 10, 3, none⟩) 1).any
      (fun x => x.1 == .found .hit && x.2.1.serial != x.2.2.serial) = true := by
    decide +kernel
  obtain ⟨m, hm, hrun⟩ := hrun
  obtain ⟨⟨response, o, o'⟩, hsuccession, hrun⟩ := (Option.any_eq_true _ _).mp hrun
  rw [Bool.and_eq_true, beq_iff_eq, bne_iff_ne] at hrun
  obtain ⟨rfl, hserial⟩ := hrun
  obtain ⟨t, st, hy, ⟨ho, hid⟩, ho', hid'⟩ := exists_of_succession hsuccession
  have hnew : o' ∉ finds aging.store m.tier := fun hold =>
    hserial (congrArg CacheObject.serial
      ((reachable_aging.sound.member m hm).eq_of_id_eq hold ho (hid.trans hid'.symm)))
  rcases reachable_aging.moves_keep_expiry hm hy ho' with hold | ⟨r, hadmitted, -⟩ | hmoved
  · exact absurd hold hnew
  · cases hadmitted
  · obtain ⟨now, htime, hreplaced⟩ := hmoved
    obtain rfl := Option.some.inj htime
    exact ⟨m, hm, t, st, o', ho', hy, hid', hnew, hreplaced⟩

/-- The object is demoted after it has expired, and expires fifteen units later then. -/
theorem move_loses_expiry :
    ¬ ∀ w, Reachable w → ∀ m ∈ w.members, m.segmented?.isSome = true →
      ∀ op response t st, (perform op).Yields m.tier w.store response t st →
      Account.admitted t st op response = none →
      ∀ o ∈ finds w.store m.tier, ∀ o' ∈ finds st t, o'.id = o.id →
        o'.size = o.size ∧ o'.expiry = o.expiry := by
  intro hall
  have hrun : ∃ m ∈ aging.members, m.segmented?.isSome = true ∧
      (succession aging m (.serve ⟨2, 10, 20, none⟩) 1).any (fun x =>
        x.1 == .found .hit && x.2.1.expiry == some 5 && x.2.2.expiry == some 20) = true := by
    decide +kernel
  obtain ⟨m, hm, hsegmented, hrun⟩ := hrun
  obtain ⟨⟨response, o, o'⟩, hsuccession, hrun⟩ := (Option.any_eq_true _ _).mp hrun
  simp only [Bool.and_eq_true, beq_iff_eq] at hrun
  obtain ⟨⟨rfl, hbefore⟩, hafter⟩ := hrun
  obtain ⟨t, st, hy, ⟨ho, hid⟩, ho', hid'⟩ := exists_of_succession hsuccession
  have hkept := (hall aging reachable_aging m hm hsegmented _ _ t st hy rfl o ho o' ho'
    (hid'.trans hid.symm)).2
  rw [hbefore, hafter] at hkept
  cases hkept

end World
end SegmentedCache
