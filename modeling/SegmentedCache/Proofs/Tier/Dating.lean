import SegmentedCache.Proofs.Policy.Dating
import SegmentedCache.Proofs.Tier.Building
import SegmentedCache.Proofs.Tier.Carrying

/-!
# Expiry at any depth

A client keeps an account of a tier: for every id, the last request that admitted an
object under it. If the times of its operations never decrease, the account decides
every lookup. The tier moves objects between its segments and makes them anew with the
lifetime that is left, at the time of whatever request it serves, but it never finds an
object expired too early or too late.
-/
namespace SegmentedCache

/-! ## Accounts -/

/-- The time of an operation, if it has one. -/
def Operation.time? : Operation → Option Time
  | .serve r => some r.time
  | .check r _ => some r.time
  | .insert r => some r.time
  | .evict => none
  | .remove _ => none

/-- A cache with what a client knows of it: the time of the last operation and, for every
id, the request that was the last to be admitted under it. -/
structure Account (C : Type) where
  now : Time := 0
  last : ObjectId → Option Request := fun _ => none
  cache : C
  store : Store

namespace Account
open SegmentedCache.Action Policy
variable {C : Type} [Policy C] {a : Account C} {op : Operation} {response : Response}
variable {c : C} {st : Store}

/-- The request that an operation was seen to admit. After a request that was no hit,
this is seen from its id being cached. -/
def admitted (c : C) (st : Store) : Operation → Response → Option Request
  | .insert r, .object (some _) => some r
  | .serve r, .found found => if found ≠ .hit ∧ contains st c r.id = true then some r else none
  | _, _ => none

def enter (last : ObjectId → Option Request) : Option Request → ObjectId → Option Request
  | none => last
  | some r => Function.update last r.id (some r)

/-- The account after an operation. -/
def after (a : Account C) (op : Operation) (response : Response) (c : C) (st : Store) :
    Account C where
  now := op.time?.getD a.now
  last := enter a.last (admitted c st op response)
  cache := c
  store := st

/-- The dates that the account tells. -/
def told (last : ObjectId → Option Request) : Set (ObjectId × Option Time) :=
  {x | ∃ r, last x.1 = some r ∧ r.expiry = x.2}

/-- The account tells the dates of the cache as well as they can be known. -/
structure Tells [Lawful C] (a : Account C) : Prop where
  sound : Sound a.store a.cache
  renews : Renews a.now (told a.last) (dates a.store a.cache)

/-- A request is entered that takes the place of whatever was admitted under its id. -/
theorem renews_enter {last : ObjectId → Option Request} {now : Time} {r : Request}
    {A : Set (ObjectId × Option Time)} (h : Renews now (told last) A) (hA : ∀ x ∈ A, x.1 ≠ r.id) :
    Renews now (told (enter last (some r))) (A ∪ {(r.id, r.expiry)}) := by
  refine .union (fun x hx => ?_) (.of_subset ?_)
  · obtain ⟨e, ⟨q, hq, he⟩, hagree⟩ := h x hx
    exact ⟨e, ⟨q, (Function.update_of_ne (hA x hx) _ _).trans hq, he⟩, hagree⟩
  · rintro x rfl
    exact ⟨r, Function.update_self _ _ _, rfl⟩

variable [Lawful C]

/-- A lookup finds what is cached, and the account decides whether it has expired. -/
theorem Tells.decides (h : a.Tells) {r : Request} (later : a.now ≤ r.time) {update : Bool}
    {found : Lookup} (hj : Judged r update a.store a.cache found c st) :
    (found = .miss ↔ contains a.store a.cache r.id = false) ∧
    (found ≠ .miss → ∃ q, a.last r.id = some q ∧
      (found = .expired ↔
        ∃ lifetime, q.lifetime = some lifetime ∧ Word.saturatingAdd q.time lifetime ≤ r.time)) := by
  have hheld : ∀ e, (r.id, e) ∈ dates a.store a.cache →
      contains a.store a.cache r.id = true ∧
        ∃ q, a.last r.id = some q ∧ (Due e r.time ↔ Due q.expiry r.time) := by
    intro e he
    obtain ⟨_, ⟨q, hq, rfl⟩, hagree⟩ := h.renews _ he
    exact ⟨(Lawful.contains_iff _ _ _).mpr (mem_held_iff_dates.mpr ⟨e, he⟩), q, hq,
      (hagree r.time later).symm⟩
  simp only [← due_expiry_iff]
  cases hj with
  | unknown absent =>
    refine ⟨iff_of_true rfl ?_, fun hne => absurd rfl hne⟩
    rwa [← Bool.not_eq_true, Lawful.contains_iff]
  | expired dated due =>
    obtain ⟨hcontains, q, hq, hiff⟩ := hheld _ dated
    exact ⟨by simp [hcontains], fun _ => ⟨q, hq, iff_of_true rfl (hiff.mp due)⟩⟩
  | hit dated early =>
    obtain ⟨hcontains, q, hq, hiff⟩ := hheld _ dated
    exact ⟨by simp [hcontains], fun _ => ⟨q, hq, by simp [← hiff, early]⟩⟩

variable [Dating C]

theorem Tells.perform (h : a.Tells) (later : ∀ time, op.time? = some time → a.now ≤ time)
    (hy : (perform op).Yields a.cache a.store response c st) : (a.after op response c st).Tells := by
  refine ⟨((ensures_perform h.sound op).apply hy).toSound, ?_⟩
  cases op with
  | check r update =>
    obtain ⟨found, hcheck, rfl⟩ := yields_map_iff.mp hy
    have hj := Dating.judged_check h.sound hcheck
    exact (h.renews.mono (later r.time rfl)).trans hj.renews
  | evict =>
    obtain ⟨victim, hevict, rfl⟩ := yields_map_iff.mp hy
    exact h.renews.trans (.of_subset (Dating.dates_evict h.sound hevict).1)
  | remove id =>
    obtain ⟨removed, hremove, rfl⟩ := yields_map_iff.mp hy
    exact h.renews.trans (.of_subset (Dating.dates_remove h.sound hremove).1)
  | insert r =>
    obtain ⟨res, hinsert, rfl⟩ := yields_map_iff.mp hy
    have hold := h.renews.mono (later r.time rfl)
    cases Dating.entered_insert h.sound hinsert with
    | refused hsub => exact hold.trans (.of_subset hsub)
    | admitted hsub =>
      refine .trans (renews_enter (r := r) ?_ fun x hx => hx.2) (.of_subset hsub)
      exact hold.trans (.of_subset (Set.sep_subset _ _))
  | serve r =>
    obtain ⟨found, hserve, rfl⟩ := yields_map_iff.mp hy
    obtain ⟨c₁, st₁, hj, hsame, hsub⟩ := Dating.judged_serve h.sound hserve
    have hlooked : Renews r.time (told a.last) (dates st₁ c₁) :=
      (h.renews.mono (later r.time rfl)).trans hj.renews
    by_cases hhit : found = .hit
    · rw [hhit] at hsame ⊢
      change Renews r.time (told a.last) (dates st c)
      rwa [hsame rfl]
    · have hgone : ∀ x ∈ dates st₁ c₁, x.1 ≠ r.id := fun x hx hid =>
        hj.notMem hhit (mem_held_iff_dates.mpr ⟨x.2, hid ▸ hx⟩)
      change Renews r.time (told (enter a.last
        (if found ≠ .hit ∧ contains st c r.id = true then some r else none))) (dates st c)
      split
      next => exact (renews_enter hlooked hgone).trans (.of_subset (hsub hhit))
      next hnot =>
        have habsent : r.id ∉ held st c := fun hid =>
          hnot ⟨hhit, (Lawful.contains_iff st c r.id).mpr hid⟩
        refine hlooked.trans (.of_subset fun x hx => (hsub hhit hx).resolve_right ?_)
        rintro rfl
        exact habsent (mem_held_iff_dates.mpr ⟨_, hx⟩)

/-- Keeps the account of one more operation, if it is not too early and does not fault. -/
def attend (a : Account C) (op : Operation) : Option (Account C) :=
  if op.time?.all fun time => a.now ≤ time then
    match perform op a.cache a.store with
    | .ok (response, c) st => some (a.after op response c st)
    | .error _ _ => none
  else none

end Account

namespace Blueprint
open SegmentedCache.Action Policy
variable {d : Nat} {b : Blueprint d} {p : Params} {a a' : Account (Tier d)}

/-- The accounts that are kept of what is built, while times never decrease. -/
inductive Attended (b : Blueprint d) (p : Params) : Account (Tier d) → Prop
  | built {st₀ st : Store} {t : Tier d} (h : (b.build p).run st₀ = .ok (.ok t) st) :
    Attended b p { cache := t, store := st }
  | performed {a : Account (Tier d)} (h : Attended b p a) (op : Operation)
    (later : ∀ time, op.time? = some time → a.now ≤ time) {response : Response} {t : Tier d}
    {st : Store} (hy : (perform op).Yields a.cache a.store response t st) :
    Attended b p (a.after op response t st)

theorem Attended.tells (h : Attended b p a) : a.Tells := by
  induction h with
  | @built st₀ st t h =>
    obtain ⟨-, hbuilt⟩ := b.leads_build p st₀ _ _ h
    have hnew := (hbuilt t rfl).1
    refine ⟨.of_new hnew, fun x hx => ?_⟩
    -- A new leaf finds nothing.
    obtain ⟨c, hc, o, ho, -⟩ := hx
    have hentry := (hnew.unused c hc).entry?_eq x.1
    rw [(Lru.find?_eq_some_iff.mp ho).1] at hentry
    cases hentry
  | performed _ op later hy ih => exact ih.perform later hy

/-- Whatever was moved in between, a lookup of a cached id tells whether the lifetime of
the request that was the last to be admitted under it has passed. -/
theorem Attended.expired_iff (h : Attended b p a) {r : Request} (later : a.now ≤ r.time)
    {found : Lookup} {t : Tier d} {st : Store}
    (hy : (serve r).Yields a.cache a.store found t st ∨
      ∃ update, (check r update).Yields a.cache a.store found t st) :
    (found = .miss ↔ contains a.store a.cache r.id = false) ∧
    (found ≠ .miss → ∃ q, a.last r.id = some q ∧
      (found = .expired ↔
        ∃ lifetime, q.lifetime = some lifetime ∧ Word.saturatingAdd q.time lifetime ≤ r.time)) := by
  have ht := h.tells
  rcases hy with hserve | ⟨update, hcheck⟩
  · obtain ⟨t₁, st₁, hj, -⟩ := Dating.judged_serve ht.sound hserve
    exact ht.decides later hj
  · exact ht.decides later (Dating.judged_check ht.sound hcheck)

/-! ## An account that computes -/

theorem Attended.attend (h : Attended b p a) {op : Operation} (ha : a.attend op = some a') :
    Attended b p a' := by
  unfold Account.attend at ha
  split at ha
  next later =>
    split at ha
    next response t st hy =>
      obtain rfl := Option.some.inj ha
      refine h.performed op (fun time ht => ?_) hy
      rw [ht] at later
      exact of_decide_eq_true later
    next => cases ha
  next => cases ha

theorem Attended.foldlM (h : Attended b p a) {ops : List Operation}
    (ha : ops.foldlM Account.attend a = some a') : Attended b p a' := by
  induction ops generalizing a with
  | nil => exact Option.some.inj ha ▸ h
  | cons op rest ih =>
    rw [List.foldlM_cons] at ha
    obtain ⟨a₁, hop, hrest⟩ := Option.bind_eq_some_iff.mp ha
    exact ih (h.attend hop) hrest

/-- The account of a tier that is built in an empty store and performs the operations. -/
def attendAll (b : Blueprint d) (p : Params) (ops : List Operation) : Option (Account (Tier d)) :=
  match (b.build p).run {} with
  | .ok (.ok t) st => ops.foldlM Account.attend { cache := t, store := st }
  | _ => none

theorem attended_of_attendAll {ops : List Operation} (h : attendAll b p ops = some a) :
    Attended b p a := by
  unfold attendAll at h
  split at h
  next t st hbuild => exact (Attended.built hbuild).foldlM h
  next => cases h

/-- Two objects are promoted, and the second drives the first one down again. -/
def revisits : List Operation :=
  [.serve ⟨1, 6, 0, some 10⟩, .serve ⟨1, 6, 1, none⟩, .serve ⟨2, 6, 2, none⟩,
    .serve ⟨2, 6, 3, none⟩]

/-- The first object was made anew twice and expires ten units after it came. -/
theorem expired_iff_revisits :
    ∃ (a : Account (Tier 1)) (t t' : Tier 1) (st st' : Store) (q : Request),
      Attended (.ofLrus {} false 2) ⟨20, 0, 0⟩ a ∧
      (∃ counters, a.cache.counters = .inr counters ∧ counters.promotions = 2 ∧
        counters.demotions = 1) ∧
      (check ⟨1, 6, 9, none⟩ false).Yields a.cache a.store .hit t st ∧
      (check ⟨1, 6, 10, none⟩ false).Yields a.cache a.store .expired t' st' ∧
      a.last 1 = some q ∧
      ∃ lifetime, q.lifetime = some lifetime ∧ Word.saturatingAdd q.time lifetime ≤ 10 := by
  have h : (attendAll (.ofLrus {} false 2 : Blueprint 1) ⟨20, 0, 0⟩ revisits).any (fun a =>
        decide (a.now ≤ 10) &&
        (match a.cache.counters with
          | .inl _ => false
          | .inr counters => counters.promotions == 2 && counters.demotions == 1) &&
        (match check ⟨1, 6, 9, none⟩ false a.cache a.store with
          | .ok (found, _) _ => found == .hit
          | .error _ _ => false) &&
        (match check ⟨1, 6, 10, none⟩ false a.cache a.store with
          | .ok (found, _) _ => found == .expired
          | .error _ _ => false)) = true := by
    decide +kernel
  obtain ⟨a, ha, hcheck⟩ := (Option.any_eq_true _ _).mp h
  have hattended := attended_of_attendAll ha
  simp only [Bool.and_eq_true, decide_eq_true_eq] at hcheck
  obtain ⟨⟨⟨later, hmoves⟩, hearly⟩, hlate⟩ := hcheck
  split at hmoves
  next => cases hmoves
  next counters hcounters =>
    split at hearly
    next found t st hy =>
      obtain rfl := eq_of_beq hearly
      split at hlate
      next found t' st' hy' =>
        obtain rfl := eq_of_beq hlate
        obtain ⟨q, hq, hiff⟩ :=
          (hattended.expired_iff later (.inr ⟨false, hy'⟩)).2 (by decide)
        simp only [Bool.and_eq_true, beq_iff_eq] at hmoves
        exact ⟨a, t, t', st, st', q, hattended, ⟨counters, hcounters, hmoves⟩, hy, hy', hq,
          hiff.mp rfl⟩
      next => cases hlate
    next => cases hearly

end Blueprint
end SegmentedCache
