import SegmentedCache.Proofs.Policy.Carrying

/-!
# When objects expire

An object that moves may get another expiry, if its own has come: then the new one is the
time of the move. But a lookup from then on cannot tell: the two agree on every later time.

The dates of a cache are the ids that its leaves find, with the expiries of their
objects. A dating policy answers a lookup by the date alone. It takes dates out or
renews them, and the only ones that it enters are those of the requests it admits. A
policy is dating if it carries its objects.
-/
namespace SegmentedCache

/-- The expiry has come. -/
def Due (expiry : Option Time) (time : Time) : Prop := ∃ e, expiry = some e ∧ e ≤ time

/-- From `now` on, one expiry has come whenever the other has. -/
def Agree (now : Time) (e e' : Option Time) : Prop :=
  ∀ time, now ≤ time → (Due e time ↔ Due e' time)

section
variable {now later : Time} {e e' e'' : Option Time}

theorem Agree.refl (now : Time) (e : Option Time) : Agree now e e := fun _ _ => Iff.rfl

theorem Agree.trans (h : Agree now e e') (k : Agree now e' e'') : Agree now e e'' :=
  fun time ht => (h time ht).trans (k time ht)

theorem Agree.mono (h : Agree now e e') (hle : now ≤ later) : Agree later e e' :=
  fun time ht => h time (UInt64.le_trans hle ht)

theorem CacheObject.expiredAt_iff {o : CacheObject} {time : Time} :
    o.expiredAt time = true ↔ Due o.expiry time := by
  unfold expiredAt Due
  cases o.expiry with
  | none => simp
  | some e => simp

theorem due_expiry_iff {r : Request} {time : Time} : Due r.expiry time ↔
    ∃ lifetime, r.lifetime = some lifetime ∧ Word.saturatingAdd r.time lifetime ≤ time := by
  simp [Due, Request.expiry]

/-- From the time of its move on, an object expires as if it had not moved. -/
theorem agree_renewal (now : Time) (e : Option Time) : Agree now e (renewal now e) := by
  intro time hnow
  unfold renewal Due
  cases e with
  | none => rfl
  | some e =>
    simp only [Option.map_some, Option.some.injEq, exists_eq_left']
    split
    next h => exact iff_of_true (UInt64.le_trans h hnow) hnow
    next => rfl

end

/-! ## Dates -/

namespace Lru

/-- The ids that some cache of a family finds, with the expiries of their objects. -/
def dates (st : Store) (cs : List Lru) : Set (ObjectId × Option Time) :=
  {x | ∃ c ∈ cs, ∃ o, c.find? st x.1 = some o ∧ o.expiry = x.2}

end Lru

namespace Policy
open SegmentedCache.Action
variable {now later : Time} {A B D : Set (ObjectId × Option Time)}

/-- Every date in `B` is one in `A`, or renews one: from `now` on they agree. -/
def Renews (now : Time) (A B : Set (ObjectId × Option Time)) : Prop :=
  ∀ x ∈ B, ∃ e, (x.1, e) ∈ A ∧ Agree now e x.2

theorem Renews.of_subset (h : B ⊆ A) : Renews now A B := fun x hx => ⟨x.2, h hx, Agree.refl _ _⟩

theorem Renews.trans (h : Renews now A B) (k : Renews now B D) : Renews now A D := by
  intro x hx
  obtain ⟨e, he, hagree⟩ := k x hx
  obtain ⟨e₀, he₀, hagree₀⟩ := h _ he
  exact ⟨e₀, he₀, hagree₀.trans hagree⟩

theorem Renews.mono (h : Renews now A B) (hle : now ≤ later) : Renews later A B := by
  intro x hx
  obtain ⟨e, he, hagree⟩ := h x hx
  exact ⟨e, he, hagree.mono hle⟩

theorem Renews.union (h : Renews now A B) (k : Renews now A D) : Renews now A (B ∪ D) :=
  fun x hx => hx.elim (h x) (k x)

variable {C : Type} [Policy C] {st st' : Store} {c c' : C}

/-- The ids that the leaves find, with the expiries of their objects. -/
def dates [Composed C] (st : Store) (c : C) : Set (ObjectId × Option Time) :=
  Lru.dates st (leaves c)

/-- The date of an object. -/
def dateOf (o : CacheObject) : ObjectId × Option Time := (o.id, o.expiry)

theorem dates_eq_image [Composed C] (st : Store) (c : C) : dates st c = dateOf '' finds st c := by
  ext ⟨id, e⟩
  constructor
  · rintro ⟨d, hd, o, ho, he⟩
    have hid := Lru.id_of_entry? (Lru.find?_eq_some_iff.mp ho).1
    exact ⟨o, ⟨d, hd, hid ▸ ho⟩, Prod.ext hid he⟩
  · rintro ⟨o, ⟨d, hd, ho⟩, hdate⟩
    obtain ⟨rfl, rfl⟩ := Prod.mk.inj hdate
    exact ⟨d, hd, o, ho, rfl⟩

theorem mem_held_iff_dates [Composed C] {id : ObjectId} :
    id ∈ held st c ↔ ∃ e, (id, e) ∈ dates st c := by
  rw [mem_held_iff_finds, dates_eq_image]
  constructor
  · rintro ⟨o, ho, rfl⟩
    exact ⟨o.expiry, o, ho, rfl⟩
  · rintro ⟨e, o, ho, hdate⟩
    exact ⟨o, ho, congrArg Prod.fst hdate⟩

/-- What a lookup answers and leaves, as far as dates go. -/
inductive Judged [Composed C] (r : Request) (update : Bool) (st : Store) (c : C) :
    Lookup → C → Store → Prop
  | unknown (absent : r.id ∉ held st c) : Judged r update st c .miss c st
  | expired {c' : C} {st' : Store} {e : Option Time} (dated : (r.id, e) ∈ dates st c)
    (due : Due e r.time) (renews : Renews r.time (dates st c) (dates st' c'))
    (gone : update = true → r.id ∉ held st' c') : Judged r update st c .expired c' st'
  | hit {c' : C} {st' : Store} {e : Option Time} (dated : (r.id, e) ∈ dates st c)
    (early : ¬ Due e r.time) (renews : Renews r.time (dates st c) (dates st' c')) :
    Judged r update st c .hit c' st'

theorem Judged.renews [Composed C] {r : Request} {update : Bool} {found : Lookup}
    (h : Judged r update st c found c' st') : Renews r.time (dates st c) (dates st' c') := by
  cases h with
  | unknown => exact .of_subset subset_rfl
  | expired _ _ renews _ => exact renews
  | hit _ _ renews => exact renews

/-- A lookup that is no hit leaves nothing under its id. -/
theorem Judged.notMem [Composed C] {r : Request} {found : Lookup}
    (h : Judged r true st c found c' st') (hmiss : found ≠ .hit) : r.id ∉ held st' c' := by
  cases h with
  | unknown absent => exact absent
  | expired _ _ _ gone => exact gone rfl
  | hit => exact absurd rfl hmiss

/-- The dates after an insertion. A new object is the only one under its id. -/
inductive Entered (r : Request) (A : Set (ObjectId × Option Time)) :
    Option CacheObject → Set (ObjectId × Option Time) → Prop
  | refused {B : Set (ObjectId × Option Time)} (subset : B ⊆ A) : Entered r A none B
  | admitted {B : Set (ObjectId × Option Time)} {o : CacheObject}
    (subset : B ⊆ {x ∈ A | x.1 ≠ r.id} ∪ {(r.id, r.expiry)}) : Entered r A (some o) B

/-- A policy by whose dates lookups are answered, and that invents none. -/
class Dating (C : Type) [Policy C] [Lawful C] : Prop where
  judged_check : ∀ {st st' : Store} {c c' : C} {r : Request} {update : Bool} {found : Lookup},
    Sound st c → (check r update).Yields c st found c' st' → Judged r update st c found c' st'
  entered_insert : ∀ {st st' : Store} {c c' : C} {r : Request} {res : Option CacheObject},
    Sound st c → (insert r).Yields c st res c' st' → Entered r (dates st c) res (dates st' c')
  dates_evict : ∀ {st st' : Store} {c c' : C} {victim : Option CacheObject}, Sound st c →
    Yields evict c st victim c' st' →
      dates st' c' ⊆ dates st c ∧ ∀ o, victim = some o → (o.id, o.expiry) ∈ dates st c
  dates_remove : ∀ {st st' : Store} {c c' : C} {id : ObjectId} {removed : Option CacheObject},
    Sound st c → (remove id).Yields c st removed c' st' →
      dates st' c' ⊆ dates st c ∧ ∀ o, removed = some o → (o.id, o.expiry) ∈ dates st c
  /-- A request is a lookup and, unless that is a hit, an insertion perhaps. -/
  judged_serve : ∀ {st st' : Store} {c c' : C} {r : Request} {found : Lookup}, Sound st c →
    (serve r).Yields c st found c' st' → ∃ c₁ st₁, Judged r true st c found c₁ st₁ ∧
      (found = .hit → dates st' c' = dates st₁ c₁) ∧
      (found ≠ .hit → dates st' c' ⊆ dates st₁ c₁ ∪ {(r.id, r.expiry)})

/-! ## Carried objects keep their dates -/

variable {O P : Set CacheObject} {r : Request}

theorem Carries.renews (h : Carries now O P) : Renews now (dateOf '' O) (dateOf '' P) := by
  rintro _ ⟨o', ho', rfl⟩
  rcases h o' ho' with ho | ⟨o, ho, hmoved⟩
  · exact ⟨o'.expiry, ⟨o', ho, rfl⟩, Agree.refl _ _⟩
  · refine ⟨o.expiry, ⟨o, ho, Prod.ext hmoved.id.symm rfl⟩, ?_⟩
    rw [dateOf, hmoved.expiry]
    exact agree_renewal now o.expiry

theorem image_madeFor_subset : dateOf '' madeFor r ⊆ {(r.id, r.expiry)} := by
  rintro _ ⟨o, ho, rfl⟩
  exact Prod.ext ho.id ho.expiry

theorem Lodged.entered {res : Option CacheObject} (h : Lodged r O res P) :
    Entered r (dateOf '' O) res (dateOf '' P) := by
  cases h with
  | refused hsub => exact .refused (Set.image_mono hsub)
  | admitted hsub =>
    refine .admitted ((Set.image_mono hsub).trans ?_)
    rw [Set.image_union]
    refine Set.union_subset_union ?_ image_madeFor_subset
    rintro _ ⟨o, ⟨ho, hid⟩, rfl⟩
    exact ⟨⟨o, ho, rfl⟩, hid⟩

theorem Looked.judged [Composed C] {update : Bool} {found : Lookup}
    (h : Looked r update st c found c' st') : Judged r update st c found c' st' := by
  have hdated : ∀ o ∈ finds st c, o.id = r.id → (r.id, o.expiry) ∈ dates st c := by
    intro o ho hid
    rw [dates_eq_image]
    exact ⟨o, ho, Prod.ext hid rfl⟩
  have hrenews := h.carries.renews
  rw [← dates_eq_image, ← dates_eq_image] at hrenews
  cases h with
  | unknown absent => exact .unknown absent
  | expired hfound hid stale _ gone =>
    exact .expired (hdated _ hfound hid) (CacheObject.expiredAt_iff.mp stale) hrenews gone
  | hit hfound hid alive _ =>
    refine .hit (hdated _ hfound hid) (fun hdue => ?_) hrenews
    rw [CacheObject.expiredAt_iff.mpr hdue] at alive
    cases alive

instance [Lawful C] [Carrying C] : Dating C where
  judged_check h hy := (Carrying.looked_check h hy).judged
  entered_insert h hy := by
    rw [dates_eq_image, dates_eq_image]
    exact (Carrying.lodged_insert h hy).entered
  dates_evict h hy := by
    obtain ⟨hsub, hv⟩ := Carrying.finds_evict h hy
    rw [dates_eq_image, dates_eq_image]
    exact ⟨Set.image_mono hsub, fun o ho => ⟨o, hv o ho, rfl⟩⟩
  dates_remove h hy := by
    obtain ⟨hsub, ho⟩ := Carrying.finds_remove h hy
    rw [dates_eq_image, dates_eq_image]
    exact ⟨Set.image_mono hsub, fun o hr => ⟨o, ho o hr, rfl⟩⟩
  judged_serve h hy := by
    obtain ⟨c₁, st₁, hlooked, hsame, hsub⟩ := Carrying.looked_serve h hy
    refine ⟨c₁, st₁, hlooked.judged, fun hhit => ?_, fun hmiss => ?_⟩
    · rw [dates_eq_image, dates_eq_image, hsame hhit]
    · rw [dates_eq_image, dates_eq_image]
      refine (Set.image_mono (hsub hmiss)).trans ?_
      rw [Set.image_union]
      exact Set.union_subset_union_right _ image_madeFor_subset

end Policy
end SegmentedCache
