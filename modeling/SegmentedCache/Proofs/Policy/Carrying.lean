import SegmentedCache.Proofs.Lru.Lawful
import SegmentedCache.Proofs.Policy.Peeking

/-!
# What becomes of the objects

An object moves by being made anew, with the lifetime that it has left and at the time of
the request that moves it. Its id and size stay. Its expiry stays too, to the instant, as
long as it has not come. But once it has come, there is no lifetime left to carry over, and
the new object has the time of the move for its expiry.

The finds of a cache are the objects that its leaves find. A carrying policy makes up none
of them: what it finds after its work, it found before, or has made anew from such an
object, or has made for a request that it admitted.
-/
namespace SegmentedCache

/-- The expiry after a move at the time `now`. -/
def renewal (now : Time) (expiry : Option Time) : Option Time :=
  expiry.map fun e => if e ≤ now then now else e

section
variable {now : Time} {o : CacheObject} {e : Option Time}

theorem renewal_of_expiredAt (h : o.expiredAt now = true) : renewal now o.expiry = some now := by
  unfold CacheObject.expiredAt at h
  unfold renewal
  cases hexpiry : o.expiry with
  | none => simp [hexpiry] at h
  | some e =>
    rw [hexpiry] at h
    rw [Option.map_some, if_pos (of_decide_eq_true h)]

theorem renewal_of_alive (h : o.expiredAt now = false) : renewal now o.expiry = o.expiry := by
  unfold CacheObject.expiredAt at h
  unfold renewal
  cases hexpiry : o.expiry with
  | none => rfl
  | some e =>
    rw [hexpiry] at h
    rw [Option.map_some, if_neg (of_decide_eq_false h)]

theorem renewal_renewal : renewal now (renewal now e) = renewal now e := by
  unfold renewal
  cases e with
  | none => rfl
  | some e =>
    simp only [Option.map_some, Option.some.injEq]
    split <;> simp_all

/-- The lifetime that is left leads back to the expiry, unless that has come. -/
theorem expiry_readmitting (o : CacheObject) (now : Time) :
    (Request.readmitting o now).expiry = renewal now o.expiry := by
  unfold Request.readmitting Request.expiry renewal
  cases o.expiry with
  | none => rfl
  | some e =>
    have he := e.toNat_lt_size
    simp only [Option.map_some, Option.some.injEq]
    rw [← UInt64.toNat_inj, Word.toNat_saturatingAdd, Word.toNat_saturatingSub]
    split
    next h =>
      rw [UInt64.le_iff_toNat_le] at h
      have hnow := now.toNat_lt_size
      omega
    next h =>
      rw [UInt64.le_iff_toNat_le] at h
      omega

end

/-- One object was made anew from another by moves at the time `now`. -/
structure Remade (now : Time) (o o' : CacheObject) : Prop where
  id : o'.id = o.id
  size : o'.size = o.size
  expiry : o'.expiry = renewal now o.expiry

theorem Remade.trans {now : Time} {o o' o'' : CacheObject} (h : Remade now o o')
    (k : Remade now o' o'') : Remade now o o'' where
  id := k.id.trans h.id
  size := k.size.trans h.size
  expiry := by rw [k.expiry, h.expiry, renewal_renewal]

/-! ## Finds -/

namespace Lru
variable {st st' : Store} {cs cs' ds : List Lru} {o o' : CacheObject}

/-- The objects that some cache of a family finds. -/
def finds (st : Store) (cs : List Lru) : Set CacheObject :=
  {o | ∃ c ∈ cs, c.find? st o.id = some o}

@[simp] theorem finds_append : finds st (cs ++ ds) = finds st cs ∪ finds st ds := by
  ext o
  simp only [finds, List.mem_append, Set.mem_ofPred_eq, Set.mem_union, or_and_right, exists_or]

theorem finds_perm (h : cs.Perm ds) : finds st cs = finds st ds := by
  ext o
  simp only [finds, h.mem_iff]

/-- The rest of a family keeps its finds. -/
theorem finds_of_confined (h : Together st (cs ++ ds)) (k : Confined st cs st' cs') :
    finds st' ds = finds st ds := by
  ext o
  refine exists_congr fun d => and_congr_right fun hd => ?_
  rw [k.find?_eq (h.right.linked d hd) (h.apart_of_mem hd)]

/-- Where no id is found twice, an object is known by its id. -/
theorem Sole.eq_of_id_eq (h : Sole st cs) (ho : o ∈ finds st cs) (ho' : o' ∈ finds st cs)
    (hid : o'.id = o.id) : o' = o := by
  obtain ⟨c, hc, hfind⟩ := ho
  obtain ⟨c', hc', hfind'⟩ := ho'
  rw [hid] at hfind'
  have hsame : c' = c := by
    by_contra hne
    have hsymm : Std.Symm fun c d : Lru => Disjoint (c.ids st) (d.ids st) :=
      ⟨fun _ _ hdisjoint => hdisjoint.symm⟩
    exact Set.disjoint_left.mp (List.Pairwise.forall h hc' hc hne)
      (mem_ids_iff.mpr ⟨o', hfind'⟩) (mem_ids_iff.mpr ⟨o, hfind⟩)
  rw [hsame, hfind] at hfind'
  exact (Option.some.inj hfind').symm

end Lru

namespace Policy
open SegmentedCache.Action
variable {now : Time} {A B D : Set CacheObject} {o : CacheObject} {r : Request}

/-- The objects that admit the request. -/
def madeFor (r : Request) : Set CacheObject := {o | Lru.Made r o}

/-- Every object in `B` is one in `A`, or was made anew from one by moves at `now`. -/
def Carries (now : Time) (A B : Set CacheObject) : Prop :=
  ∀ o' ∈ B, o' ∈ A ∨ ∃ o ∈ A, Remade now o o'

theorem Carries.of_subset (h : B ⊆ A) : Carries now A B := fun _ ho => .inl (h ho)

theorem Carries.trans (h : Carries now A B) (k : Carries now B D) : Carries now A D := by
  intro o'' ho
  rcases k o'' ho with ho | ⟨o', ho, hmoved⟩
  · exact h o'' ho
  · rcases h o' ho with ho | ⟨o, ho, hbefore⟩
    · exact .inr ⟨o', ho, hmoved⟩
    · exact .inr ⟨o, ho, hbefore.trans hmoved⟩

theorem Carries.union (h : Carries now A B) (k : Carries now A D) : Carries now A (B ∪ D) :=
  fun o ho => ho.elim (h o) (k o)

theorem Carries.widen (h : Carries now A B) (hsub : A ⊆ D) : Carries now D B :=
  (of_subset hsub).trans h

/-- What is made for the move of an object is that object made anew. -/
theorem carries_readmitting (h : o ∈ A) (now : Time) :
    Carries now A (madeFor (.readmitting o now)) := fun _ ho' =>
  .inr ⟨o, h, ho'.id, ho'.size, ho'.expiry.trans (expiry_readmitting o now)⟩

variable {C : Type} [Policy C] {st st' : Store} {c c' : C}

/-- The objects that the leaves find. -/
def finds [Composed C] (st : Store) (c : C) : Set CacheObject := Lru.finds st (leaves c)

theorem mem_held_iff_finds [Composed C] {id : ObjectId} :
    id ∈ held st c ↔ ∃ o ∈ finds st c, o.id = id := by
  constructor
  · rintro ⟨d, hd, hid⟩
    obtain ⟨o, ho⟩ := Lru.mem_ids_iff.mp hid
    have hoid := Lru.id_of_entry? (Lru.find?_eq_some_iff.mp ho).1
    exact ⟨o, ⟨d, hd, hoid ▸ ho⟩, hoid⟩
  · rintro ⟨o, ⟨d, hd, ho⟩, rfl⟩
    exact ⟨d, hd, Lru.mem_ids_iff.mpr ⟨o, ho⟩⟩

/-- What a lookup answers and leaves, as far as objects go. -/
inductive Looked [Composed C] (r : Request) (update : Bool) (st : Store) (c : C) :
    Lookup → C → Store → Prop
  | unknown (absent : r.id ∉ held st c) : Looked r update st c .miss c st
  | expired {c' : C} {st' : Store} {o : CacheObject} (found : o ∈ finds st c) (id : o.id = r.id)
    (stale : o.expiredAt r.time = true) (carries : Carries r.time (finds st c) (finds st' c'))
    (gone : update = true → r.id ∉ held st' c') : Looked r update st c .expired c' st'
  | hit {c' : C} {st' : Store} {o : CacheObject} (found : o ∈ finds st c) (id : o.id = r.id)
    (alive : o.expiredAt r.time = false) (carries : Carries r.time (finds st c) (finds st' c')) :
    Looked r update st c .hit c' st'

theorem Looked.carries [Composed C] {update : Bool} {found : Lookup}
    (h : Looked r update st c found c' st') : Carries r.time (finds st c) (finds st' c') := by
  cases h with
  | unknown => exact .of_subset subset_rfl
  | expired _ _ _ carries _ => exact carries
  | hit _ _ _ carries => exact carries

/-- The finds after an insertion. A new object is the only one under its id. -/
inductive Lodged (r : Request) (A : Set CacheObject) : Option CacheObject → Set CacheObject → Prop
  | refused {B : Set CacheObject} (subset : B ⊆ A) : Lodged r A none B
  | admitted {B : Set CacheObject} {o : CacheObject}
    (subset : B ⊆ {p ∈ A | p.id ≠ r.id} ∪ madeFor r) : Lodged r A (some o) B

theorem Lodged.subset_union {res : Option CacheObject} (h : Lodged r A res B) :
    B ⊆ A ∪ madeFor r := by
  cases h with
  | refused hsub => exact hsub.trans Set.subset_union_left
  | admitted hsub => exact hsub.trans (Set.union_subset_union_left _ (Set.sep_subset _ _))

/-- A policy that makes up no objects. -/
class Carrying (C : Type) [Policy C] [Lawful C] : Prop where
  looked_check : ∀ {st st' : Store} {c c' : C} {r : Request} {update : Bool} {found : Lookup},
    Sound st c → (check r update).Yields c st found c' st' → Looked r update st c found c' st'
  lodged_insert : ∀ {st st' : Store} {c c' : C} {r : Request} {res : Option CacheObject},
    Sound st c → (insert r).Yields c st res c' st' → Lodged r (finds st c) res (finds st' c')
  finds_evict : ∀ {st st' : Store} {c c' : C} {victim : Option CacheObject}, Sound st c →
    Yields evict c st victim c' st' →
      finds st' c' ⊆ finds st c ∧ ∀ o, victim = some o → o ∈ finds st c
  finds_remove : ∀ {st st' : Store} {c c' : C} {id : ObjectId} {removed : Option CacheObject},
    Sound st c → (remove id).Yields c st removed c' st' →
      finds st' c' ⊆ finds st c ∧ ∀ o, removed = some o → o ∈ finds st c
  /-- A request is a lookup and, unless that is a hit, an insertion perhaps. -/
  looked_serve : ∀ {st st' : Store} {c c' : C} {r : Request} {found : Lookup}, Sound st c →
    (serve r).Yields c st found c' st' → ∃ c₁ st₁, Looked r true st c found c₁ st₁ ∧
      (found = .hit → finds st' c' = finds st₁ c₁) ∧
      (found ≠ .hit → finds st' c' ⊆ finds st₁ c₁ ∪ madeFor r)

end Policy

/-! ## The least-recently-used policy -/

namespace Lru
open SegmentedCache.Action Policy
variable {st st' : Store} {c c' : Lru} {o : CacheObject} {gone : List CacheObject}
variable {r : Request} {found : Lookup} {update : Bool}

theorem mem_finds_iff : o ∈ Policy.finds st c ↔ c.find? st o.id = some o := by
  constructor
  · rintro ⟨d, hd, ho⟩
    rwa [List.mem_singleton.mp hd] at ho
  · exact fun ho => ⟨c, List.mem_singleton_self c, ho⟩

theorem Linked.mem_finds_iff (h : c.Linked st) :
    o ∈ Policy.finds st c ↔ o ∈ c.objects ∧ st.resident o = true := by
  rw [Lru.mem_finds_iff, h.find?_eq_some_iff_mem]
  simp

theorem Sheds.finds_subset (h : Sheds gone st c st' c') (hc : c.Linked st) :
    Policy.finds st' c' ⊆ Policy.finds st c := by
  intro o ho
  rw [mem_finds_iff, h.find?_eq hc, Option.filter_eq_some_iff] at ho
  exact mem_finds_iff.mpr ho.1

theorem Touches.finds_eq (h : Touches o st c c') : Policy.finds st c' = Policy.finds st c := by
  ext p
  rw [mem_finds_iff, mem_finds_iff]
  unfold find?
  rw [h.index]

/-- The new object is the one that is found under its id. -/
theorem Admits.finds_subset (h : Admits o gone st c st' c') (hc : c.Linked st) :
    Policy.finds st' c' ⊆ {p ∈ Policy.finds st c | p.id ≠ o.id} ∪ {o} := by
  intro p hp
  have hnew : o ∈ Policy.finds st' c' :=
    h.mem_finds_iff.mpr ⟨by simp [h.objects], h.resident_self⟩
  by_cases hid : p.id = o.id
  · rw [mem_finds_iff] at hp hnew
    rw [hid, hnew] at hp
    exact .inr (Option.some.inj hp).symm
  · obtain ⟨hm, hr⟩ := h.mem_finds_iff.mp hp
    rw [h.objects, List.mem_cons] at hm
    have hold : p ∈ c.objects :=
      List.mem_of_mem_filter (hm.resolve_left fun heq => hid (congrArg CacheObject.id heq))
    exact .inl ⟨hc.mem_finds_iff.mpr ⟨hold, h.confined.falls p (hc.issued hold) hr⟩, hid⟩

theorem Inserted.lodged {res : Option CacheObject} (h : Inserted r st c res c' st')
    (hc : c.Linked st) : Lodged r (Policy.finds st c) res (Policy.finds st' c') := by
  cases h with
  | refused _ hs => exact .refused (hs.finds_subset hc)
  | admitted _ hm ha _ =>
    refine .admitted ((ha.finds_subset hc).trans ?_)
    rw [hm.id]
    exact Set.union_subset_union_right _ (Set.singleton_subset_iff.mpr hm)

theorem Checked.looked (h : c.Coherent st) (hc : Checked r update st c found c' st') :
    Looked r update st c found c' st' := by
  cases hc with
  | miss absent =>
    refine .unknown fun hid => ?_
    rw [held_eq, mem_ids_iff, absent] at hid
    simp at hid
  | @expired _ _ o hfound stale hs =>
    obtain ⟨hm, hr, hid⟩ := h.find?_eq_some_iff_mem.mp hfound
    refine .expired (h.toLinked.mem_finds_iff.mpr ⟨hm, hr⟩) hid stale
      (.of_subset (hs.finds_subset h.toLinked)) fun hu => ?_
    rw [if_pos hu] at hs
    rw [held_eq, ← hid]
    exact hs.notMem_ids h.toLinked (List.mem_singleton_self o) hr
  | @hit _ o hfound alive touched =>
    obtain ⟨hm, hr, hid⟩ := h.find?_eq_some_iff_mem.mp hfound
    refine .hit (h.toLinked.mem_finds_iff.mpr ⟨hm, hr⟩) hid alive (.of_subset ?_)
    cases update with
    | false => rw [show c' = c from touched]
    | true => exact (Touches.finds_eq touched).le

theorem finds_counters (st : Store) (c : Lru) (counters : LruCounters) :
    Policy.finds st { c with counters } = Policy.finds st c := by
  ext o
  rw [mem_finds_iff, mem_finds_iff]
  rfl

theorem finds_admission {answer : Lookup} (h : c.Coherent st)
    (hy : (admission r answer).Yields c st found c' st') :
    (answer = .hit → Policy.finds st' c' = Policy.finds st c) ∧
      Policy.finds st' c' ⊆ Policy.finds st c ∪ madeFor r := by
  unfold admission at hy
  split at hy
  next hmiss =>
    rw [yields_get_bind_iff] at hy
    refine ⟨fun hhit => absurd hhit hmiss, ?_⟩
    split at hy
    · obtain ⟨_, c₁, st₁, hinsert, h₁⟩ := yields_bind_iff.mp hy
      obtain ⟨res, hinsert⟩ := yields_discard_iff.mp hinsert
      obtain ⟨rfl, rfl, rfl⟩ := yields_pure_iff.mp h₁
      exact (((ensures_insert h r).apply hinsert).lodged h.toLinked).subset_union
    · obtain ⟨_, c₁, st₁, hemit, h₁⟩ := yields_bind_iff.mp hy
      obtain ⟨rfl, rfl⟩ := yields_emit_iff.mp hemit
      obtain ⟨rfl, rfl, rfl⟩ := yields_pure_iff.mp h₁
      exact Set.subset_union_left
  next =>
    obtain ⟨rfl, rfl, rfl⟩ := yields_pure_iff.mp hy
    exact ⟨fun _ => rfl, Set.subset_union_left⟩

instance carrying : Carrying Lru where
  looked_check {_ _ _ _ r update _} h hy := by
    have hcoh := sound_iff.mp h
    exact ((ensures_check hcoh r update).apply hy).looked hcoh
  lodged_insert {_ _ _ _ r _} h hy := by
    have hcoh := sound_iff.mp h
    exact ((ensures_insert hcoh r).apply hy).lodged hcoh.toLinked
  finds_evict h hy := by
    have hcoh := sound_iff.mp h
    cases (ensures_evict hcoh).apply hy with
    | nothing _ hs => exact ⟨hs.finds_subset hcoh.toLinked, fun o ho => by cases ho⟩
    | @victim _ _ v kept orphans hobj hr _ hs =>
      refine ⟨hs.finds_subset hcoh.toLinked, fun o ho => ?_⟩
      obtain rfl := Option.some.inj ho
      have hv : v ∈ _ := hobj ▸ List.mem_append_right kept List.mem_cons_self
      exact hcoh.toLinked.mem_finds_iff.mpr ⟨hv, hr⟩
  finds_remove {_ _ _ _ id _} h hy := by
    have hcoh := sound_iff.mp h
    cases (ensures_remove hcoh id).apply hy with
    | absent _ hs => exact ⟨hs.finds_subset hcoh.toLinked, fun o ho => by cases ho⟩
    | @taken _ _ p hf hs =>
      obtain ⟨hm, hr, -⟩ := hcoh.find?_eq_some_iff_mem.mp hf
      refine ⟨hs.finds_subset hcoh.toLinked, fun o ho => ?_⟩
      obtain rfl := Option.some.inj ho
      exact hcoh.toLinked.mem_finds_iff.mpr ⟨hm, hr⟩
  looked_serve {_ _ _ _ r _} h hy := by
    have hcoh := sound_iff.mp h
    obtain ⟨c₁, st₁, c₂, hcheck, hrecord, hadmission⟩ := found_of_serve hy
    have hc := (ensures_check hcoh r true).apply hcheck
    obtain ⟨counters, -, rfl, -⟩ := yields_record_iff.mp hrecord
    have hk := shrinks_counters (sound_iff.mp (hc.shrinks hcoh).toSound) counters
    obtain ⟨hsame, hsub⟩ := finds_admission (sound_iff.mp hk.toSound) hadmission
    rw [finds_counters _ c₁ counters] at hsame hsub
    exact ⟨c₁, st₁, hc.looked hcoh, hsame, fun _ => hsub⟩

end Lru
end SegmentedCache
