import SegmentedCache.Index.Call
import SegmentedCache.Proofs.Index.Directory

/-!
# The order of a chain

An id arrives when a call enters an object for it and it had no entry. Every chain holds its
ids by their latest arrivals, the last one first: an arrival goes to the head, a replacement
keeps its place and a deletion takes one id out (`idsAt_run`). So the head of a bucket, which
is what a random draw returns, is the id that arrived last of those in the bucket:
`runCalls_arrivals`.
-/
namespace SegmentedCache

namespace Chain

theorem map_id_erase (c : Chain) (i : ObjectId) :
    (c.erase i).map CacheObject.id = List.erase (c.map CacheObject.id) i := by
  induction c with
  | nil => rfl
  | cons o c ih =>
    unfold erase at ih ⊢
    by_cases h : o.id = i
    · rw [List.eraseP_cons_of_pos (by simpa using h), List.map_cons, h, List.erase_cons_head]
    · rw [List.eraseP_cons_of_neg (by simpa using h), List.map_cons, List.map_cons,
        List.erase_cons_tail (by simpa using h), ih]

end Chain

namespace Index
variable {ix : Index} {s : Objects} {o : CacheObject} {i j : ObjectId} {g : UInt64}

/-! ## Arrivals -/

/-- The id that had no entry and has one through the call. -/
def Call.arrival? : Call → Answer → Option ObjectId
  | .insert o, .object none => some o.id
  | .insertRequest r, .entered _ none => some r.id
  | _, _ => none

/-- The id that has no entry after the call, whether or not it had one before. -/
def Call.departure? : Call → Answer → Option ObjectId
  | .delete id, _ => some id
  | .deleteExact o, .truth true => some o.id
  | .deleteObject o, _ | .tryDelete o, _ => some o.id
  | _, _ => none

/-- Who arrived with each call, by the answers. -/
def arrivals (calls : List Call) (answers : List Answer) : List (Option ObjectId) :=
  List.zipWith Call.arrival? calls answers

/-- The last time that an id arrived. -/
def LastArrival (l : List (Option ObjectId)) (id : ObjectId) (t : Nat) : Prop :=
  l[t]? = some (some id) ∧ ∀ u, t < u → l[u]? ≠ some (some id)

/-- The last arrival of `i` is later than that of `j`. -/
def ArrivedAfter (l : List (Option ObjectId)) (i j : ObjectId) : Prop :=
  ∃ t u, LastArrival l i t ∧ LastArrival l j u ∧ u < t

section
variable {l : List (Option ObjectId)} {e : Option ObjectId} {t u : Nat}

theorem LastArrival.lt_length (h : LastArrival l i t) : t < l.length :=
  (List.getElem?_eq_some_iff.mp h.1).1

theorem LastArrival.unique (h : LastArrival l i t) (k : LastArrival l i u) : t = u := by
  rcases Nat.lt_trichotomy t u with hlt | heq | hlt
  · exact absurd k.1 (h.2 u hlt)
  · exact heq
  · exact absurd h.1 (k.2 t hlt)

theorem lastArrival_concat (l : List (Option ObjectId)) (i : ObjectId) :
    LastArrival (l ++ [some i]) i l.length := by
  refine ⟨by simp, fun u hu => ?_⟩
  rw [List.getElem?_eq_none (by simpa using hu)]
  simp

/-- An arrival of another id is not the last one of this id. -/
theorem LastArrival.concat (h : LastArrival l i t) (he : e ≠ some i) :
    LastArrival (l ++ [e]) i t := by
  refine ⟨by rw [List.getElem?_append_left h.lt_length, h.1], fun u hu => ?_⟩
  rw [List.getElem?_append]
  split
  · exact h.2 u hu
  · rw [List.getElem?_singleton]
    split <;> simp [he]

theorem ArrivedAfter.concat (h : ArrivedAfter l i j) (hi : e ≠ some i) (hj : e ≠ some j) :
    ArrivedAfter (l ++ [e]) i j := by
  obtain ⟨t, u, ht, hu, hlt⟩ := h
  exact ⟨t, u, ht.concat hi, hu.concat hj, hlt⟩

theorem ArrivedAfter.asymm (h : ArrivedAfter l i j) : ¬ ArrivedAfter l j i := by
  rintro ⟨t, u, ht, hu, hlt⟩
  obtain ⟨t', u', ht', hu', hlt'⟩ := h
  have := ht.unique hu'
  have := hu.unique ht'
  omega

end

/-! ## Buckets -/

/-- The ids in the bucket that a hash falls into, from the head of its chain. -/
def idsAt (ix : Index) (g : UInt64) : List ObjectId := (ix.bucket g).map CacheObject.id

theorem mem_idsAt_iff (h : ix.Valid) :
    i ∈ ix.idsAt g ↔ (ix.find? i).isSome ∧ ix.bucketOf i = Address.bucket ix.hashpower g := by
  simp only [idsAt, List.mem_map, mem_bucket_iff h, Option.isSome_iff_exists]
  constructor
  · rintro ⟨o, ⟨ho, hb⟩, rfl⟩
    exact ⟨⟨o, ho⟩, hb⟩
  · rintro ⟨⟨o, ho⟩, hb⟩
    obtain rfl := id_of_find? ho
    exact ⟨o, ⟨ho, hb⟩, rfl⟩

theorem chainOf_eq_bucket (hb : ix.bucketOf i = Address.bucket ix.hashpower g) :
    ix.chainOf i = ix.bucket g := by
  unfold chainOf localOf bucket
  simp only [hb]

theorem bucket_setChainOf (ix : Index) (i : ObjectId) (c : Chain) (g : UInt64) :
    (ix.setChainOf i c).bucket g =
      if ix.bucketOf i = Address.bucket ix.hashpower g then c else ix.bucket g := by
  have hat := ix.chainAt_setChainOf i c (StripePool.stripeOf (Address.bucket ix.hashpower g))
    ⟨_, Address.toNat_local_lt ix.hashpower_le g⟩
  refine hat.trans (if_congr ⟨fun ⟨hs, hl⟩ => ?_, fun hb => ?_⟩ rfl rfl)
  · exact (Address.eq_of_stripe_of_local ix.hashpower_le hs (Fin.mk.inj hl)).symm
  · exact ⟨by rw [stripeOf, hb], Fin.ext (by simp [localOf, hb])⟩

theorem idsAt_insert (ix : Index) (s : Objects) (o : CacheObject) (g : UInt64) :
    (ix.insert s o).2.1.idsAt g =
      if ix.find? o.id = none ∧ ix.bucketOf o.id = Address.bucket ix.hashpower g
      then o.id :: ix.idsAt g else ix.idsAt g := by
  cases hf : ix.find? o.id with
  | none =>
    rw [insert_of_none hf]
    change ((ix.setChainOf o.id (o :: ix.chainOf o.id)).bucket g).map CacheObject.id = _
    rw [bucket_setChainOf]
    by_cases hb : ix.bucketOf o.id = Address.bucket ix.hashpower g
    · simp [hb, chainOf_eq_bucket hb, idsAt]
    · simp [hb, idsAt]
  | some old =>
    rw [insert_of_some hf]
    change ((ix.setChainOf o.id ((ix.chainOf o.id).replace o)).bucket g).map CacheObject.id = _
    rw [bucket_setChainOf]
    by_cases hb : ix.bucketOf o.id = Address.bucket ix.hashpower g
    · simp [hb, chainOf_eq_bucket hb, Chain.map_id_replace, idsAt]
    · simp [hb, idsAt]

theorem idsAt_delete (h : ix.Valid) (s : Objects) (i : ObjectId) (g : UInt64) :
    (ix.delete s i).2.1.idsAt g = (ix.idsAt g).erase i := by
  cases hf : ix.find? i with
  | none =>
    have hi : i ∉ ix.idsAt g := fun hi => by simpa [hf] using ((mem_idsAt_iff h).mp hi).1
    rw [delete_of_none hf, List.erase_of_not_mem hi]
  | some o =>
    rw [delete_of_some hf]
    change ((ix.setChainOf i ((ix.chainOf i).erase i)).bucket g).map CacheObject.id = _
    rw [bucket_setChainOf]
    split
    next hb => rw [chainOf_eq_bucket hb, Chain.map_id_erase, idsAt]
    next hb =>
      have hi : i ∉ ix.idsAt g := fun hi => hb ((mem_idsAt_iff h).mp hi).2
      rw [List.erase_of_not_mem hi, idsAt]

/-- What a call does to the ids of a bucket. -/
theorem idsAt_run (h : ix.Valid) (s : Objects) (c : Call) (g : UInt64) :
    (c.run ix s).2.1.idsAt g =
      (c.arrival? (c.run ix s).1).toList.filter
          (fun id => ix.bucketOf id = Address.bucket ix.hashpower g) ++
        (ix.idsAt g).diff (c.departure? (c.run ix s).1).toList := by
  have hinsert : ∀ s (o : CacheObject), (ix.insert s o).2.1.idsAt g =
      (if ix.find? o.id = none then [o.id] else []).filter
        (fun id => ix.bucketOf id = Address.bucket ix.hashpower g) ++ ix.idsAt g := by
    intro s o
    rw [idsAt_insert]
    by_cases hf : ix.find? o.id = none <;>
      by_cases hb : ix.bucketOf o.id = Address.bucket ix.hashpower g <;> simp [hf, hb]
  have hdelete : ∀ i, (ix.delete s i).2.1.idsAt g = (ix.idsAt g).diff [i] := fun i => by
    rw [idsAt_delete h, List.diff_cons, List.diff_nil]
  cases c with
  | insert o =>
    refine (hinsert s o).trans ?_
    simp only [Call.run, insert_fst]
    cases ix.find? o.id <;> simp [Call.arrival?, Call.departure?]
  | insertRequest r =>
    refine (hinsert _ _).trans ?_
    simp only [Call.run, insertRequest, insert_fst]
    change _ = List.filter _ (Option.toList (Call.arrival? _ (.entered _ (ix.find? r.id)))) ++ _
    cases ix.find? r.id <;> simp [Call.arrival?, Call.departure?]
  | find id => simp [Call.run, Call.arrival?, Call.departure?]
  | contains id => simp [Call.run, Call.arrival?, Call.departure?]
  | delete id => exact hdelete id
  | deleteExact o =>
    simp only [Call.run]
    by_cases ho : ix.find? o.id = some o
    · rw [deleteExact_of_find? ho]
      exact hdelete o.id
    · rw [deleteExact_of_ne ho]
      simp [Call.arrival?, Call.departure?]
  | deleteObject o => exact hdelete o.id
  | tryDelete o => exact hdelete o.id
  | mark o b => simp [Call.run, Call.arrival?, Call.departure?]

theorem valid_run (h : ix.Valid) (s : Objects) (c : Call) : (c.run ix s).2.1.Valid := by
  cases c with
  | insert o => exact h.insert s o
  | insertRequest r => exact h.insert _ _
  | find id => exact h
  | contains id => exact h
  | delete id => exact h.delete s id
  | deleteExact o => exact h.deleteExact s o
  | deleteObject o => exact h.delete s o.id
  | tryDelete o => exact h.delete s o.id
  | mark o b => exact h

/-- Who arrives had no entry before. -/
theorem find?_of_arrival {c : Call} (hc : c.arrival? (c.run ix s).1 = some i) :
    ix.find? i = none := by
  cases c with
  | insert o =>
    simp only [Call.run, insert_fst] at hc
    cases hf : ix.find? o.id <;> simp_all [Call.arrival?]
  | insertRequest r =>
    simp only [Call.run, insertRequest, insert_fst] at hc
    change Call.arrival? _ (.entered _ (ix.find? r.id)) = some i at hc
    cases hf : ix.find? r.id <;> simp_all [Call.arrival?]
  | _ => simp [Call.arrival?] at hc

/-! ## The order of arrival -/

/-- Every chain is ordered by the arrivals so far, and all in it have arrived. -/
structure Ordered (l : List (Option ObjectId)) (ix : Index) : Prop where
  valid : ix.Valid
  chains : ∀ g, (ix.idsAt g).Pairwise (ArrivedAfter l)
  arrived : ∀ g, ∀ id ∈ ix.idsAt g, ∃ t, LastArrival l id t

theorem ordered_empty (hash : ObjectId → UInt64) {hashpower : Nat} (h : hashpower ≤ maxHashpower) :
    Ordered [] (empty hash hashpower h) := by
  have hnil : ∀ g, (empty hash hashpower h).idsAt g = [] := fun g => by
    rw [idsAt, chains_empty hash hashpower h _ (mem_chains_iff.mpr ⟨g, rfl⟩), List.map_nil]
  refine ⟨valid_empty hash hashpower h, fun g => ?_, fun g id hid => ?_⟩
  · rw [hnil]
    exact .nil
  · rw [hnil] at hid
    cases hid

/-- Those that stay keep their order, and one that arrives goes before them. -/
theorem Ordered.run {l : List (Option ObjectId)} (h : Ordered l ix) (s : Objects) (c : Call) :
    Ordered (l ++ [c.arrival? (c.run ix s).1]) (c.run ix s).2.1 := by
  have hstay : ∀ g, ∀ i ∈ (ix.idsAt g).diff (c.departure? (c.run ix s).1).toList,
      i ∈ ix.idsAt g ∧ c.arrival? (c.run ix s).1 ≠ some i := by
    intro g i hi
    have hi := (List.diff_sublist _ _).subset hi
    refine ⟨hi, fun hc => ?_⟩
    simpa [find?_of_arrival hc] using ((mem_idsAt_iff h.valid).mp hi).1
  have hnew : ∀ g, ∀ i ∈ (c.arrival? (c.run ix s).1).toList.filter
      (fun id => ix.bucketOf id = Address.bucket ix.hashpower g),
      c.arrival? (c.run ix s).1 = some i := by
    intro g i hi
    simpa using (List.mem_filter.mp hi).1
  have hlast : ∀ {i}, c.arrival? (c.run ix s).1 = some i →
      LastArrival (l ++ [c.arrival? (c.run ix s).1]) i l.length := by
    intro i hc
    rw [hc]
    exact lastArrival_concat l i
  constructor
  case valid => exact valid_run h.valid s c
  case chains =>
    intro g
    rw [idsAt_run h.valid, List.pairwise_append]
    refine ⟨?_, ?_, fun i hi j hj => ?_⟩
    · cases c.arrival? (c.run ix s).1 with
      | none => exact .nil
      | some i => exact (List.pairwise_singleton _ i).sublist List.filter_sublist
    · refine ((h.chains g).sublist (List.diff_sublist _ _)).imp_of_mem fun hi hj hij => ?_
      exact hij.concat (hstay g _ hi).2 (hstay g _ hj).2
    · obtain ⟨hj, hne⟩ := hstay g j hj
      obtain ⟨t, ht⟩ := h.arrived g j hj
      exact ⟨l.length, t, hlast (hnew g i hi), ht.concat hne, ht.lt_length⟩
  case arrived =>
    intro g i hi
    rw [idsAt_run h.valid, List.mem_append] at hi
    rcases hi with hi | hi
    · exact ⟨l.length, hlast (hnew g i hi)⟩
    · obtain ⟨hi, hne⟩ := hstay g i hi
      obtain ⟨t, ht⟩ := h.arrived g i hi
      exact ⟨t, ht.concat hne⟩

theorem Ordered.runCalls {l : List (Option ObjectId)} (h : Ordered l ix) (s : Objects)
    (calls : List Call) :
    Ordered (l ++ arrivals calls (runCalls ix s calls).1) (runCalls ix s calls).2.1 := by
  induction calls generalizing l ix s with
  | nil => simpa [arrivals, Index.runCalls] using h
  | cons c calls ih =>
    have hrest := ih (h.run s c) (c.run ix s).2.2
    rw [List.append_assoc] at hrest
    exact hrest

/-! ## Random draws -/

theorem mem_heads_iff : o ∈ ix.heads ↔ ∃ g, (ix.bucket g).head? = some o := by
  simp only [heads, List.mem_filterMap, mem_chains_iff]
  constructor
  · rintro ⟨_, ⟨g, rfl⟩, ho⟩
    exact ⟨g, ho⟩
  · rintro ⟨g, ho⟩
    exact ⟨_, ⟨g, rfl⟩, ho⟩

theorem not_isEmpty_of_mem_bucket (h : ix.Valid) (ho : o ∈ ix.bucket g) : ¬ ix.isEmpty := by
  rw [isEmpty_iff h]
  intro hnil
  rw [hnil _ (mem_chains_iff.mpr ⟨g, rfl⟩)] at ho
  cases ho

/-- Some draws return an object exactly if it is at the head of its bucket. -/
theorem random?_eq_some_iff (h : ix.Valid) :
    (∃ draws, ix.random? draws = some (some o)) ↔ o ∈ ix.heads := by
  rw [mem_heads_iff]
  constructor
  · rintro ⟨draws, hd⟩
    induction draws with
    | nil => simp [random?] at hd
    | cons g draws ih =>
      unfold random? at hd
      split at hd
      · simp at hd
      · split at hd
        next p hp => exact ⟨g, hp.trans (Option.some.inj hd)⟩
        next => exact ih hd
  · rintro ⟨g, ho⟩
    refine ⟨[g], ?_⟩
    simp [random?, ho, not_isEmpty_of_mem_bucket h (List.mem_of_mem_head? ho)]

/-- Nothing is returned exactly if the index is empty, and then without a draw. -/
theorem random?_eq_none_iff {draws : List UInt64} :
    ix.random? draws = some none ↔ ix.isEmpty := by
  induction draws with
  | nil => simp [random?]
  | cons g draws ih =>
    unfold random?
    split
    next he => simp [he]
    next he =>
      split
      · simp [he]
      · rw [ih]

theorem heads_eq_nil_iff (h : ix.Valid) : ix.heads = [] ↔ ix.isEmpty := by
  rw [isEmpty_iff h, heads, List.filterMap_eq_nil_iff]
  simp only [List.head?_eq_none_iff]

/-- The head of a bucket is the object of the id that arrived last of those in the bucket. -/
theorem Ordered.mem_heads_iff {l : List (Option ObjectId)} (h : Ordered l ix) :
    o ∈ ix.heads ↔ ix.find? o.id = some o ∧
      ∀ id, (ix.find? id).isSome → ix.bucketOf id = ix.bucketOf o.id →
        ¬ ArrivedAfter l id o.id := by
  rw [Index.mem_heads_iff]
  constructor
  · rintro ⟨g, hg⟩
    obtain ⟨c, hc⟩ := List.head?_eq_some_iff.mp hg
    have hids : ix.idsAt g = o.id :: c.map CacheObject.id := by rw [idsAt, hc, List.map_cons]
    obtain ⟨ho, hb⟩ := (mem_bucket_iff h.valid).mp (List.mem_of_mem_head? hg)
    refine ⟨ho, fun id hid hbid hafter => ?_⟩
    have hmem := (mem_idsAt_iff h.valid).mpr ⟨hid, hbid.trans hb⟩
    rw [hids] at hmem
    cases hmem with
    | head => exact hafter.asymm hafter
    | tail _ hmem =>
      have hchain := h.chains g
      rw [hids, List.pairwise_cons] at hchain
      exact (hchain.1 id hmem).asymm hafter
  · rintro ⟨ho, hlast⟩
    refine ⟨ix.hash o.id, ?_⟩
    have hmem : o ∈ ix.bucket (ix.hash o.id) := (mem_bucket_iff h.valid).mpr ⟨ho, rfl⟩
    cases hc : ix.bucket (ix.hash o.id) with
    | nil => simp [hc] at hmem
    | cons p c =>
      rw [hc] at hmem
      cases hmem with
      | head => rfl
      | tail _ hmem =>
        obtain ⟨hp, hbp⟩ := (mem_bucket_iff h.valid).mp (hc ▸ List.mem_cons_self)
        have hchain := h.chains (ix.hash o.id)
        rw [idsAt, hc, List.map_cons, List.pairwise_cons] at hchain
        exact absurd (hchain.1 _ (List.mem_map_of_mem hmem)) (hlast p.id (by simp [hp]) hbp)

theorem bucket_congr {g' : UInt64}
    (hg : Address.bucket ix.hashpower g = Address.bucket ix.hashpower g') :
    ix.bucket g = ix.bucket g' := by
  unfold bucket
  simp only [hg]

theorem existsUnique_head (h : ix.Valid) (hg : ix.bucket g ≠ []) :
    ∃! o, o ∈ ix.heads ∧ ix.bucketOf o.id = Address.bucket ix.hashpower g := by
  obtain ⟨o, c, hc⟩ := List.exists_cons_of_ne_nil hg
  have ho : (ix.bucket g).head? = some o := by rw [hc, List.head?_cons]
  refine ⟨o, ⟨mem_heads_iff.mpr ⟨g, ho⟩,
    ((mem_bucket_iff h).mp (List.mem_of_mem_head? ho)).2⟩, ?_⟩
  rintro p ⟨hp, hb⟩
  obtain ⟨g', hp⟩ := mem_heads_iff.mp hp
  have hb' := ((mem_bucket_iff h).mp (List.mem_of_mem_head? hp)).2
  rw [bucket_congr (hb'.symm.trans hb), ho] at hp
  exact (Option.some.inj hp).symm

/-- Whether a random draw can return this object. -/
def Drawable (ix : Index) (o : CacheObject) : Prop := ∃ draws, ix.random? draws = some (some o)

/-- Whatever the calls, the chains of an index that started empty hold the indexed ids by
their latest arrivals, the last one first, and one more call does to them as it should. A
random draw can return the object of the latest arrival in every bucket and no other; it
returns none if the index is empty and only then. -/
theorem runCalls_arrivals (hash : ObjectId → UInt64) {hashpower : Nat}
    (h : hashpower ≤ maxHashpower) (s : Objects) (calls : List Call) :
    ∃ answers ix s', runCalls (empty hash hashpower h) s calls = (answers, ix, s') ∧
      let l := arrivals calls answers
      (∀ g, (ix.idsAt g).Pairwise (ArrivedAfter l)) ∧
        (∀ g, ∀ id ∈ ix.idsAt g, ∃ t, LastArrival l id t) ∧
        (∀ (c : Call) g, (c.run ix s').2.1.idsAt g =
          (c.arrival? (c.run ix s').1).toList.filter
              (fun id => ix.bucketOf id = Address.bucket ix.hashpower g) ++
            (ix.idsAt g).diff (c.departure? (c.run ix s').1).toList) ∧
        (∀ o, ix.Drawable o ↔ ix.find? o.id = some o ∧
          ∀ id, (ix.find? id).isSome → ix.bucketOf id = ix.bucketOf o.id →
            ¬ ArrivedAfter l id o.id) ∧
        (∀ g, ix.bucket g ≠ [] →
          ∃! o, ix.Drawable o ∧ ix.bucketOf o.id = Address.bucket ix.hashpower g) ∧
        (∀ o, ix.Drawable o ↔ o ∈ ix.heads) ∧
        (ix.heads = [] ↔ ix.count = 0) ∧
        ∀ draws, ix.random? draws = some none ↔ ix.count = 0 := by
  have hend := (ordered_empty hash h).runCalls s calls
  rw [List.nil_append] at hend
  have hdraw : ∀ o, Drawable _ o ↔ _ := fun o => random?_eq_some_iff hend.valid (o := o)
  have hempty : ∀ ix : Index, ix.isEmpty ↔ ix.count = 0 := fun ix => beq_iff_eq
  refine ⟨_, _, _, rfl, hend.chains, hend.arrived, idsAt_run hend.valid _, fun o => ?_,
    fun g hg => ?_, hdraw, (heads_eq_nil_iff hend.valid).trans (hempty _),
    fun draws => random?_eq_none_iff.trans (hempty _)⟩
  · rw [hdraw, hend.mem_heads_iff]
  · simp only [hdraw]
    exact existsUnique_head hend.valid hg

/-- In one of two buckets three ids arrive, of which the first is replaced and the second
is deleted and arrives again. -/
theorem runCalls_arrivals_again :
    let o (n : Nat) (id : ObjectId) : CacheObject := ⟨n, id, 1, none⟩
    let calls : List Call := [.insert (o 0 2), .insert (o 1 4), .insert (o 2 1), .insert (o 3 6),
      .insert (o 4 2), .delete 4, .insert (o 1 4)]
    ∃ answers ix s', runCalls (empty id 1 (by decide)) .empty calls = (answers, ix, s') ∧
      arrivals calls answers = [some 2, some 4, some 1, some 6, none, none, some 4] ∧
      ix.idsAt 0 = [4, 6, 2] ∧ ArrivedAfter (arrivals calls answers) 4 6 ∧
      ix.Drawable (o 1 4) ∧ ¬ ix.Drawable (o 4 2) := by
  intro o calls
  obtain ⟨answers, ix, s', hrun, hchains, -, -, -, -, hheads, -⟩ :=
    runCalls_arrivals id (by decide : 1 ≤ maxHashpower) .empty calls
  have harrivals : arrivals calls (runCalls (empty id 1 (by decide)) .empty calls).1 =
      [some 2, some 4, some 1, some 6, none, none, some 4] := by decide +kernel
  have hids : (runCalls (empty id 1 (by decide)) .empty calls).2.1.idsAt 0 = [4, 6, 2] := by
    decide +kernel
  have hhead : (runCalls (empty id 1 (by decide)) .empty calls).2.1.heads = [o 1 4, o 2 1] := by
    decide +kernel
  rw [hrun] at harrivals hids hhead
  have hchain := hchains 0
  rw [hids] at hchain
  refine ⟨answers, ix, s', hrun, harrivals, hids, (List.pairwise_cons.mp hchain).1 6 (by simp),
    ?_, ?_⟩
  · rw [hheads, hhead]
    exact List.mem_cons_self
  · rw [hheads, hhead]
    decide

end Index
end SegmentedCache
