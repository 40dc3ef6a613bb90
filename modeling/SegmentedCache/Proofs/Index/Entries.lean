import Mathlib.Data.List.Nodup
import Mathlib.Data.List.Perm.Basic
import SegmentedCache.Index.Command

/-!
# Entries of an index

An index is valid if every chain holds different ids, every object stands in
the bucket of its own id and the count is the number of entries. The chains then
hold one entry for an id at most, and looking the id up finds it:
`mem_entries_iff`. Every command keeps validity, and
`find?_insert`, `find?_delete` and `find?_deleteExact` say what it does to the
entries of all ids.
-/
namespace SegmentedCache

namespace Chain
variable {c : Chain} {o p : CacheObject} {i j : ObjectId}

theorem find?_eq_some (h : c.find? i = some o) : o ∈ c ∧ o.id = i :=
  ⟨List.mem_of_find?_eq_some h, by simpa using List.find?_some h⟩

theorem find?_eq_none_iff : c.find? i = none ↔ ∀ o ∈ c, o.id ≠ i := by
  simp [find?, List.find?_eq_none]

theorem find?_eq_some_iff (hc : (c.map CacheObject.id).Nodup) :
    c.find? i = some o ↔ o ∈ c ∧ o.id = i := by
  refine ⟨find?_eq_some, fun ⟨ho, hi⟩ => ?_⟩
  cases hf : c.find? i with
  | none => exact absurd hi (find?_eq_none_iff.mp hf o ho)
  | some p =>
    obtain ⟨hp, hpi⟩ := find?_eq_some hf
    rw [List.inj_on_of_nodup_map hc hp ho (hpi.trans hi.symm)]

theorem find?_cons : find? (o :: c) i = if i = o.id then some o else find? c i := by
  unfold find?
  by_cases h : o.id = i
  · rw [List.find?_cons_of_pos (by simpa using h), if_pos h.symm]
  · rw [List.find?_cons_of_neg (by simpa using h), if_neg (Ne.symm h)]

theorem map_id_replace (o : CacheObject) (c : Chain) :
    (c.replace o).map CacheObject.id = c.map CacheObject.id := by
  induction c with
  | nil => rfl
  | cons p c ih =>
    unfold replace
    split
    next h => rw [List.map_cons, List.map_cons, h]
    next => rw [List.map_cons, List.map_cons, ih]

theorem length_replace (o : CacheObject) (c : Chain) : (c.replace o).length = c.length := by
  simpa using congrArg List.length (map_id_replace o c)

theorem mem_replace (h : p ∈ c.replace o) : p = o ∨ p ∈ c := by
  induction c with
  | nil => cases h
  | cons q c ih =>
    unfold replace at h
    split at h
    · exact (List.mem_cons.mp h).imp_right (List.mem_cons_of_mem _)
    · rcases List.mem_cons.mp h with rfl | h
      · exact .inr List.mem_cons_self
      · exact (ih h).imp_right (List.mem_cons_of_mem _)

theorem find?_replace (h : (c.find? o.id).isSome) :
    (c.replace o).find? i = if i = o.id then some o else c.find? i := by
  induction c with
  | nil => cases h
  | cons p c ih =>
    rw [find?_cons] at h
    unfold replace
    split
    next hp =>
      rw [find?_cons, find?_cons, hp]
      split <;> rfl
    next hp =>
      rw [if_neg (Ne.symm hp)] at h
      rw [find?_cons, find?_cons, ih h]
      by_cases hi : i = p.id
      · rw [if_pos hi, if_neg (hi ▸ hp), if_pos hi]
      · rw [if_neg hi, if_neg hi]

theorem find?_erase (hc : (c.map CacheObject.id).Nodup) :
    (c.erase i).find? j = if j = i then none else c.find? j := by
  induction c with
  | nil => split <;> rfl
  | cons p c ih =>
    obtain ⟨hp, hc⟩ := List.nodup_cons.mp (List.map_cons ▸ hc)
    unfold erase
    by_cases h : p.id = i
    · rw [List.eraseP_cons_of_pos (by simpa using h), find?_cons]
      split
      next hj =>
        rw [find?_eq_none_iff]
        rintro o ho rfl
        exact hp (h.trans hj.symm ▸ List.mem_map_of_mem ho)
      next hj => rw [if_neg (h ▸ hj)]
    · rw [List.eraseP_cons_of_neg (by simpa using h), find?_cons, find?_cons]
      have := ih hc
      unfold erase at this
      rw [this]
      by_cases hj : j = p.id
      · rw [if_pos hj, if_neg (hj ▸ h), if_pos hj]
      · rw [if_neg hj, if_neg hj]

theorem length_erase (h : c.find? i = some o) : (c.erase i).length + 1 = c.length := by
  obtain ⟨ho, hi⟩ := find?_eq_some h
  have hpos := List.length_pos_of_mem ho
  unfold erase
  rw [List.length_eraseP_of_mem ho (by simpa using hi)]
  omega

theorem erase_sublist (c : Chain) (i : ObjectId) : (c.erase i).Sublist c := List.eraseP_sublist

end Chain

namespace Index
variable {ix : Index} {s : Objects} {o p : CacheObject} {i j : ObjectId}

/-- The chain at a place within a stripe. -/
def chainAt (ix : Index) (a : Fin (1 <<< Address.stripesPower ix.hashpower))
    (b : Fin (1 <<< Address.bucketsPower ix.hashpower)) : Chain := (ix.stripes.stripes.get a).get b

/-- The stripe that an id falls into. -/
def stripeOf (ix : Index) (id : ObjectId) : Fin (1 <<< Address.stripesPower ix.hashpower) :=
  StripePool.stripeOf (ix.bucketOf id)

/-- What no command changes: which bucket an id falls into. -/
def shape (ix : Index) : (ObjectId → UInt64) × Nat := (ix.hash, ix.hashpower)

/-- Every object that stands in some chain. -/
def entries (ix : Index) : List CacheObject := ix.chains.flatten

structure Valid (ix : Index) : Prop where
  nodup : ∀ a b, ((ix.chainAt a b).map CacheObject.id).Nodup
  home : ∀ a b, ∀ o ∈ ix.chainAt a b, ix.stripeOf o.id = a ∧ ix.localOf o.id = b
  counted : ix.count = ix.entries.length

theorem chainOf_eq_chainAt (ix : Index) (id : ObjectId) :
    ix.chainOf id = ix.chainAt (ix.stripeOf id) (ix.localOf id) := rfl

theorem chainAt_setChainOf (ix : Index) (id : ObjectId) (c : Chain)
    (a : Fin (1 <<< Address.stripesPower ix.hashpower))
    (b : Fin (1 <<< Address.bucketsPower ix.hashpower)) :
    (ix.setChainOf id c).chainAt a b =
      if a = ix.stripeOf id ∧ b = ix.localOf id then c else ix.chainAt a b := by
  change ((ix.stripes.stripes.set (ix.stripeOf id)
    ((ix.stripes.stripes.get (ix.stripeOf id)).set (ix.localOf id) c)).get a).get b = _
  rw [get_set_vector]
  by_cases ha : a = ix.stripeOf id
  · rw [if_pos ha, get_set_vector]
    simp only [ha, true_and]
    rfl
  · rw [if_neg ha, if_neg fun h => ha h.1]
    rfl

theorem mem_entries_iff_chainAt : o ∈ ix.entries ↔ ∃ a b, o ∈ ix.chainAt a b := by
  unfold entries chains
  simp only [List.mem_flatten, List.mem_flatMap]
  constructor
  · rintro ⟨c, ⟨v, hv, hc⟩, ho⟩
    obtain ⟨a, ha, rfl⟩ := Vector.getElem_of_mem (Vector.mem_toList_iff.mp hv)
    obtain ⟨b, hb, rfl⟩ := Vector.getElem_of_mem (Vector.mem_toList_iff.mp hc)
    exact ⟨⟨a, ha⟩, ⟨b, hb⟩, ho⟩
  · rintro ⟨a, b, ho⟩
    exact ⟨_, ⟨_, Vector.mem_toList_iff.mpr (Vector.getElem_mem a.isLt),
      Vector.mem_toList_iff.mpr (Vector.getElem_mem b.isLt)⟩, ho⟩

theorem Valid.nodup_chainOf (h : ix.Valid) (id : ObjectId) :
    ((ix.chainOf id).map CacheObject.id).Nodup := h.nodup _ _

theorem id_of_find? (h : ix.find? i = some o) : o.id = i := (Chain.find?_eq_some h).2

theorem mem_entries_of_find? (h : ix.find? i = some o) : o ∈ ix.entries :=
  mem_entries_iff_chainAt.mpr ⟨_, _, (Chain.find?_eq_some h).1⟩

/-- An object stands in some chain exactly if looking its id up finds it. -/
theorem mem_entries_iff (h : ix.Valid) : o ∈ ix.entries ↔ ix.find? o.id = some o := by
  refine ⟨fun ho => ?_, mem_entries_of_find?⟩
  obtain ⟨a, b, ho⟩ := mem_entries_iff_chainAt.mp ho
  obtain ⟨ha, hb⟩ := h.home a b o ho
  refine (Chain.find?_eq_some_iff (h.nodup_chainOf _)).mpr ⟨?_, rfl⟩
  rwa [chainOf_eq_chainAt, ha, hb]

section Empty
variable (hash : ObjectId → UInt64) (hashpower : Nat) (h : hashpower ≤ maxHashpower)

theorem chains_empty : ∀ c ∈ (empty hash hashpower h).chains, c = [] := by
  intro c hc
  obtain ⟨v, hv, hc⟩ := List.mem_flatMap.mp hc
  obtain rfl := Vector.eq_of_mem_replicate (Vector.mem_toList_iff.mp hv)
  exact Vector.eq_of_mem_replicate (Vector.mem_toList_iff.mp hc)

theorem entries_empty : (empty hash hashpower h).entries = [] := by
  unfold entries
  rw [List.flatten_eq_nil_iff]
  exact chains_empty hash hashpower h

theorem valid_empty : (empty hash hashpower h).Valid := by
  have hnil : ∀ a b o, o ∉ (empty hash hashpower h).chainAt a b := fun a b o ho => by
    have := mem_entries_iff_chainAt.mpr ⟨a, b, ho⟩
    rw [entries_empty] at this
    cases this
  constructor
  case nodup =>
    intro a b
    rw [List.eq_nil_iff_forall_not_mem.mpr (hnil a b)]
    exact List.nodup_nil
  case home => exact fun a b o ho => absurd ho (hnil a b o)
  case counted =>
    rw [entries_empty]
    rfl

theorem find?_empty (id : ObjectId) : (empty hash hashpower h).find? id = none := by
  refine Option.eq_none_iff_forall_ne_some.mpr fun o ho => ?_
  have := mem_entries_of_find? ho
  rw [entries_empty] at this
  cases this

end Empty

/-- Setting a chain exchanges one among all the chains. -/
theorem chains_setChainOf_perm (ix : Index) (id : ObjectId) (c : Chain) :
    ∃ rest, ix.chains.Perm (ix.chainOf id :: rest) ∧ (ix.setChainOf id c).chains.Perm (c :: rest) := by
  let stripes := ix.stripes.stripes.toList
  let stripe := ix.stripes.get (ix.bucketOf id)
  have ha : (ix.stripeOf id).val < stripes.length := by simp [stripes]
  have hb : (ix.localOf id).val < stripe.toList.length := by simp
  have hget : stripes[(ix.stripeOf id).val] = stripe := rfl
  refine ⟨stripe.toList.eraseIdx (ix.localOf id) ++
    (stripes.eraseIdx (ix.stripeOf id)).flatMap Vector.toList, ?_, ?_⟩
  · have hout := (List.getElem_cons_eraseIdx_perm ha).symm.flatMap_right Vector.toList
    rw [List.flatMap_cons, hget] at hout
    exact hout.trans ((List.getElem_cons_eraseIdx_perm hb).symm.append_right _)
  · have hset : (ix.setChainOf id c).chains =
        (stripes.set (ix.stripeOf id) (stripe.set (ix.localOf id) c)).flatMap Vector.toList := by
      change List.flatMap Vector.toList (ix.stripes.stripes.set (ix.stripeOf id)
        (stripe.set (ix.localOf id) c)).toList = _
      rw [Vector.toList_set]
    have hout := (List.set_perm_cons_eraseIdx ha (stripe.set (ix.localOf id) c)).flatMap_right
      Vector.toList
    rw [List.flatMap_cons, Vector.toList_set] at hout
    rw [hset]
    exact hout.trans ((List.set_perm_cons_eraseIdx hb c).append_right _)

theorem length_entries_setChainOf (ix : Index) (id : ObjectId) (c : Chain) :
    (ix.setChainOf id c).entries.length + (ix.chainOf id).length = ix.entries.length + c.length := by
  obtain ⟨rest, h, h'⟩ := ix.chains_setChainOf_perm id c
  unfold entries
  rw [h.flatten.length_eq, h'.flatten.length_eq, List.flatten_cons, List.flatten_cons,
    List.length_append, List.length_append]
  omega

/-- A chain may be exchanged for one with different ids of the same bucket, if the
count follows. -/
theorem Valid.setChainOf (h : ix.Valid) {c : Chain} {n : Nat} (hc : (c.map CacheObject.id).Nodup)
    (hi : ∀ o ∈ c, o.id = i ∨ o ∈ ix.chainOf i)
    (hn : n + (ix.chainOf i).length = ix.count + c.length) :
    ({ ix.setChainOf i c with count := n } : Index).Valid := by
  constructor
  case nodup =>
    intro a b
    have hat := ix.chainAt_setChainOf i c a b
    split at hat
    · exact (congrArg (List.map CacheObject.id) hat).symm ▸ hc
    · exact (congrArg (List.map CacheObject.id) hat).symm ▸ h.nodup a b
  case home =>
    intro a b o ho
    have hat := ix.chainAt_setChainOf i c a b
    split at hat
    next hab =>
      rcases hi o (hat ▸ ho) with rfl | hm
      · exact ⟨hab.1.symm, hab.2.symm⟩
      · obtain ⟨ha, hb⟩ := h.home _ _ o hm
        exact ⟨ha.trans hab.1.symm, hb.trans hab.2.symm⟩
    next => exact h.home a b o (hat ▸ ho)
  case counted =>
    have hlen := ix.length_entries_setChainOf i c
    rw [← h.counted] at hlen
    change n = (ix.setChainOf i c).entries.length
    omega

theorem find?_setChainOf (ix : Index) (i j : ObjectId) (c : Chain) :
    (ix.setChainOf i c).find? j =
      if ix.bucketOf j = ix.bucketOf i then c.find? j else ix.find? j := by
  unfold find?
  rw [chainOf_setChainOf]
  split <;> rfl

/-- Exchanging a chain for one that differs at one id of the bucket changes the
entry of that id alone. -/
theorem find?_setChainOf_of {ix : Index} {i : ObjectId} {c : Chain} {r : Option CacheObject}
    (hc : ∀ k, c.find? k = if k = i then r else (ix.chainOf i).find? k) (j : ObjectId) :
    (ix.setChainOf i c).find? j = if j = i then r else ix.find? j := by
  rw [find?_setChainOf]
  split
  next hb =>
    have hchain : ix.chainOf j = ix.chainOf i := by
      unfold chainOf localOf
      simp only [hb]
    rw [hc, ← hchain]
    rfl
  next hb => rw [if_neg fun h => hb (by rw [h])]

/-! ## Insertion -/

theorem insert_of_some {old : CacheObject} (h : ix.find? o.id = some old) (s : Objects) :
    ix.insert s o = (some old, ix.setChainOf o.id ((ix.chainOf o.id).replace o),
      (s.setResident o false).setResident old false) := by
  unfold find? at h
  unfold insert
  simp only [h]

theorem insert_of_none (h : ix.find? o.id = none) (s : Objects) :
    ix.insert s o = (none,
      { ix.setChainOf o.id (o :: ix.chainOf o.id) with count := ix.count + 1 },
      s.setResident o false) := by
  unfold find? at h
  unfold insert
  simp only [h]

theorem insert_fst (ix : Index) (s : Objects) (o : CacheObject) :
    (ix.insert s o).1 = ix.find? o.id := by
  cases h : ix.find? o.id with
  | none => rw [insert_of_none h]
  | some old => rw [insert_of_some h]

theorem shape_insert (ix : Index) (s : Objects) (o : CacheObject) :
    (ix.insert s o).2.1.shape = ix.shape := by
  cases h : ix.find? o.id with
  | none => rw [insert_of_none h]; rfl
  | some old => rw [insert_of_some h]; rfl

theorem find?_insert (ix : Index) (s : Objects) (o : CacheObject) (j : ObjectId) :
    (ix.insert s o).2.1.find? j = if j = o.id then some o else ix.find? j := by
  cases h : ix.find? o.id with
  | none =>
    rw [insert_of_none h]
    exact find?_setChainOf_of (fun k => Chain.find?_cons) j
  | some old =>
    rw [insert_of_some h]
    unfold find? at h
    exact find?_setChainOf_of (fun k => Chain.find?_replace (by rw [h]; rfl)) j

theorem Valid.insert (h : ix.Valid) (s : Objects) (o : CacheObject) :
    (ix.insert s o).2.1.Valid := by
  cases hf : ix.find? o.id with
  | none =>
    rw [insert_of_none hf]
    refine h.setChainOf ?_ (fun p hp => ?_) ?_
    · refine List.nodup_cons.mpr ⟨fun hm => ?_, h.nodup_chainOf o.id⟩
      obtain ⟨p, hp, hpo⟩ := List.mem_map.mp hm
      exact Chain.find?_eq_none_iff.mp hf p hp hpo
    · exact (List.mem_cons.mp hp).imp_left fun e => by rw [e]
    · rw [List.length_cons]
      omega
  | some old =>
    rw [insert_of_some hf]
    refine h.setChainOf ?_ (fun p hp => ?_) ?_
    · rw [Chain.map_id_replace]
      exact h.nodup_chainOf o.id
    · exact (Chain.mem_replace hp).imp_left fun e => by rw [e]
    · rw [Chain.length_replace]

/-! ## Deletion -/

theorem delete_of_some (h : ix.find? i = some o) (s : Objects) :
    ix.delete s i = (some o,
      { ix.setChainOf i ((ix.chainOf i).erase i) with count := ix.count - 1 },
      s.setResident o false) := by
  unfold find? at h
  unfold delete
  simp only [h]

theorem delete_of_none (h : ix.find? i = none) (s : Objects) :
    ix.delete s i = (none, ix, s) := by
  unfold find? at h
  unfold delete
  simp only [h]

theorem delete_fst (ix : Index) (s : Objects) (i : ObjectId) :
    (ix.delete s i).1 = ix.find? i := by
  cases h : ix.find? i with
  | none => rw [delete_of_none h]
  | some o => rw [delete_of_some h]

theorem shape_delete (ix : Index) (s : Objects) (i : ObjectId) :
    (ix.delete s i).2.1.shape = ix.shape := by
  cases h : ix.find? i with
  | none => rw [delete_of_none h]
  | some o => rw [delete_of_some h]; rfl

theorem find?_delete (h : ix.Valid) (s : Objects) (i j : ObjectId) :
    (ix.delete s i).2.1.find? j = if j = i then none else ix.find? j := by
  cases hf : ix.find? i with
  | none =>
    rw [delete_of_none hf]
    split
    next hj => rw [hj, hf]
    next => rfl
  | some o =>
    rw [delete_of_some hf]
    exact find?_setChainOf_of (fun k => Chain.find?_erase (h.nodup_chainOf i)) j

theorem Valid.delete (h : ix.Valid) (s : Objects) (i : ObjectId) :
    (ix.delete s i).2.1.Valid := by
  cases hf : ix.find? i with
  | none =>
    rw [delete_of_none hf]
    exact h
  | some o =>
    rw [delete_of_some hf]
    have hsub := Chain.erase_sublist (ix.chainOf i) i
    refine h.setChainOf ((h.nodup_chainOf i).sublist (hsub.map _))
      (fun p hp => .inr (hsub.subset hp)) ?_
    have hlen := Chain.length_erase hf
    have hpos := List.length_pos_of_mem (mem_entries_of_find? hf)
    rw [← h.counted] at hpos
    omega

theorem deleteExact_of_find? (h : ix.find? o.id = some o) (s : Objects) :
    ix.deleteExact s o = (true, (ix.delete s o.id).2) := if_pos h

theorem deleteExact_of_ne (h : ix.find? o.id ≠ some o) (s : Objects) :
    ix.deleteExact s o = (false, ix, s) := if_neg h

theorem shape_deleteExact (ix : Index) (s : Objects) (o : CacheObject) :
    (ix.deleteExact s o).2.1.shape = ix.shape := by
  by_cases ho : ix.find? o.id = some o
  · rw [deleteExact_of_find? ho]
    exact shape_delete ix s o.id
  · rw [deleteExact_of_ne ho]

theorem find?_deleteExact (h : ix.Valid) (s : Objects) (o : CacheObject) (j : ObjectId) :
    (ix.deleteExact s o).2.1.find? j = (ix.find? j).filter (· ≠ o) := by
  by_cases ho : ix.find? o.id = some o
  · rw [deleteExact_of_find? ho]
    change (ix.delete s o.id).2.1.find? j = _
    rw [find?_delete h]
    split
    next hj => simp [hj, ho, Option.filter]
    next hj =>
      cases hf : ix.find? j with
      | none => rfl
      | some p =>
        have hpo : p ≠ o := fun e => hj (by rw [← id_of_find? hf, e])
        simp [Option.filter, hpo]
  · rw [deleteExact_of_ne ho]
    change ix.find? j = _
    cases hf : ix.find? j with
    | none => rfl
    | some p =>
      have hpo : p ≠ o := by
        rintro rfl
        exact ho (by rw [id_of_find? hf, hf])
      simp [Option.filter, hpo]

theorem Valid.deleteExact (h : ix.Valid) (s : Objects) (o : CacheObject) :
    (ix.deleteExact s o).2.1.Valid := by
  by_cases ho : ix.find? o.id = some o
  · rw [deleteExact_of_find? ho]
    exact h.delete s o.id
  · rw [deleteExact_of_ne ho]
    exact h

end Index
end SegmentedCache
