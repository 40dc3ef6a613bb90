import SegmentedCache.Proofs.Construction
import SegmentedCache.Proofs.Policy.Calm

/-!
# New least-recently-used caches

A cache that was just created is empty, on a new index of its own. Caches created
one after another are apart from each other and hold nothing, so a cache all of
whose leaves are new is sound.
-/
namespace SegmentedCache

theorem Params.validate_eq_ok_iff {p : Params} :
    p.validate = .ok () ↔ 1 ≤ p.capacity.toNat ∧ p.hashpower ≤ maxHashpower := by
  have hzero : p.capacity = 0 ↔ p.capacity.toNat = 0 := by rw [← UInt64.toNat_inj]; rfl
  unfold validate
  split
  next h => simp [hzero.mp h]
  next h =>
    split
    next hlt => simp [hlt]
    next hle => simpa using ⟨Nat.pos_of_ne_zero (mt hzero.mpr h), Nat.not_lt.mp hle⟩

namespace Lru
variable {st st' : Store} {c : Lru} {cs ds : List Lru}

/-- An empty cache on an empty index that exists. -/
structure Unused (st : Store) (c : Lru) : Prop where
  queue : c.queue = .empty
  occupied : c.occupied = 0
  known : c.index < st.indexes.size
  index : ∃ hash hashpower h, st.index c.index = .empty hash hashpower h

theorem Unused.objects_eq (h : Unused st c) : c.objects = [] := by
  unfold objects
  rw [h.queue]
  rfl

theorem Unused.entry?_eq (h : Unused st c) (id : ObjectId) : c.entry? st id = none := by
  obtain ⟨hash, hashpower, hle, e⟩ := h.index
  unfold entry?
  rw [e, Index.find?_empty]

theorem Unused.coherent (h : Unused st c) : c.Coherent st := by
  constructor
  case toLinked =>
    constructor
    case known => exact h.known
    case valid =>
      obtain ⟨hash, hashpower, hle, e⟩ := h.index
      rw [e]
      exact Index.valid_empty _ hashpower hle
    case issued_entry =>
      intro id o he
      rw [h.entry?_eq] at he
      cases he
    case spelled => exact ⟨[], h.queue ▸ Recency.Spells.empty, by simp⟩
    case entered =>
      intro o ho
      rw [h.objects_eq] at ho
      cases ho
    case queued =>
      intro id o he
      rw [h.entry?_eq] at he
      cases he
  case toCharged =>
    constructor
    case occupied =>
      rw [h.occupied, h.objects_eq]
      rfl
    case within =>
      rw [h.occupied]
      exact Nat.zero_le _

theorem Unused.grown (h : Unused st c) (g : Store.Grown st st') : Unused st' c where
  queue := h.queue
  occupied := h.occupied
  known := Nat.lt_of_lt_of_le h.known g.size
  index := by
    rw [g.index _ h.known]
    exact h.index

/-- Unused caches on different indexes, none of which existed in the first store. -/
structure New (st st' : Store) (cs : List Lru) : Prop where
  unused : ∀ c ∈ cs, Unused st' c
  late : ∀ c ∈ cs, st.indexes.size ≤ c.index
  distinct : cs.Pairwise fun c d => c.index ≠ d.index

theorem New.append {st'' : Store} (h : New st st' cs) (k : New st' st'' ds)
    (g : Store.Grown st st') (g' : Store.Grown st' st'') : New st st'' (cs ++ ds) where
  unused c hc := by
    rcases List.mem_append.mp hc with hc | hc
    · exact (h.unused c hc).grown g'
    · exact k.unused c hc
  late c hc := by
    rcases List.mem_append.mp hc with hc | hc
    · exact h.late c hc
    · exact g.size.trans (k.late c hc)
  distinct := by
    refine List.pairwise_append.mpr ⟨h.distinct, k.distinct, fun c hc d hd => ?_⟩
    exact Nat.ne_of_lt (Nat.lt_of_lt_of_le (h.unused c hc).known (k.late d hd))

theorem New.together (h : New st st' cs) : Together st' cs where
  linked c hc := (h.unused c hc).coherent.toLinked
  apart := by
    refine h.distinct.imp_of_mem fun {c d} hc _ hcd => ⟨hcd, fun o ho => ?_⟩
    rw [(h.unused c hc).objects_eq] at ho
    cases ho

theorem New.ids_eq (h : New st st' cs) (hc : c ∈ cs) : c.ids st' = ∅ := by
  ext id
  refine iff_of_false (fun hid => ?_) (by simp)
  obtain ⟨o, ho⟩ := mem_ids_iff.mp hid
  have he := (find?_eq_some_iff.mp ho).1
  rw [(h.unused c hc).entry?_eq] at he
  cases he

theorem New.sole (h : New st st' cs) : Sole st' cs := by
  refine h.distinct.imp_of_mem fun {c d} hc _ _ => ?_
  rw [h.ids_eq hc]
  exact Set.empty_disjoint _

/-! ## Creation -/

/-- What a construction sets of a cache, its queue and its index apart. -/
structure Fresh (p : Params) (c : Lru) : Prop where
  params : c.params = p
  counters : c.counters = .ofCapacity p.capacity

theorem leads_createIndex (hashpower : Nat) :
    (BuildM.createIndex hashpower).Leads st fun k st' =>
      st.indexes.size ≤ k ∧ k < st'.indexes.size ∧
        ∃ h, st'.index k = .empty st.hash hashpower h := by
  unfold BuildM.createIndex
  change (liftM (Index.create st.hash hashpower) >>= _ : BuildM IndexId).Leads st _
  refine (BuildM.leads_except (Q := fun index _ => ∃ h, index = .empty st.hash hashpower h)
    fun index hi => ?_).bind fun index st₁ g hi => ?_
  · unfold Index.create at hi
    split at hi
    next h =>
      injection hi with e
      exact ⟨h, e.symm⟩
    next => cases hi
  · refine (BuildM.leads_lift (CacheM.leads_emit (Q := fun _ _ => True) _ trivial)).bind
      fun _ st₂ g' _ => ?_
    intro r st₃ hr
    injection hr with e e'
    subst e e'
    refine ⟨⟨rfl, ?_, fun k hk => Table.get_push_of_ne _ _ (Nat.ne_of_lt hk)⟩, fun k hk => ?_⟩
    · rw [Table.size_push]
      exact Nat.le_succ _
    · injection hk with e
      subst e
      obtain ⟨h, rfl⟩ := hi
      refine ⟨g.size.trans g'.size, ?_, h, Table.get_push_self _ _⟩
      rw [Table.size_push]
      exact Nat.lt_succ_self _

theorem leads_onIndex {p : Params} {k : IndexId} {st₀ : Store} (hlate : st₀.indexes.size ≤ k)
    (hk : k < st.indexes.size) (hi : ∃ hash hashpower h, st.index k = .empty hash hashpower h) :
    (onIndex p k).Leads st fun c st' => New st₀ st' [c] ∧ c.Fresh p := by
  apply (CacheM.leads_emit (Q := fun _ st' => st' = _) _ rfl).bind
  intro _ st₁ _ e
  subst e
  refine CacheM.leads_pure ⟨⟨fun c hc => ?_, fun c hc => ?_, List.pairwise_singleton ..⟩, ⟨rfl, rfl⟩⟩
  · rw [List.mem_singleton.mp hc]
    exact ⟨rfl, rfl, hk, hi⟩
  · rw [List.mem_singleton.mp hc]
    exact hlate

theorem leads_create (p : Params) :
    (create p).Leads st fun c st' => New st st' [c] ∧ c.Fresh p := by
  unfold create
  apply (BuildM.leads_except (Q := fun _ _ => True) fun _ _ => trivial).bind
  intro _ st₁ g _
  apply (leads_createIndex p.hashpower).bind
  intro k st₂ _ hk
  exact BuildM.leads_lift (leads_onIndex (g.size.trans hk.1) hk.2.1 ⟨_, _, hk.2.2⟩)

/-- The parameters are all there is to refuse. -/
theorem settles_create (p : Params) :
    (create p).Settles (BuildM.refusal? p.validate) fun c => p.validate = .ok () ∧ c.params = p := by
  rw [← @Option.or_none _ (BuildM.refusal? p.validate)]
  refine (BuildM.settles_except p.validate).bind fun _ hv st => ?_
  have hle := (Params.validate_eq_ok_iff.mp hv).2
  have hcreate : Index.create st.hash p.hashpower = .ok (.empty st.hash p.hashpower hle) :=
    dif_pos hle
  unfold BuildM.createIndex
  change ∃ r st', ((liftM (Index.create st.hash p.hashpower) >>= _) >>= _ : BuildM Lru).run st =
    .ok r st' ∧ _
  rw [hcreate]
  exact ⟨_, _, rfl, rfl, by rintro c ⟨⟩; exact ⟨hv, rfl⟩⟩

theorem leads_createVouched (p : Params) :
    (createVouched p).Leads st fun c st' => New st st' [c] ∧ c.Fresh p := by
  unfold createVouched
  refine (BuildM.leads_except (Q := fun _ _ => True) fun _ _ => trivial).orFault.bind
    fun _ st₁ g _ => ?_
  apply (leads_createIndex p.hashpower).orAbort.bind
  intro k st₂ _ hk
  exact leads_onIndex (g.size.trans hk.1) hk.2.1 ⟨_, _, hk.2.2⟩

end Lru

section
variable {C : Type} [Policy C] [Policy.Lawful C] {st₀ st : Store} {c : C}

theorem Policy.Sound.of_new (h : Lru.New st₀ st (Policy.leaves c)) : Policy.Sound st c :=
  ⟨h.together, fun d hd => (h.unused d hd).coherent.toCharged, h.sole⟩

theorem Policy.Neat.of_new (h : Lru.New st₀ st (Policy.leaves c)) : Policy.Neat st c where
  toSound := .of_new h
  tidy d hd o ho := by
    rw [(h.unused d hd).objects_eq] at ho
    cases ho

/-- A new cache stocks nothing, so it is calm if it is roomy. -/
theorem Policy.Calm.of_new (h : Lru.New st₀ st (Policy.leaves c)) (hr : Policy.Roomy c) :
    Policy.Calm st c where
  toSound := .of_new h
  tidy := (Policy.Neat.of_new h).tidy
  roomy := hr
  small x hx := by
    obtain ⟨d, hd, o, ho, -⟩ := hx
    have hid : x.1 ∈ d.ids st := Lru.mem_ids_iff.mpr ⟨o, ho⟩
    rw [h.ids_eq hd] at hid
    cases hid

end

end SegmentedCache
