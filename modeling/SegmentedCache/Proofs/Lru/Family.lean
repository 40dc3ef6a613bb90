import SegmentedCache.Proofs.Lru.Coherence

/-!
# Families of caches in one store

Several caches live in one store, each on an index of its own and with objects
of its own. Work on some of them is confined to them if it leaves alone the
other indexes and the rows of objects that they do not queue, makes no old
object resident, and queues objects of theirs and new ones only. Such work
disturbs no cache apart from them (`Confined.undisturbed`), and every outside
cache finds what it found before (`Confined.find?_eq`).

The ids that a family holds are those that some member finds, and its stock says
of which size the objects are. A family may be required to hold every id at most
once; `Sole.append_of_confined` is how that is kept.
-/
namespace SegmentedCache.Lru
variable {st st' st'' : Store} {c d : Lru} {cs cs' cs'' ds : List Lru} {id : ObjectId}

/-- Two caches on different indexes and with no queued object in common. -/
structure Apart (c d : Lru) : Prop where
  index : c.index ≠ d.index
  objects : ∀ o ∈ c.objects, o ∉ d.objects

theorem Apart.symm (h : c.Apart d) : d.Apart c :=
  ⟨h.index.symm, fun o ho hc => h.objects o hc ho⟩

structure Together (st : Store) (cs : List Lru) : Prop where
  linked : ∀ c ∈ cs, c.Linked st
  apart : cs.Pairwise Apart

/-- The ids that a cache finds. -/
def ids (st : Store) (c : Lru) : Set ObjectId := {id | (c.find? st id).isSome}

/-- The ids that some cache of a family finds. -/
def held (st : Store) (cs : List Lru) : Set ObjectId := {id | ∃ c ∈ cs, id ∈ c.ids st}

/-- The ids that some cache of a family finds, with the sizes of their objects. -/
def stock (st : Store) (cs : List Lru) : Set (ObjectId × Bytes) :=
  {x | ∃ c ∈ cs, ∃ o, c.find? st x.1 = some o ∧ o.size = x.2}

/-- No two caches of the family find the same id. -/
def Sole (st : Store) (cs : List Lru) : Prop :=
  cs.Pairwise fun c d => Disjoint (c.ids st) (d.ids st)

theorem mem_ids_iff : id ∈ c.ids st ↔ ∃ o, c.find? st id = some o := Option.isSome_iff_exists

@[simp] theorem held_nil : held st [] = ∅ := by
  ext id
  simp [held]

@[simp] theorem held_singleton : held st [c] = c.ids st := by
  ext id
  simp [held]

@[simp] theorem held_append : held st (cs ++ ds) = held st cs ∪ held st ds := by
  ext id
  simp only [held, List.mem_append, Set.mem_ofPred_eq, Set.mem_union, or_and_right, exists_or]

theorem held_perm (h : cs.Perm ds) : held st cs = held st ds := by
  ext id
  simp only [held, h.mem_iff]

theorem mem_held_iff : id ∈ held st cs ↔ ∃ size, (id, size) ∈ stock st cs := by
  constructor
  · intro ⟨c, hc, hid⟩
    obtain ⟨o, ho⟩ := mem_ids_iff.mp hid
    exact ⟨o.size, c, hc, o, ho, rfl⟩
  · intro ⟨size, c, hc, o, ho, _⟩
    exact ⟨c, hc, mem_ids_iff.mpr ⟨o, ho⟩⟩

@[simp] theorem stock_append : stock st (cs ++ ds) = stock st cs ∪ stock st ds := by
  ext x
  simp only [stock, List.mem_append, Set.mem_ofPred_eq, Set.mem_union, or_and_right, exists_or]

theorem stock_perm (h : cs.Perm ds) : stock st cs = stock st ds := by
  ext x
  simp only [stock, h.mem_iff]

theorem Together.perm (h : Together st cs) (hp : cs.Perm ds) : Together st ds :=
  ⟨fun c hc => h.linked c (hp.mem_iff.mpr hc), (hp.pairwise_iff Apart.symm).mp h.apart⟩

theorem Sole.perm (h : Sole st cs) (hp : cs.Perm ds) : Sole st ds :=
  (hp.pairwise_iff fun h => h.symm).mp h

theorem Together.left (h : Together st (cs ++ ds)) : Together st cs :=
  ⟨fun c hc => h.linked c (List.mem_append_left _ hc), (List.pairwise_append.mp h.apart).1⟩

theorem Together.right (h : Together st (cs ++ ds)) : Together st ds :=
  ⟨fun c hc => h.linked c (List.mem_append_right _ hc), (List.pairwise_append.mp h.apart).2.1⟩

theorem Together.apart_of_mem (h : Together st (cs ++ ds)) (hd : d ∈ ds) :
    ∀ c ∈ cs, c.Apart d := fun c hc => (List.pairwise_append.mp h.apart).2.2 c hc d hd

theorem Sole.left (h : Sole st (cs ++ ds)) : Sole st cs := (List.pairwise_append.mp h).1

theorem Sole.right (h : Sole st (cs ++ ds)) : Sole st ds := (List.pairwise_append.mp h).2.1

theorem sole_append_iff :
    Sole st (cs ++ ds) ↔ Sole st cs ∧ Sole st ds ∧ Disjoint (held st cs) (held st ds) := by
  unfold Sole
  rw [List.pairwise_append, Set.disjoint_left]
  simp only [and_congr_right_iff]
  intro _ _
  constructor
  · intro h id hc hd
    obtain ⟨c, hc, hic⟩ := hc
    obtain ⟨d, hd, hid⟩ := hd
    exact Set.disjoint_left.mp (h c hc d hd) hic hid
  · intro h c hc d hd
    apply Set.disjoint_left.mpr
    intro id hic hid
    exact h ⟨c, hc, hic⟩ ⟨d, hd, hid⟩

/-- Work that turned the caches `cs` into `cs'` left the rest of the store
alone. -/
structure Confined (st : Store) (cs : List Lru) (st' : Store) (cs' : List Lru) : Prop where
  make : ∀ c' ∈ cs', ∃ c ∈ cs, c.index = c'.index
  size : st.indexes.size ≤ st'.indexes.size
  index : ∀ k, (∀ c ∈ cs, c.index ≠ k) → st'.index k = st.index k
  issued : ∀ o, st.objects.Issued o → st'.objects.Issued o
  falls : ∀ o, st.objects.Issued o → st'.resident o → st.resident o
  row : ∀ o, st.objects.Issued o → (∀ c ∈ cs, o ∉ c.objects) →
    st'.resident o = st.resident o ∧ st'.objects.slot o = st.objects.slot o
  queued : ∀ c' ∈ cs', ∀ o ∈ c'.objects, (∃ c ∈ cs, o ∈ c.objects) ∨ ¬ st.objects.Issued o

namespace Confined

theorem refl (st : Store) (cs : List Lru) : Confined st cs st cs where
  make c hc := ⟨c, hc, rfl⟩
  size := le_rfl
  index _ _ := rfl
  issued _ h := h
  falls _ _ h := h
  row _ _ _ := ⟨rfl, rfl⟩
  queued c hc _ ho := .inl ⟨c, hc, ho⟩

theorem trans (h : Confined st cs st' cs') (k : Confined st' cs' st'' cs'') :
    Confined st cs st'' cs'' where
  make c'' hc'' := by
    obtain ⟨c', hc', e'⟩ := k.make c'' hc''
    obtain ⟨c, hc, e⟩ := h.make c' hc'
    exact ⟨c, hc, e.trans e'⟩
  size := h.size.trans k.size
  index i hi := by
    refine (k.index i fun c' hc' => ?_).trans (h.index i hi)
    obtain ⟨c, hc, e⟩ := h.make c' hc'
    exact e ▸ hi c hc
  issued o ho := k.issued o (h.issued o ho)
  falls o ho hr := h.falls o ho (k.falls o (h.issued o ho) hr)
  row o ho hn := by
    have hn' : ∀ c' ∈ cs', o ∉ c'.objects := by
      intro c' hc' hm
      rcases h.queued c' hc' o hm with ⟨c, hc, hm⟩ | hu
      · exact hn c hc hm
      · exact hu ho
    have h₁ := h.row o ho hn
    have h₂ := k.row o (h.issued o ho) hn'
    exact ⟨h₂.1.trans h₁.1, h₂.2.trans h₁.2⟩
  queued c'' hc'' o ho := by
    rcases k.queued c'' hc'' o ho with ⟨c', hc', ho'⟩ | hu
    · exact h.queued c' hc' o ho'
    · exact .inr fun hi => hu (h.issued o hi)

/-- Work on some caches is work on a larger family. -/
theorem append (h : Confined st cs st' cs') (ds : List Lru) :
    Confined st (cs ++ ds) st' (cs' ++ ds) where
  make c' hc' := by
    rcases List.mem_append.mp hc' with hc' | hc'
    · obtain ⟨c, hc, e⟩ := h.make c' hc'
      exact ⟨c, List.mem_append_left _ hc, e⟩
    · exact ⟨c', List.mem_append_right _ hc', rfl⟩
  size := h.size
  index k hk := h.index k fun c hc => hk c (List.mem_append_left _ hc)
  issued := h.issued
  falls := h.falls
  row o ho hn := h.row o ho fun c hc => hn c (List.mem_append_left _ hc)
  queued c' hc' o ho := by
    rcases List.mem_append.mp hc' with hc' | hc'
    · apply (h.queued c' hc' o ho).imp_left
      intro hq
      obtain ⟨c, hc, ho⟩ := hq
      exact ⟨c, List.mem_append_left _ hc, ho⟩
    · exact .inl ⟨c', List.mem_append_right _ hc', ho⟩

theorem perm (h : Confined st cs st' cs') (hp : cs.Perm ds) {ds' : List Lru}
    (hp' : cs'.Perm ds') : Confined st ds st' ds' where
  make c' hc' := by
    obtain ⟨c, hc, e⟩ := h.make c' (hp'.mem_iff.mpr hc')
    exact ⟨c, hp.mem_iff.mp hc, e⟩
  size := h.size
  index k hk := h.index k fun c hc => hk c (hp.mem_iff.mp hc)
  issued := h.issued
  falls := h.falls
  row o ho hn := h.row o ho fun c hc => hn c (hp.mem_iff.mp hc)
  queued c' hc' o ho := by
    apply (h.queued c' (hp'.mem_iff.mpr hc') o ho).imp_left
    intro hq
    obtain ⟨c, hc, ho⟩ := hq
    exact ⟨c, hp.mem_iff.mp hc, ho⟩

theorem events (st : Store) (cs : List Lru) (es : Array Event) :
    Confined st cs { st with events := es } cs :=
  ⟨fun c hc => ⟨c, hc, rfl⟩, le_rfl, fun _ _ => rfl, fun _ h => h, fun _ _ h => h,
    fun _ _ _ => ⟨rfl, rfl⟩, fun c hc _ ho => .inl ⟨c, hc, ho⟩⟩

theorem undisturbed (h : Confined st cs st' cs') (hd : d.Linked st) (ha : ∀ c ∈ cs, c.Apart d) :
    Undisturbed d st st' where
  index := h.index d.index fun c hc => (ha c hc).index
  size := h.size
  issued := h.issued
  resident := h.falls
  slot o ho := (h.row o (hd.issued ho) fun c hc hm => (ha c hc).objects o hm ho).2

/-- A resident object of an outside cache stays resident, and no other entry of
its index becomes so. -/
theorem find?_eq (h : Confined st cs st' cs') (hd : d.Linked st) (ha : ∀ c ∈ cs, c.Apart d)
    (id : ObjectId) : d.find? st' id = d.find? st id := by
  have hres : ∀ o, d.entry? st id = some o → st'.resident o = st.resident o := by
    intro o he
    have ho := hd.issued_entry he
    by_cases hq : o ∈ d.objects
    · exact (h.row o ho fun c hc hm => (ha c hc).objects o hm hq).1
    · have hr : st.resident o = false := Bool.eq_false_iff.mpr fun hr => hq (hd.queued he hr)
      rw [hr]
      exact Bool.eq_false_iff.mpr fun hr' => hq (hd.queued he (h.falls o ho hr'))
  have he : d.entry? st' id = d.entry? st id := (h.undisturbed hd ha).entry?_eq id
  change (d.entry? st' id).filter st'.resident = (d.entry? st id).filter st.resident
  rw [he]
  cases hf : d.entry? st id with
  | none => rfl
  | some o => simp only [Option.filter, hres o hf]

theorem ids_eq (h : Confined st cs st' cs') (hd : d.Linked st) (ha : ∀ c ∈ cs, c.Apart d) :
    d.ids st' = d.ids st := by
  ext id
  change (d.find? st' id).isSome ↔ (d.find? st id).isSome
  rw [h.find?_eq hd ha]

theorem apart (h : Confined st cs st' cs') (hd : d.Linked st) (ha : ∀ c ∈ cs, c.Apart d) :
    ∀ c' ∈ cs', c'.Apart d := by
  intro c' hc'
  constructor
  · obtain ⟨c, hc, e⟩ := h.make c' hc'
    exact e ▸ (ha c hc).index
  · intro o ho hm
    rcases h.queued c' hc' o ho with ⟨c, hc, hq⟩ | hu
    · exact (ha c hc).objects o hq hm
    · exact hu (hd.issued hm)

end Confined

/-- The rest of a family stays as it was. -/
theorem stock_of_confined (h : Together st (cs ++ ds)) (k : Confined st cs st' cs') :
    stock st' ds = stock st ds := by
  ext x
  refine exists_congr fun d => and_congr_right fun hd => ?_
  rw [k.find?_eq (h.right.linked d hd) (h.apart_of_mem hd)]

theorem held_of_confined (h : Together st (cs ++ ds)) (k : Confined st cs st' cs') :
    held st' ds = held st ds := by
  ext id
  rw [mem_held_iff, mem_held_iff, stock_of_confined h k]

theorem Together.append_of_confined (h : Together st (cs ++ ds)) (k : Confined st cs st' cs')
    (h' : Together st' cs') : Together st' (cs' ++ ds) := by
  have hd := h.right.linked
  constructor
  · intro c hc
    rcases List.mem_append.mp hc with hc | hc
    · exact h'.linked c hc
    · exact (hd c hc).of_undisturbed (k.undisturbed (hd c hc) (h.apart_of_mem hc))
  · refine List.pairwise_append.mpr ⟨h'.apart, h.right.apart, fun c' hc' d hd' => ?_⟩
    exact k.apart (hd d hd') (h.apart_of_mem hd') c' hc'

theorem Sole.append_of_confined (h : Together st (cs ++ ds)) (hs : Sole st (cs ++ ds))
    (k : Confined st cs st' cs') (hs' : Sole st' cs')
    (hd : Disjoint (held st' cs') (held st ds)) : Sole st' (cs' ++ ds) := by
  refine sole_append_iff.mpr ⟨hs', ?_, held_of_confined h k ▸ hd⟩
  refine hs.right.imp_of_mem fun {c d} hc hd hcd => ?_
  rwa [k.ids_eq (h.right.linked c hc) (h.apart_of_mem hc),
    k.ids_eq (h.right.linked d hd) (h.apart_of_mem hd)]

end SegmentedCache.Lru
