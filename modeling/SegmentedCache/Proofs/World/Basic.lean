import SegmentedCache.Proofs.Policy.Calm
import SegmentedCache.Proofs.Tier.Building

/-!
# Caches among their clients

A world is a store with the caches that live in it. It changes by what a client
can do: build a cache or an index, make an object, perform an operation on a
cache, drop a cache, or give a command to any index at all, also to the index of
a cache and with objects of another. No order is imposed on these steps, and a
step that faults ends the world's history.

A world is sound if its caches are, and if their leaves are apart from each
other. Every world that can be reached from an empty one, whatever its hash, is sound.
-/
namespace SegmentedCache
open Policy

/-- A cache with what it was built from. -/
structure Member where
  depth : Nat
  blueprint : Blueprint depth
  params : Params
  tier : Tier depth

structure World where
  store : Store
  members : List Member

namespace World

/-- The world of a client that has done nothing yet. -/
def empty (hash : ObjectId → UInt64 := Hash.ofId) : World := ⟨{ hash }, []⟩

inductive Step : World → World → Prop
  | built {w : World} {d : Nat} (b : Blueprint d) (p : Params) {t : Tier d} {st : Store}
    (h : (b.build p).run w.store = .ok (.ok t) st) : Step w ⟨st, ⟨d, b, p, t⟩ :: w.members⟩
  | refused {w : World} {d : Nat} (b : Blueprint d) (p : Params) {e : BuildError} {st : Store}
    (h : (b.build p).run w.store = .ok (.error e) st) : Step w ⟨st, w.members⟩
  | performed {w : World} {before after : List Member} {m : Member}
    (hm : w.members = before ++ m :: after) (op : Operation) {response : Response}
    {t : Tier m.depth} {st : Store} (h : (perform op).Yields m.tier w.store response t st) :
    Step w ⟨st, before ++ { m with tier := t } :: after⟩
  | dropped {w : World} {before after : List Member} {m : Member}
    (hm : w.members = before ++ m :: after) {t : Tier m.depth} {st : Store}
    (h : Action.Yields release m.tier w.store () t st) : Step w ⟨st, before ++ after⟩
  | objectMade {w : World} (id : ObjectId) (size : Bytes) (expiry : Option Time)
    {o : CacheObject} {st : Store} (h : CacheM.createObject id size expiry w.store = .ok o st) :
    Step w ⟨st, w.members⟩
  | indexMade {w : World} (hashpower : Nat) {made : Except BuildError IndexId} {st : Store}
    (h : (BuildM.createIndex hashpower).run w.store = .ok made st) : Step w ⟨st, w.members⟩
  | commanded {w : World} {k : IndexId} (hk : k < w.store.indexes.size) {command : Index.Command}
    (hc : command.Issued w.store.objects) {answer : Option CacheObject} {st : Store}
    (h : CacheM.onIndex k (fun ix s => command.run ix s) w.store = .ok answer st) :
    Step w ⟨st, w.members⟩

/-- The worlds that some history of steps leads to. -/
inductive Reachable : World → Prop
  | start {hash : ObjectId → UInt64} : Reachable (empty hash)
  | step {w w' : World} (h : Reachable w) (s : Step w w') : Reachable w'

/-- The leaves of all caches. -/
def leaves (w : World) : List Lru := w.members.flatMap fun m => Policy.leaves m.tier

structure Sound (w : World) : Prop where
  together : Lru.Together w.store w.leaves
  member : ∀ m ∈ w.members, Policy.Sound w.store m.tier
  fits : ∀ m ∈ w.members, m.blueprint.Narrowing → Fits m.tier

end World

/-! ## What leaves the caches of a world alone -/

namespace Lru
variable {st st' : Store} {c : Lru}

/-- A cache stays linked and finds no further id. -/
structure Endures (c : Lru) (st st' : Store) : Prop where
  linked : c.Linked st'
  ids_subset : c.ids st' ⊆ c.ids st

theorem Undisturbed.endures (u : Undisturbed c st st') (h : c.Linked st) : Endures c st st' := by
  refine ⟨h.of_undisturbed u, fun id hid => ?_⟩
  obtain ⟨o, ho⟩ := mem_ids_iff.mp hid
  obtain ⟨he, hr⟩ := find?_eq_some_iff.mp ho
  rw [u.entry?_eq] at he
  exact mem_ids_iff.mpr ⟨o, find?_eq_some_iff.mpr ⟨he, u.resident o (h.issued_entry he) hr⟩⟩

theorem Confined.endures {cs cs' : List Lru} (k : Confined st cs st' cs') (h : c.Linked st)
    (ha : ∀ d ∈ cs, d.Apart c) : Endures c st st' := (k.undisturbed h ha).endures h

theorem Linked.grown (h : c.Linked st) (g : Store.Grown st st') : Undisturbed c st st' where
  index := g.index _ h.known
  size := g.size
  issued o ho := by rwa [g.objects]
  resident o _ hr := by
    unfold Store.resident at *
    rwa [g.objects] at hr
  slot o _ := by rw [g.objects]

/-- A command on some index, be it that of the cache or another. -/
theorem Linked.commanded (h : c.Linked st) (k : IndexId) {command : Index.Command}
    (hc : command.Issued st.objects) :
    Endures c st { st with
      objects := (command.run (st.index k) st.objects).2.2
      indexes := st.indexes.set k (command.run (st.index k) st.objects).2.1 } := by
  by_cases hk : k = c.index
  · subst hk
    have w := command.written h.valid h.issued_entry hc
    refine ⟨h.of_written w, fun id hid => ?_⟩
    obtain ⟨o, ho⟩ := mem_ids_iff.mp hid
    obtain ⟨he, hr⟩ := find?_eq_some_iff.mp ho
    change ((st.indexes.set c.index (command.run (st.index c.index) st.objects).2.1).get
      c.index).find? id = some o at he
    rw [Table.get_set_self] at he
    change (command.run (st.index c.index) st.objects).2.2.resident o = true at hr
    rcases w.enters he with hold | ⟨hg, hi⟩
    · rw [w.resident o (h.issued_entry hold), Bool.and_eq_true] at hr
      exact mem_ids_iff.mpr ⟨o, find?_eq_some_iff.mpr ⟨hold, hr.1⟩⟩
    · rw [w.resident o hi, Bool.and_eq_true, decide_eq_true_eq] at hr
      exact absurd hg hr.2
  · have q := Index.quiet_run (st.index k) st.objects command
    exact Undisturbed.endures ⟨Table.get_set_of_ne _ _ (Ne.symm hk), Table.size_le_size_set ..,
      q.issued, fun o _ hr => q.resident o hr, fun o _ => q.slot o⟩ h

theorem Linked.created (h : c.Linked st) (id : ObjectId) (size : Bytes) (expiry : Option Time) :
    Endures c st { st with objects := (st.objects.create id size expiry).2 } := by
  refine Undisturbed.endures ⟨rfl, le_rfl, fun o ho => ho.create id size expiry, fun o ho hr => ?_,
    fun o ho => Objects.slot_create st.objects id size expiry (h.issued ho)⟩ h
  unfold Store.resident at *
  rwa [Objects.resident_create st.objects id size expiry ho] at hr

end Lru

namespace Policy
variable {C : Type} [Policy C] [Lawful C] {st st' : Store} {c : C}

/-- A cache all of whose leaves endure stays sound. -/
theorem Sound.of_endures (h : Sound st c) (he : ∀ d ∈ leaves c, d.Endures st st') : Sound st' c where
  together := ⟨fun d hd => (he d hd).linked, h.together.apart⟩
  charged := h.charged
  sole := h.sole.imp_of_mem fun hd hd' hdd => hdd.mono (he _ hd).ids_subset (he _ hd').ids_subset

end Policy

namespace World
variable {w w' : World} {st : Store} {before after : List Member} {m : Member}

theorem sound_empty (hash : ObjectId → UInt64) : Sound (empty hash) := by
  have hnone : ∀ m, m ∉ (empty hash).members := fun m => List.not_mem_nil
  exact ⟨⟨fun c hc => absurd hc List.not_mem_nil, .nil⟩, fun m hm => absurd hm (hnone m),
    fun m hm => absurd hm (hnone m)⟩

/-- The store changed so that every leaf endures. -/
theorem Sound.of_endures (h : w.Sound) (he : ∀ c ∈ w.leaves, c.Endures w.store st) :
    Sound ⟨st, w.members⟩ where
  together := ⟨fun c hc => (he c hc).linked, h.together.apart⟩
  member m hm := (h.member m hm).of_endures fun c hc => he c (List.mem_flatMap.mpr ⟨m, hm, hc⟩)
  fits := h.fits

theorem leaves_perm (before after : List Member) (m : Member) :
    (before ++ m :: after).flatMap (fun m => Policy.leaves m.tier) |>.Perm
      (Policy.leaves m.tier ++ (before ++ after).flatMap fun m => Policy.leaves m.tier) :=
  List.perm_middle.flatMap_right _

/-- One cache worked, and the others were outside. -/
theorem Sound.of_kept (h : w.Sound) (hm : w.members = before ++ m :: after) {t : Tier m.depth}
    (k : Kept w.store m.tier st t) : Sound ⟨st, before ++ { m with tier := t } :: after⟩ := by
  have ht : Lru.Together w.store (Policy.leaves m.tier ++
      (before ++ after).flatMap fun m => Policy.leaves m.tier) := by
    have := h.together
    unfold leaves at this
    rw [hm] at this
    exact this.perm (leaves_perm before after m)
  have hmem : ∀ m' ∈ before ++ { m with tier := t } :: after,
      m' = { m with tier := t } ∨ m' ∈ before ++ after := by
    intro m' hm'
    simpa [or_left_comm, or_assoc] using hm'
  have hin : ∀ m' ∈ before ++ after, m' ∈ w.members := by
    intro m' hm'
    rw [hm, List.mem_append, List.mem_cons]
    exact (List.mem_append.mp hm').imp_right .inr
  constructor
  case together =>
    exact (ht.append_of_confined k.confined k.together).perm
      (leaves_perm before after { m with tier := t }).symm
  case member =>
    intro m' hm'
    rcases hmem m' hm' with rfl | hm'
    · exact k.toSound
    · apply (h.member m' (hin m' hm')).of_endures
      intro c hc
      have hc' : c ∈ (before ++ after).flatMap fun m => Policy.leaves m.tier :=
        List.mem_flatMap.mpr ⟨m', hm', hc⟩
      exact k.confined.endures (ht.right.linked c hc') (ht.apart_of_mem hc')
  case fits =>
    intro m' hm' hn
    rcases hmem m' hm' with rfl | hm'
    · have hm₀ : m ∈ w.members := hm ▸ List.mem_append_right _ List.mem_cons_self
      exact k.fits (h.fits m hm₀ hn)
    · exact h.fits m' (hin m' hm') hn

theorem Sound.built (h : w.Sound) {d : Nat} {b : Blueprint d} {p : Params} {t : Tier d}
    (hb : (b.build p).run w.store = .ok (.ok t) st) : Sound ⟨st, ⟨d, b, p, t⟩ :: w.members⟩ := by
  obtain ⟨g, hQ⟩ := b.leads_build p w.store _ _ hb
  obtain ⟨hnew, -, hfits⟩ := hQ t rfl
  have hold := h.of_endures fun c hc =>
    ((h.together.linked c hc).grown g).endures (h.together.linked c hc)
  have hapart : ∀ c ∈ Policy.leaves t, ∀ c' ∈ w.leaves, Lru.Apart c c' := by
    intro c hc c' hc'
    constructor
    · exact Ne.symm (Nat.ne_of_lt (Nat.lt_of_lt_of_le (h.together.linked c' hc').known
        (hnew.late c hc)))
    · intro o ho
      rw [(hnew.unused c hc).objects_eq] at ho
      cases ho
  constructor
  case together =>
    constructor
    case linked =>
      intro c hc
      rcases List.mem_append.mp hc with hc | hc
      · exact hnew.together.linked c hc
      · exact hold.together.linked c hc
    case apart =>
      exact List.pairwise_append.mpr ⟨hnew.together.apart, hold.together.apart, hapart⟩
  case member =>
    intro m hm
    rcases List.mem_cons.mp hm with rfl | hm
    · exact .of_new hnew
    · exact hold.member m hm
  case fits =>
    intro m hm hn
    rcases List.mem_cons.mp hm with rfl | hm
    · exact hfits hn
    · exact h.fits m hm hn

theorem Sound.grown (h : w.Sound) (g : Store.Grown w.store st) : Sound ⟨st, w.members⟩ :=
  h.of_endures fun c hc => ((h.together.linked c hc).grown g).endures (h.together.linked c hc)

theorem Sound.dropped (h : w.Sound) (hm : w.members = before ++ m :: after) {t : Tier m.depth}
    (hr : Action.Yields release m.tier w.store () t st) : Sound ⟨st, before ++ after⟩ := by
  have hmem : m ∈ w.members := hm ▸ List.mem_append_right _ List.mem_cons_self
  obtain ⟨-, k⟩ := (Lawful.ensures_release (h.member m hmem).together).apply hr
  have ht : Lru.Together w.store (Policy.leaves m.tier ++
      (before ++ after).flatMap fun m => Policy.leaves m.tier) := by
    have := h.together
    unfold leaves at this
    rw [hm] at this
    exact this.perm (leaves_perm before after m)
  have hrest : Sound ⟨w.store, before ++ after⟩ := by
    have hin : ∀ m' ∈ before ++ after, m' ∈ w.members := by
      intro m' hm'
      rw [hm, List.mem_append, List.mem_cons]
      exact (List.mem_append.mp hm').imp_right .inr
    exact ⟨ht.right, fun m' hm' => h.member m' (hin m' hm'), fun m' hm' => h.fits m' (hin m' hm')⟩
  exact hrest.of_endures fun c hc => k.endures (ht.right.linked c hc) (ht.apart_of_mem hc)

theorem sound_step (h : w.Sound) (s : Step w w') : w'.Sound := by
  cases s with
  | built b p hb => exact h.built hb
  | refused b p hb => exact h.grown (b.leads_build p w.store _ _ hb).1
  | performed hm op hp =>
    have hmem := hm ▸ List.mem_append_right _ List.mem_cons_self
    exact h.of_kept hm ((ensures_perform (h.member _ hmem) op).apply hp)
  | dropped hm hr => exact h.dropped hm hr
  | objectMade id size expiry ho =>
    injection ho with _ e
    subst e
    exact h.of_endures fun c hc => (h.together.linked c hc).created id size expiry
  | indexMade hashpower hi => exact h.grown (Lru.leads_createIndex hashpower _ _ hi).1
  | @commanded k hk command hc answer st hx =>
    injection hx with _ e
    subst e
    exact h.of_endures fun c hl => (h.together.linked c hl).commanded k hc

theorem Reachable.sound (h : Reachable w) : w.Sound := by
  induction h with
  | start => exact sound_empty _
  | step _ s ih => exact sound_step ih s

/-! ## Histories that compute

A client that works on the newest cache only. Where a step would fault, the
world stays as it is.
-/

def build {d : Nat} (w : World) (b : Blueprint d) (p : Params) : World :=
  match (b.build p).run w.store with
  | .ok (.ok t) st => ⟨st, ⟨d, b, p, t⟩ :: w.members⟩
  | _ => w

def work (w : World) (op : Operation) : World :=
  match w.members with
  | [] => w
  | m :: rest =>
    match perform op m.tier w.store with
    | .ok (_, t) st => ⟨st, { m with tier := t } :: rest⟩
    | .error _ _ => w

/-- Deletes an id from an index, whose ever it is. -/
def delete (w : World) (k : IndexId) (id : ObjectId) : World :=
  if k < w.store.indexes.size then
    match CacheM.onIndex k (fun ix s => (Index.Command.delete id).run ix s) w.store with
    | .ok _ st => ⟨st, w.members⟩
    | .error _ _ => w
  else w

/-- Makes an object and enters it into an index, whose ever it is. -/
def enter (w : World) (k : IndexId) (id : ObjectId) (size : Bytes) : World :=
  if k < w.store.indexes.size then
    match CacheM.createObject id size none w.store with
    | .ok o st =>
      match CacheM.onIndex k (fun ix s => (Index.Command.insert o).run ix s) st with
      | .ok _ st => ⟨st, w.members⟩
      | .error _ _ => w
    | .error _ _ => w
  else w

theorem Reachable.build (h : Reachable w) {d : Nat} (b : Blueprint d) (p : Params) :
    Reachable (w.build b p) := by
  unfold World.build
  split
  next t st hb => exact .step h (.built b p hb)
  next => exact h

theorem Reachable.work (h : Reachable w) (op : Operation) : Reachable (w.work op) := by
  unfold World.work
  split
  next => exact h
  next m rest hm =>
    split
    next response t st hp =>
      exact .step h (.performed (show w.members = [] ++ m :: rest from hm) op hp)
    next => exact h

theorem Reachable.delete (h : Reachable w) (k : IndexId) (id : ObjectId) :
    Reachable (w.delete k id) := by
  unfold World.delete
  split
  next hk =>
    split
    next answer st hx =>
      exact .step h (.commanded hk (show (Index.Command.delete id).Issued _ from trivial) hx)
    next => exact h
  next => exact h

theorem Reachable.enter (h : Reachable w) (k : IndexId) (id : ObjectId) (size : Bytes) :
    Reachable (w.enter k id size) := by
  have hmade : CacheM.createObject id size none w.store = .ok (w.store.objects.create id size none).1
      { w.store with objects := (w.store.objects.create id size none).2 } := rfl
  have hreach := Reachable.step h (.objectMade id size none hmade)
  unfold World.enter
  split
  next hk =>
    rw [hmade]
    dsimp only
    split
    next answer st hx =>
      have hissued := Objects.issued_create w.store.objects id size none
      refine .step hreach (.commanded ?_ ?_ hx)
      · exact hk
      · exact hissued
    next => exact h
  next => exact h

end World
end SegmentedCache
