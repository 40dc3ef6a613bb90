import SegmentedCache.Proofs.Policy.Counted

/-!
# What no operation changes

A cache is set up when it is made. Operations work on what it holds and on its counters,
never on its parameters. This needs no soundness: it is read off the operations one
after another, so it holds of every run that does not fault.

Of the counters, those of the requests change with requests only, and there only when the
request is counted. So every step is looked at once, for whatever shows neither the
queue nor what is counted of objects that come and go.
-/
namespace SegmentedCache

namespace Action
variable {C α γ : Type} {f : C → γ}

/-- Every run leaves what `f` shows of the cache as it was. -/
abbrev Spares (f : C → γ) : Action C α → Prop := Relates fun c _ c' _ => f c' = f c

theorem composes_spares (f : C → γ) : Composes fun c _ c' _ => f c' = f c :=
  composes_eq fun c _ => f c

theorem spares_lift (x : CacheM α) : Spares f (liftM x : Action C α) :=
  relates_lift (R := fun c c' => f c' = f c) (fun _ => rfl) x

end Action

namespace Policy
open SegmentedCache.Action
variable {C γ δ : Type} [Policy C] {f : C → γ} {g : C → δ}

/-- No operation changes what `f` shows of a cache. -/
def Constant (f : C → γ) : Prop := ∀ op, Spares f (perform op : Action C Response)

namespace Constant
variable (h : Constant f)
include h

theorem check (r : Request) (update : Bool) : Spares f (Policy.check r update : Action C Lookup) :=
  relates_map_iff.mp (h (.check r update))

theorem insert (r : Request) : Spares f (Policy.insert r : Action C (Option CacheObject)) :=
  relates_map_iff.mp (h (.insert r))

theorem evict : Spares f (Policy.evict : Action C (Option CacheObject)) :=
  relates_map_iff.mp (h .evict)

theorem remove (id : ObjectId) : Spares f (Policy.remove id : Action C (Option CacheObject)) :=
  relates_map_iff.mp (h (.remove id))

theorem performAll (ops : List Operation) :
    Spares f (Policy.performAll ops : Action C (List Response)) := by
  have hs := composes_spares f
  induction ops with
  | nil => exact hs.pure []
  | cons op rest ih => exact hs.bind (h op) fun _ => hs.bind ih fun _ => hs.pure _

/-- What is read off something constant is constant. -/
theorem of_eq (k : ∀ c c', f c' = f c → g c' = g c) : Constant g :=
  fun op => (h op).mono fun e => k _ _ e

end Constant
end Policy

namespace Lru
open SegmentedCache.Action Policy
variable {γ : Type} {f : Lru → γ}

/-- `f` shows neither the queue and its bytes nor what is counted of objects. -/
structure Blind (f : Lru → γ) : Prop where
  shape : ∀ (c : Lru) (queue : Recency) (occupied : Bytes), f { c with queue, occupied } = f c
  eviction : Spares f (recordCore Counters.recordEviction)
  insertion : ∀ size, Spares f (recordCore (·.recordInsertion size))
  removal : Spares f (record LruCounters.recordRemoval)
  expiredRemoval : Spares f (record LruCounters.recordExpiredRemoval)

theorem Blind.working (h : Blind f) : Working fun c _ c' _ => f c' = f c where
  toComposes := composes_spares f
  emit _ := spares_lift _
  createFor _ := spares_lift _
  enter _ _ := spares_lift _
  unlink o c st b c' st' hy := by
    obtain ⟨queue, occupied, rfl⟩ := unlink_eq hy
    exact h.shape c queue occupied
  eviction := h.eviction
  insertion := h.insertion
  removal := h.removal
  attach r o c st p c' st' hy := by
    obtain ⟨-, occupied, -, rfl, -⟩ := yields_attach_iff.mp hy
    exact h.shape c _ occupied
  requeue {c _ _ queue} _ := h.shape c queue c.occupied
  expiredRemoval := h.expiredRemoval

/-- A request changes no more than its count does. -/
theorem Blind.count_of_serve (h : Blind f) {r : Request} {c c' : Lru} {st st' : Store}
    {found : Lookup} (hy : (serve r).Yields c st found c' st') :
    ∃ c₁ c₂ st₁, f c₁ = f c ∧ f c' = f c₂ ∧
      (recordCore (·.recordLookup r.size found)).Yields c₁ st₁ () c₂ st₁ := by
  obtain ⟨c₁, st₁, c₂, hcheck, hrecord, hend⟩ := found_of_serve hy
  exact ⟨c₁, c₂, st₁, h.working.check r true hcheck, h.working.admission r found hend, hrecord⟩

/-- What no request counts is never changed. -/
theorem Blind.constant (h : Blind f)
    (hlookup : ∀ size found, Spares f (recordCore (·.recordLookup size found))) : Constant f :=
  fun _ => h.working.perform fun r _ => h.working.serve hlookup r

theorem spares_params_record (g : LruCounters → Except Fault LruCounters) :
    Spares params (record g) := by
  intro c st u c' st' hy
  obtain ⟨counters, -, rfl, -⟩ := yields_record_iff.mp hy
  rfl

/-- The parameters of a cache are those it was made with. -/
theorem constant_params : Constant params :=
  Blind.constant ⟨fun _ _ _ => rfl, spares_params_record _, fun _ => spares_params_record _,
    spares_params_record _, spares_params_record _⟩ fun _ _ => spares_params_record _

end Lru
end SegmentedCache
