import Mathlib
import SegmentedCache.Store

/-!
# What a construction does to the store

A construction adds indexes to the store and leaves everything else as it was,
whether it succeeds or is refused. It leads to a property if, unless it faults,
the store has only grown, and the property holds of what it built. It settles if it
never faults; whether it is refused, and for what, is then known beforehand.
-/
namespace SegmentedCache

/-- The store got further indexes and is otherwise the same, reports apart. -/
structure Store.Grown (st st' : Store) : Prop where
  objects : st'.objects = st.objects
  size : st.indexes.size ≤ st'.indexes.size
  index : ∀ k, k < st.indexes.size → st'.index k = st.index k

theorem Store.Grown.refl (st : Store) : Store.Grown st st := ⟨rfl, le_rfl, fun _ _ => rfl⟩

theorem Store.Grown.trans {st st' st'' : Store} (h : Store.Grown st st')
    (k : Store.Grown st' st'') : Store.Grown st st'' :=
  ⟨k.objects.trans h.objects, h.size.trans k.size,
    fun i hi => (k.index i (Nat.lt_of_lt_of_le hi h.size)).trans (h.index i hi)⟩

theorem Store.Grown.events (st : Store) (es : Array Event) :
    Store.Grown st { st with events := es } := ⟨rfl, le_rfl, fun _ _ => rfl⟩

/-- Unless it faults, the work only grows the store and ends with `Q`. -/
def CacheM.Leads {α : Type} (x : CacheM α) (st : Store) (Q : α → Store → Prop) : Prop :=
  ∀ a st', x st = .ok a st' → Store.Grown st st' ∧ Q a st'

/-- Unless it faults, the construction only grows the store, and ends with `Q`
if it is not refused. -/
def BuildM.Leads {α : Type} (x : BuildM α) (st : Store) (Q : α → Store → Prop) : Prop :=
  CacheM.Leads x.run st fun r st' => ∀ a, r = .ok a → Q a st'

section
variable {α β : Type} {st : Store}

namespace CacheM
variable {x : CacheM α} {Q : α → Store → Prop}

theorem leads_pure {a : α} (h : Q a st) : Leads (pure a) st Q := by
  intro b st' hb
  injection hb with e e'
  subst e e'
  exact ⟨Store.Grown.refl st, h⟩

theorem leads_throw (e : Fault) : Leads (throw e : CacheM α) st Q := by
  intro b st' hb
  cases hb

theorem Leads.bind {f : α → CacheM β} {R : β → Store → Prop} (h : Leads x st Q)
    (k : ∀ a st', Store.Grown st st' → Q a st' → Leads (f a) st' R) : Leads (x >>= f) st R := by
  intro b st'' hb
  change EStateM.bind x f st = _ at hb
  unfold EStateM.bind at hb
  cases hx : x st with
  | ok a st' =>
    rw [hx] at hb
    obtain ⟨hg, hQ⟩ := h a st' hx
    obtain ⟨hg', hR⟩ := k a st' hg hQ b st'' hb
    exact ⟨hg.trans hg', hR⟩
  | error e st' =>
    rw [hx] at hb
    cases hb

theorem leads_emit (e : Event) {Q : Unit → Store → Prop}
    (h : Q () { st with events := st.events.push e }) : Leads (emit e) st Q := by
  intro b st' hb
  injection hb with _ e'
  subst e'
  exact ⟨Store.Grown.events st _, h⟩

end CacheM

namespace BuildM
variable {x : BuildM α} {Q : α → Store → Prop}

theorem leads_pure {a : α} (h : Q a st) : Leads (pure a) st Q := by
  apply CacheM.leads_pure
  intro b hb
  injection hb with e
  exact e ▸ h

theorem leads_throw (e : BuildError) : Leads (throw e : BuildM α) st Q := by
  apply CacheM.leads_pure
  intro b hb
  cases hb

theorem Leads.bind {f : α → BuildM β} {R : β → Store → Prop} (h : Leads x st Q)
    (k : ∀ a st', Store.Grown st st' → Q a st' → Leads (f a) st' R) : Leads (x >>= f) st R := by
  apply CacheM.Leads.bind h
  intro r st' hg hr
  cases r with
  | ok a => exact k a st' hg (hr a rfl)
  | error e => exact CacheM.leads_pure fun b hb => by cases hb

theorem leads_except {y : Except BuildError α} (h : ∀ a, y = .ok a → Q a st) :
    Leads (liftM y : BuildM α) st Q := by
  cases y with
  | ok a => exact leads_pure (h a rfl)
  | error e => exact leads_throw e

theorem leads_fault {y : Except Fault α} (h : ∀ a, y = .ok a → Q a st) :
    Leads (liftM y : BuildM α) st Q := by
  intro r st' hr
  cases y with
  | ok a => exact leads_pure (h a rfl) r st' hr
  | error e => cases hr

theorem leads_lift {y : CacheM α} (h : CacheM.Leads y st Q) :
    Leads (ExceptT.lift y : BuildM α) st Q := by
  apply CacheM.Leads.bind h
  intro a st' hg hQ
  exact leads_pure hQ

theorem Leads.orFault (h : Leads x st Q) : CacheM.Leads (BuildM.orFault x) st Q := by
  apply CacheM.Leads.bind h
  intro r st' hg hr
  cases r with
  | ok a => exact CacheM.leads_pure (hr a rfl)
  | error e => exact CacheM.leads_throw _

theorem Leads.orAbort (h : Leads x st Q) : CacheM.Leads (BuildM.orAbort x) st Q := by
  apply CacheM.Leads.bind h
  intro r st' hg hr
  cases r with
  | ok a => exact CacheM.leads_pure (hr a rfl)
  | error e =>
    exact (CacheM.leads_emit (Q := fun _ _ => True) _ trivial).bind
      fun _ _ _ _ => CacheM.leads_throw _

/-! ## Constructions that cannot fault -/

/-- What a check refuses for. -/
def refusal? (y : Except BuildError α) : Option BuildError :=
  match y with
  | .ok _ => none
  | .error e => some e

@[simp] theorem refusal?_eq_none_iff {y : Except BuildError Unit} :
    refusal? y = none ↔ y = .ok () := by
  cases y <;> simp [refusal?]

theorem refusal?_bind (y : Except BuildError α) (z : Except BuildError β) :
    refusal? (y >>= fun _ => z) = (refusal? y).or (refusal? z) := by
  cases y <;> rfl

/-- The construction does not fault. It is refused for the flaw, if there is one, and
else ends with `Q`. -/
def Settles (x : BuildM α) (flaw : Option BuildError) (Q : α → Prop) : Prop :=
  ∀ st, ∃ r st', x.run st = .ok r st' ∧ refusal? r = flaw ∧ ∀ a, r = .ok a → Q a

theorem settles_pure {Q : α → Prop} {a : α} (h : Q a) : Settles (pure a) none Q := fun st =>
  ⟨.ok a, st, rfl, rfl, by rintro _ ⟨⟩; exact h⟩

theorem settles_except (y : Except BuildError α) :
    Settles (liftM y) (refusal? y) fun a => y = .ok a := fun st => by
  cases y with
  | ok a => exact ⟨.ok a, st, rfl, rfl, fun _ hb => hb⟩
  | error e => exact ⟨.error e, st, rfl, rfl, fun _ hb => by cases hb⟩

theorem settles_lift {y : CacheM α} (h : ∀ st, ∃ a st', y st = .ok a st') :
    Settles (ExceptT.lift y) none fun _ => True := fun st => by
  obtain ⟨a, st', hy⟩ := h st
  refine ⟨.ok a, st', ?_, rfl, fun _ _ => trivial⟩
  change EStateM.bind y _ st = _
  unfold EStateM.bind
  rw [hy]

/-- What comes later has no say if there is a flaw before. -/
theorem Settles.bind {Q : α → Prop} {R : β → Prop} {f : α → BuildM β}
    {flaw later : Option BuildError} (h : x.Settles flaw Q)
    (k : ∀ a, Q a → (f a).Settles later R) : Settles (x >>= f) (flaw.or later) R := fun st => by
  obtain ⟨r, st', hx, rfl, hQ⟩ := h st
  have hrun : ∀ r', (x >>= f).run st = r' ↔ (match r with
      | .ok a => (f a).run st'
      | .error e => .ok (.error e) st') = r' := fun r' => by
    change EStateM.bind x _ st = r' ↔ _
    unfold EStateM.bind
    rw [show x st = _ from hx]
    cases r <;> rfl
  cases r with
  | ok a =>
    obtain ⟨r', st'', hf, hr', hR⟩ := k a (hQ a rfl) st'
    exact ⟨r', st'', (hrun _).mpr hf, hr', hR⟩
  | error e => exact ⟨.error e, st', (hrun _).mpr rfl, rfl, fun _ hb => by cases hb⟩

end BuildM
end

end SegmentedCache
