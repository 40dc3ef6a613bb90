import SegmentedCache.Store

/-!
# Actions

An action works on a cache and on the store. It yields a result, a new cache and
a new store, or it faults. The lemmas below compute an action on given states,
one for each way in which actions are put together; `yields_bind_iff` is the
same for sequences that do not fault.
-/
namespace SegmentedCache

/-- Work on a cache of type `C` and on the store. -/
abbrev Action (C : Type) := StateT C CacheM

namespace Action
variable {C D α β : Type}

/-- Works on whichever of two kinds of cache there is. -/
def either (f : Action C α) (g : Action D α) : Action (C ⊕ D) α
  | .inl c => do
    let (a, c) ← f c
    pure (a, .inl c)
  | .inr d => do
    let (a, d) ← g d
    pure (a, .inr d)

/-- Works on a cache of a family, which keeps its member. -/
def family {I : Type} {F : I → Type} (f : ∀ i, Action (F i) α) : Action (Σ i, F i) α
  | ⟨i, c⟩ => do
    let (a, c) ← f i c
    pure (a, ⟨i, c⟩)

@[simp] theorem either_apply_inl (f : Action C α) (g : Action D α) (c : C) (st : Store) :
    either f g (.inl c) st =
      match f c st with
      | .ok (a, c) st => .ok (a, .inl c) st
      | .error e st => .error e st := by
  change EStateM.bind (f c) _ st = _
  unfold EStateM.bind
  cases f c st <;> rfl

@[simp] theorem either_apply_inr (f : Action C α) (g : Action D α) (d : D) (st : Store) :
    either f g (.inr d) st =
      match g d st with
      | .ok (a, d) st => .ok (a, .inr d) st
      | .error e st => .error e st := by
  change EStateM.bind (g d) _ st = _
  unfold EStateM.bind
  cases g d st <;> rfl

@[simp] theorem family_apply {I : Type} {F : I → Type} (f : ∀ i, Action (F i) α) (i : I)
    (c : F i) (st : Store) :
    family f ⟨i, c⟩ st =
      match f i c st with
      | .ok (a, c) st => .ok (a, ⟨i, c⟩) st
      | .error e st => .error e st := by
  change EStateM.bind (f i c) _ st = _
  unfold EStateM.bind
  cases f i c st <;> rfl

/-- The action runs without a fault, with this result and these new states. -/
def Yields (act : Action C α) (c : C) (st : Store) (a : α) (c' : C) (st' : Store) : Prop :=
  act c st = .ok (a, c') st'

@[simp] theorem pure_apply (a : α) (c : C) (st : Store) :
    (pure a : Action C α) c st = .ok (a, c) st := rfl

@[simp] theorem get_apply (c : C) (st : Store) : (get : Action C C) c st = .ok (c, c) st := rfl

@[simp] theorem set_apply (c' c : C) (st : Store) :
    (set c' : Action C Unit) c st = .ok ((), c') st := rfl

@[simp] theorem getThe_apply (c : C) (st : Store) :
    (getThe Store : Action C Store) c st = .ok (st, c) st := rfl

@[simp] theorem modifyThe_apply (f : Store → Store) (c : C) (st : Store) :
    (modifyThe Store f : Action C Unit) c st = .ok ((), c) (f st) := rfl

@[simp] theorem bind_apply (x : Action C α) (f : α → Action C β) (c : C) (st : Store) :
    (x >>= f) c st =
      match x c st with
      | .ok (a, c) st => f a c st
      | .error e st => .error e st := by
  change EStateM.bind (x c) _ st = _
  unfold EStateM.bind
  cases x c st <;> rfl

@[simp] theorem map_apply (f : α → β) (x : Action C α) (c : C) (st : Store) :
    (f <$> x) c st =
      match x c st with
      | .ok (a, c) st => .ok (f a, c) st
      | .error e st => .error e st := by
  change EStateM.bind (x c) _ st = _
  unfold EStateM.bind
  cases x c st <;> rfl

@[simp] theorem discard_apply (x : Action C α) (c : C) (st : Store) :
    (discard x : Action C PUnit) c st =
      match x c st with
      | .ok (_, c) st => .ok (PUnit.unit, c) st
      | .error e st => .error e st := by
  change (Function.const α PUnit.unit <$> x) c st = _
  rw [map_apply]

@[simp] theorem lift_apply (x : CacheM α) (c : C) (st : Store) :
    (liftM x : Action C α) c st =
      match x st with
      | .ok a st => .ok (a, c) st
      | .error e st => .error e st := by
  change EStateM.bind x _ st = _
  unfold EStateM.bind
  cases x st <;> rfl

@[simp] theorem checked_apply (x : Except Fault α) (c : C) (st : Store) :
    (liftM x : Action C α) c st =
      match x with
      | .ok a => .ok (a, c) st
      | .error e => .error e st := by
  cases x <;> rfl

theorem yields_bind_iff {x : Action C α} {f : α → Action C β} {c c'' : C} {st st'' : Store}
    {b : β} :
    (x >>= f).Yields c st b c'' st'' ↔
      ∃ a c' st', x.Yields c st a c' st' ∧ (f a).Yields c' st' b c'' st'' := by
  unfold Yields
  rw [bind_apply]
  constructor
  · intro h
    match hx : x c st with
    | .ok (a, c') st' => exact ⟨a, c', st', rfl, by rw [hx] at h; exact h⟩
    | .error e st' => rw [hx] at h; cases h
  · rintro ⟨a, c', st', hx, hf⟩
    rw [hx]
    exact hf

end Action
end SegmentedCache
