import SegmentedCache.Proofs.Outcome

/-!
# Runs and what stops them

An action runs from given states up to `E` if it ends with a result and states of
which `Q` holds, or faults, and then `E` holds. Where `E` is false the action does
not fault; where nothing is known of `E` this is what is known of the runs that
end. So one proof serves the results and the absence of faults.
-/
namespace SegmentedCache

namespace Action
variable {C α β : Type}

def Runs (act : Action C α) (c : C) (st : Store) (E : Prop) (Q : α → C → Store → Prop) : Prop :=
  match act c st with
  | .ok (a, c') st' => Q a c' st'
  | .error _ _ => E

section
variable {act : Action C α} {c : C} {st : Store} {E F : Prop} {Q R : α → C → Store → Prop}

theorem Runs.apply {a : α} {c' : C} {st' : Store} (h : act.Runs c st E Q)
    (hy : act.Yields c st a c' st') : Q a c' st' := by
  unfold Runs Yields at *
  rwa [hy] at h

theorem Runs.of_yields {a : α} {c' : C} {st' : Store} (h : act.Yields c st a c' st')
    (hQ : Q a c' st') : act.Runs c st E Q := by
  unfold Runs Yields at *
  rwa [h]

/-- Where nothing stops it, an action ends with a result. -/
theorem Runs.yields (h : act.Runs c st E Q) (hE : ¬ E) :
    ∃ a c' st', act.Yields c st a c' st' ∧ Q a c' st' := by
  unfold Runs at h
  unfold Yields
  cases hx : act c st with
  | ok x st' =>
    rw [hx] at h
    exact ⟨x.1, x.2, st', rfl, h⟩
  | error e st' =>
    rw [hx] at h
    exact absurd h hE

theorem Runs.mono (h : act.Runs c st E Q) (hE : E → F)
    (hQ : ∀ a c' st', act.Yields c st a c' st' → Q a c' st' → R a c' st') :
    act.Runs c st F R := by
  unfold Runs at *
  unfold Yields at hQ
  cases hx : act c st with
  | ok x st' =>
    rw [hx] at h
    exact hQ _ _ _ hx h
  | error e st' =>
    rw [hx] at h
    exact hE h

end

section
variable {c : C} {st : Store} {E : Prop}

theorem runs_bind_iff {x : Action C α} {f : α → Action C β} {R : β → C → Store → Prop} :
    (x >>= f).Runs c st E R ↔ x.Runs c st E fun a c' st' => (f a).Runs c' st' E R := by
  unfold Runs
  rw [bind_apply]
  cases x c st <;> exact Iff.rfl

theorem Runs.bind {x : Action C α} {f : α → Action C β} {Q : α → C → Store → Prop}
    {R : β → C → Store → Prop} (h : x.Runs c st E Q)
    (k : ∀ a c' st', x.Yields c st a c' st' → Q a c' st' → (f a).Runs c' st' E R) :
    (x >>= f).Runs c st E R :=
  runs_bind_iff.mpr (h.mono id k)

@[simp] theorem runs_pure {a : α} {Q : α → C → Store → Prop} :
    (pure a : Action C α).Runs c st E Q ↔ Q a c st := Iff.rfl

@[simp] theorem runs_get_bind {f : C → Action C β} {Q : β → C → Store → Prop} :
    (get >>= f).Runs c st E Q ↔ (f c).Runs c st E Q := Iff.rfl

@[simp] theorem runs_getThe_bind {f : Store → Action C β} {Q : β → C → Store → Prop} :
    (getThe Store >>= f).Runs c st E Q ↔ (f st).Runs c st E Q := Iff.rfl

@[simp] theorem runs_set {c' : C} {Q : Unit → C → Store → Prop} :
    (set c' : Action C Unit).Runs c st E Q ↔ Q () c' st := Iff.rfl

@[simp] theorem runs_emit {e : Event} {Q : Unit → C → Store → Prop} :
    (liftM (CacheM.emit e) : Action C Unit).Runs c st E Q ↔
      Q () c { st with events := st.events.push e } := Iff.rfl

@[simp] theorem runs_emit_bind {e : Event} {f : Unit → Action C β} {Q : β → C → Store → Prop} :
    ((liftM (CacheM.emit e) : Action C Unit) >>= f).Runs c st E Q ↔
      (f ()).Runs c { st with events := st.events.push e } E Q := Iff.rfl

theorem runs_bind_of_yields {x : Action C α} {f : α → Action C β} {R : β → C → Store → Prop}
    {a : α} {c' : C} {st' : Store} (h : x.Yields c st a c' st') :
    (x >>= f).Runs c st E R ↔ (f a).Runs c' st' E R := by
  unfold Runs Yields at *
  rw [bind_apply, h]

theorem runs_checked_bind {x : Except Fault α} {f : α → Action C β} {Q : β → C → Store → Prop}
    (he : ∀ e, x = .error e → E) (h : ∀ a, x = .ok a → (f a).Runs c st E Q) :
    ((liftM x : Action C α) >>= f).Runs c st E Q := by
  unfold Runs at *
  rw [bind_apply, checked_apply]
  cases x with
  | ok a => exact h a rfl
  | error e => exact he e rfl

@[simp] theorem runs_map {x : Action C α} {g : α → β} {Q : β → C → Store → Prop} :
    (g <$> x).Runs c st E Q ↔ x.Runs c st E fun a c' st' => Q (g a) c' st' := by
  unfold Runs
  rw [map_apply]
  cases x c st <;> exact Iff.rfl

@[simp] theorem runs_discard {x : Action C α} {Q : PUnit → C → Store → Prop} :
    (discard x : Action C PUnit).Runs c st E Q ↔
      x.Runs c st E fun _ c' st' => Q PUnit.unit c' st' := by
  unfold Runs
  rw [discard_apply]
  cases x c st <;> exact Iff.rfl

end

section
variable {I : Type} {F : I → Type} {st : Store} {E : Prop}

theorem runs_either_inl {f : Action C α} {g : Action D α} {c : C} {Q : α → C → Store → Prop}
    {R : α → C ⊕ D → Store → Prop} (h : f.Runs c st E Q)
    (hR : ∀ a c st', Q a c st' → R a (.inl c) st') : (Action.either f g).Runs (.inl c) st E R := by
  unfold Runs at *
  rw [either_apply_inl]
  cases hx : f c st with
  | ok x st' =>
    rw [hx] at h
    exact hR _ _ _ h
  | error e st' =>
    rw [hx] at h
    exact h

theorem runs_either_inr {f : Action C α} {g : Action D α} {d : D} {Q : α → D → Store → Prop}
    {R : α → C ⊕ D → Store → Prop} (h : g.Runs d st E Q)
    (hR : ∀ a d st', Q a d st' → R a (.inr d) st') : (Action.either f g).Runs (.inr d) st E R := by
  unfold Runs at *
  rw [either_apply_inr]
  cases hx : g d st with
  | ok x st' =>
    rw [hx] at h
    exact hR _ _ _ h
  | error e st' =>
    rw [hx] at h
    exact h

theorem runs_family {f : ∀ i, Action (F i) α} {i : I} {c : F i} {Q : α → F i → Store → Prop}
    {R : α → (Σ i, F i) → Store → Prop} (h : (f i).Runs c st E Q)
    (hR : ∀ a c st', Q a c st' → R a ⟨i, c⟩ st') : (Action.family f).Runs ⟨i, c⟩ st E R := by
  unfold Runs at *
  rw [family_apply]
  cases hx : f i c st with
  | ok x st' =>
    rw [hx] at h
    exact hR _ _ _ h
  | error e st' =>
    rw [hx] at h
    exact h

end
end Action

theorem Lru.runs_record {f : LruCounters → Except Fault LruCounters} {c : Lru} {st : Store}
    {E : Prop} {Q : Unit → Lru → Store → Prop} (he : ∀ e, f c.counters = .error e → E)
    (h : ∀ counters, f c.counters = .ok counters → Q () { c with counters } st) :
    (Lru.record f).Runs c st E Q :=
  Action.runs_get_bind.mpr (Action.runs_checked_bind he h)

theorem Segmented.runs_record {C : Type} {top : Nat}
    {f : SegmentedCounters → Except Fault SegmentedCounters} {s : Segmented C top} {st : Store}
    {E : Prop} {Q : Unit → Segmented C top → Store → Prop}
    (he : ∀ e, f s.counters = .error e → E)
    (h : ∀ counters, f s.counters = .ok counters → Q () { s with counters } st) :
    (Segmented.record f).Runs s st E Q :=
  Action.runs_get_bind.mpr (Action.runs_checked_bind he h)

theorem Segmented.runs_onSegment {C α : Type} {top : Nat} {i : Level top} {act : Action C α}
    {s : Segmented C top} {st : Store} {E : Prop} {Q : α → C → Store → Prop}
    {R : α → Segmented C top → Store → Prop} (h : act.Runs (s.segment i) st E Q)
    (hR : ∀ a c st', act.Yields (s.segment i) st a c st' → Q a c st' → R a (s.setSegment i c) st') :
    (onSegment i act).Runs s st E R := by
  unfold Action.Runs Action.Yields at *
  rw [onSegment_apply]
  cases hx : act (s.segment i) st with
  | ok x st' =>
    rw [hx] at h
    exact hR _ _ _ hx h
  | error e st' =>
    rw [hx] at h
    exact h

end SegmentedCache
