import SegmentedCache.Lru.Operations
import SegmentedCache.Segmented.Operations

/-!
# Guarantees of actions

An action ensures a property of its result and of the states it leaves if it
either ends so, or faults because a counter or a sum of bytes left the range of
its word. Guarantees compose along the ways in which actions are put together,
and the lemmas below are those of the primitive actions. A guarantee says both
that no other fault arises and what holds when none does.
-/
namespace SegmentedCache

namespace Word
variable {α β : Type}

/-- A computation whose only faults are sums that leave the range of a word. -/
def Sums (x : Except Fault α) : Prop := ∀ e, x = .error e → e = .addOverflow

theorem sums_pure (a : α) : Sums (pure a : Except Fault α) := by
  intro e h
  cases h

theorem sums_add (a b : UInt64) : Sums (add a b) := fun _ h => (add_eq_error_iff.mp h).1

theorem Sums.bind {x : Except Fault α} {f : α → Except Fault β} (h : Sums x)
    (k : ∀ a, Sums (f a)) : Sums (x >>= f) := by
  intro e he
  cases x with
  | ok a => exact k a e he
  | error e' =>
    injection he with he
    exact h e (by rw [he])

end Word

section
open Word

theorem Counters.sums_recordHit (c : Counters) (size : Bytes) : Sums (c.recordHit size) :=
  (sums_add _ _).bind fun _ => (sums_add _ _).bind fun _ => (sums_add _ _).bind fun _ =>
    (sums_add _ _).bind fun _ => sums_pure _

theorem Counters.sums_recordMiss (c : Counters) (size : Bytes) : Sums (c.recordMiss size) :=
  (sums_add _ _).bind fun _ => (sums_add _ _).bind fun _ => sums_pure _

theorem Counters.sums_recordExpired (c : Counters) (size : Bytes) :
    Sums (c.recordExpired size) :=
  (c.sums_recordMiss size).bind fun _ => (sums_add _ _).bind fun _ => sums_pure _

theorem Counters.sums_recordLookup (c : Counters) (size : Bytes) (found : Lookup) :
    Sums (c.recordLookup size found) := by
  cases found with
  | hit => exact c.sums_recordHit size
  | miss => exact c.sums_recordMiss size
  | expired => exact c.sums_recordExpired size

theorem Counters.sums_recordInsertion (c : Counters) (size : Bytes) :
    Sums (c.recordInsertion size) :=
  (sums_add _ _).bind fun _ => (sums_add _ _).bind fun _ => sums_pure _

theorem Counters.sums_recordEviction (c : Counters) : Sums c.recordEviction :=
  (sums_add _ _).bind fun _ => sums_pure _

theorem LruCounters.sums_onCore {f : Counters → Except Fault Counters} (hf : ∀ c, Sums (f c))
    (c : LruCounters) : Sums (c.onCore f) :=
  (hf c.core).bind fun _ => sums_pure _

theorem LruCounters.sums_recordRemoval (c : LruCounters) : Sums c.recordRemoval :=
  (sums_add _ _).bind fun _ => sums_pure _

theorem LruCounters.sums_recordExpiredRemoval (c : LruCounters) :
    Sums c.recordExpiredRemoval :=
  (sums_add _ _).bind fun _ => sums_pure _

theorem SegmentedCounters.sums_onCore {f : Counters → Except Fault Counters}
    (hf : ∀ c, Sums (f c)) (c : SegmentedCounters) : Sums (c.onCore f) :=
  (hf c.core).bind fun _ => sums_pure _

theorem SegmentedCounters.sums_recordSegmentHit (c : SegmentedCounters) (i : Nat)
    (size : Bytes) : Sums (c.recordSegmentHit i size) := by
  apply (c.core.sums_recordHit size).bind
  intro core
  split
  · exact sums_pure _
  · exact (sums_add _ _).bind fun _ => sums_pure _

theorem SegmentedCounters.sums_recordPromotion (c : SegmentedCounters) :
    Sums c.recordPromotion :=
  (sums_add _ _).bind fun _ => sums_pure _

theorem SegmentedCounters.sums_recordDemotion (c : SegmentedCounters) : Sums c.recordDemotion :=
  (sums_add _ _).bind fun _ => sums_pure _

theorem SegmentedCounters.sums_recordCoolingDrop (c : SegmentedCounters) :
    Sums c.recordCoolingDrop :=
  (sums_add _ _).bind fun _ => c.core.sums_recordEviction.bind fun _ => sums_pure _

theorem SegmentedCounters.sums_recordRemoval (c : SegmentedCounters) : Sums c.recordRemoval :=
  (sums_add _ _).bind fun _ => sums_pure _

end

namespace Action
variable {C α β : Type}

/-- Ends with `Q`, or faults on an addition. -/
def Ensures (act : Action C α) (c : C) (st : Store) (Q : α → C → Store → Prop) : Prop :=
  match act c st with
  | .ok (a, c') st' => Q a c' st'
  | .error e _ => e = .addOverflow

section
variable {act : Action C α} {c : C} {st : Store} {Q R : α → C → Store → Prop}

theorem Ensures.of_yields {a : α} {c' : C} {st' : Store} (h : act.Yields c st a c' st')
    (hQ : Q a c' st') : act.Ensures c st Q := by
  unfold Ensures
  rw [show act c st = _ from h]
  exact hQ

theorem Ensures.apply {a : α} {c' : C} {st' : Store} (h : act.Ensures c st Q)
    (hy : act.Yields c st a c' st') : Q a c' st' := by
  unfold Ensures at h
  rw [show act c st = _ from hy] at h
  exact h

theorem Ensures.fault_eq {e : Fault} {st' : Store} (h : act.Ensures c st Q)
    (he : act c st = .error e st') : e = .addOverflow := by
  unfold Ensures at h
  rw [he] at h
  exact h

theorem Ensures.mono (h : act.Ensures c st Q) (hQR : ∀ a c' st', Q a c' st' → R a c' st') :
    act.Ensures c st R := by
  unfold Ensures at *
  split at h
  · exact hQR _ _ _ h
  · exact h

end

section
variable {c : C} {st : Store}

theorem ensures_bind_iff {x : Action C α} {f : α → Action C β} {R : β → C → Store → Prop} :
    (x >>= f).Ensures c st R ↔ x.Ensures c st fun a c' st' => (f a).Ensures c' st' R := by
  unfold Ensures
  rw [bind_apply]
  cases x c st <;> rfl

theorem Ensures.bind {x : Action C α} {f : α → Action C β} {Q : α → C → Store → Prop}
    {R : β → C → Store → Prop} (h : x.Ensures c st Q)
    (k : ∀ a c' st', Q a c' st' → (f a).Ensures c' st' R) : (x >>= f).Ensures c st R :=
  ensures_bind_iff.mpr (h.mono k)

/-- What follows an action that is known to run. -/
theorem ensures_bind_of_yields {x : Action C α} {f : α → Action C β} {R : β → C → Store → Prop}
    {a : α} {c' : C} {st' : Store} (h : x.Yields c st a c' st') :
    (x >>= f).Ensures c st R ↔ (f a).Ensures c' st' R := by
  unfold Ensures
  rw [bind_apply, show x c st = _ from h]

@[simp] theorem ensures_pure {a : α} {Q : α → C → Store → Prop} :
    (pure a : Action C α).Ensures c st Q ↔ Q a c st := Iff.rfl

@[simp] theorem ensures_get_bind {f : C → Action C β} {Q : β → C → Store → Prop} :
    (get >>= f).Ensures c st Q ↔ (f c).Ensures c st Q := Iff.rfl

@[simp] theorem ensures_getThe_bind {f : Store → Action C β} {Q : β → C → Store → Prop} :
    (getThe Store >>= f).Ensures c st Q ↔ (f st).Ensures c st Q := Iff.rfl

@[simp] theorem ensures_set {c' : C} {Q : Unit → C → Store → Prop} :
    (set c' : Action C Unit).Ensures c st Q ↔ Q () c' st := Iff.rfl

@[simp] theorem ensures_set_bind {c' : C} {f : Unit → Action C β} {Q : β → C → Store → Prop} :
    (set c' >>= f).Ensures c st Q ↔ (f ()).Ensures c' st Q := Iff.rfl

@[simp] theorem ensures_modifyThe_bind {g : Store → Store} {f : Unit → Action C β}
    {Q : β → C → Store → Prop} :
    ((modifyThe Store g : Action C Unit) >>= f).Ensures c st Q ↔ (f ()).Ensures c (g st) Q := Iff.rfl

@[simp] theorem ensures_emit {e : Event} {Q : Unit → C → Store → Prop} :
    (liftM (CacheM.emit e) : Action C Unit).Ensures c st Q ↔
      Q () c { st with events := st.events.push e } := Iff.rfl

@[simp] theorem ensures_emit_bind {e : Event} {f : Unit → Action C β}
    {Q : β → C → Store → Prop} :
    ((liftM (CacheM.emit e) : Action C Unit) >>= f).Ensures c st Q ↔
      (f ()).Ensures c { st with events := st.events.push e } Q := Iff.rfl

theorem ensures_checked_bind {x : Except Fault α} {f : α → Action C β}
    {Q : β → C → Store → Prop} (he : Word.Sums x)
    (h : ∀ a, x = .ok a → (f a).Ensures c st Q) :
    ((liftM x : Action C α) >>= f).Ensures c st Q := by
  unfold Ensures
  rw [bind_apply, checked_apply]
  cases hs : x with
  | ok a => exact h a hs
  | error e => exact he e hs

@[simp] theorem ensures_map {x : Action C α} {g : α → β} {Q : β → C → Store → Prop} :
    (g <$> x).Ensures c st Q ↔ x.Ensures c st fun a c' st' => Q (g a) c' st' := by
  unfold Ensures
  rw [map_apply]
  cases x c st <;> rfl

@[simp] theorem ensures_discard {x : Action C α} {Q : PUnit → C → Store → Prop} :
    (discard x : Action C PUnit).Ensures c st Q ↔
      x.Ensures c st fun _ c' st' => Q PUnit.unit c' st' := by
  unfold Ensures
  rw [discard_apply]
  cases x c st <;> rfl

end

/-- An action has one outcome. -/
theorem Yields.unique {act : Action C α} {c c' c'' : C} {st st' st'' : Store} {a b : α}
    (h : act.Yields c st a c' st') (k : act.Yields c st b c'' st'') :
    a = b ∧ c' = c'' ∧ st' = st'' := by
  have e := Eq.trans (Eq.symm h) k
  simpa only [EStateM.Result.ok.injEq, Prod.mk.injEq, and_assoc] using e

/-! What a primitive action yields. -/

section
variable {c c' : C} {st st' : Store}

@[simp] theorem yields_pure_iff {a b : α} :
    (pure a : Action C α).Yields c st b c' st' ↔ b = a ∧ c' = c ∧ st' = st := by
  unfold Yields
  rw [pure_apply, EStateM.Result.ok.injEq, Prod.mk.injEq, and_assoc]
  exact ⟨fun h => ⟨h.1.symm, h.2.1.symm, h.2.2.symm⟩, fun h => ⟨h.1.symm, h.2.1.symm, h.2.2.symm⟩⟩

@[simp] theorem yields_set_iff {d : C} {u : Unit} :
    (set d : Action C Unit).Yields c st u c' st' ↔ c' = d ∧ st' = st := by
  unfold Yields
  rw [set_apply, EStateM.Result.ok.injEq, Prod.mk.injEq]
  exact ⟨fun h => ⟨h.1.2.symm, h.2.symm⟩, fun h => ⟨⟨rfl, h.1.symm⟩, h.2.symm⟩⟩

@[simp] theorem yields_modifyThe_iff {f : Store → Store} {u : Unit} :
    (modifyThe Store f : Action C Unit).Yields c st u c' st' ↔ c' = c ∧ st' = f st := by
  unfold Yields
  rw [modifyThe_apply, EStateM.Result.ok.injEq, Prod.mk.injEq]
  exact ⟨fun h => ⟨h.1.2.symm, h.2.symm⟩, fun h => ⟨⟨rfl, h.1.symm⟩, h.2.symm⟩⟩

@[simp] theorem yields_lift_iff {x : CacheM α} {a : α} :
    (liftM x : Action C α).Yields c st a c' st' ↔ x st = .ok a st' ∧ c' = c := by
  unfold Yields
  rw [lift_apply]
  cases hx : x st with
  | ok b st₁ =>
    dsimp only
    rw [EStateM.Result.ok.injEq, EStateM.Result.ok.injEq, Prod.mk.injEq]
    exact ⟨fun h => ⟨⟨h.1.1, h.2⟩, h.1.2.symm⟩, fun h => ⟨⟨h.1.1, h.2.symm⟩, h.1.2⟩⟩
  | error e st₁ => simp

@[simp] theorem yields_emit_iff {e : Event} {u : Unit} :
    (liftM (CacheM.emit e) : Action C Unit).Yields c st u c' st' ↔
      c' = c ∧ st' = { st with events := st.events.push e } := by
  rw [yields_lift_iff]
  constructor
  · intro ⟨h, hc⟩
    injection h with _ hst
    exact ⟨hc, hst.symm⟩
  · intro ⟨hc, hst⟩
    rw [hst]
    exact ⟨rfl, hc⟩

@[simp] theorem yields_checked_iff {x : Except Fault α} {a : α} :
    (liftM x : Action C α).Yields c st a c' st' ↔ x = .ok a ∧ c' = c ∧ st' = st := by
  unfold Yields
  rw [checked_apply]
  cases hx : x with
  | ok b =>
    dsimp only
    rw [EStateM.Result.ok.injEq, Except.ok.injEq, Prod.mk.injEq]
    exact ⟨fun h => ⟨h.1.1, h.1.2.symm, h.2.symm⟩, fun h => ⟨⟨h.1, h.2.1.symm⟩, h.2.2.symm⟩⟩
  | error e => simp

@[simp] theorem yields_map_iff {x : Action C α} {g : α → β} {b : β} :
    (g <$> x).Yields c st b c' st' ↔ ∃ a, x.Yields c st a c' st' ∧ b = g a := by
  unfold Yields
  rw [map_apply]
  cases hx : x c st with
  | ok a st₁ =>
    obtain ⟨a, c₁⟩ := a
    dsimp only
    simp only [EStateM.Result.ok.injEq, Prod.mk.injEq]
    constructor
    · intro h
      exact ⟨a, ⟨⟨rfl, h.1.2⟩, h.2⟩, h.1.1.symm⟩
    · intro ⟨a', ⟨⟨ha, hc⟩, hst⟩, hb⟩
      exact ⟨⟨by rw [ha, hb], hc⟩, hst⟩
  | error e st₁ => simp

@[simp] theorem yields_discard_iff {x : Action C α} {u : PUnit} :
    (discard x : Action C PUnit).Yields c st u c' st' ↔ ∃ a, x.Yields c st a c' st' := by
  unfold Yields
  rw [discard_apply]
  cases hx : x c st with
  | ok b st₁ =>
    obtain ⟨b, c₁⟩ := b
    dsimp only
    simp only [EStateM.Result.ok.injEq, Prod.mk.injEq, true_and, exists_and_right,
      exists_eq']
  | error e st₁ => simp

@[simp] theorem yields_get_bind_iff {f : C → Action C β} {b : β} :
    (get >>= f).Yields c st b c' st' ↔ (f c).Yields c st b c' st' := Iff.rfl

@[simp] theorem yields_getThe_bind_iff {f : Store → Action C β} {b : β} :
    (getThe Store >>= f).Yields c st b c' st' ↔ (f st).Yields c st b c' st' := Iff.rfl

end

/-! ## What every run does -/

/-- Every run that does not fault ends where `R` leads from its start. -/
def Relates (R : C → Store → C → Store → Prop) (act : Action C α) : Prop :=
  ∀ ⦃c st a c' st'⦄, act.Yields c st a c' st' → R c st c' st'

/-- A relation that holds of doing nothing and of one run after another. -/
structure Composes (R : C → Store → C → Store → Prop) : Prop where
  refl : ∀ c st, R c st c st
  trans : ∀ {c st c' st' c'' st''}, R c st c' st' → R c' st' c'' st'' → R c st c'' st''

/-- A run that keeps to `R` may come before and after one that keeps to `S`, or in its place. -/
structure Absorbs (R S : C → Store → C → Store → Prop) : Prop where
  of : ∀ {c st c' st'}, R c st c' st' → S c st c' st'
  before : ∀ {c st c' st' c'' st''}, R c st c' st' → S c' st' c'' st'' → S c st c'' st''
  after : ∀ {c st c' st' c'' st''}, S c st c' st' → R c' st' c'' st'' → S c st c'' st''

section
variable {γ : Type} {R S T : C → Store → C → Store → Prop}

/-- What is left as it was is left so by one run after another. -/
theorem composes_eq (f : C → Store → γ) : Composes fun c st c' st' => f c' st' = f c st where
  refl _ _ := rfl
  trans h k := k.trans h

theorem Composes.absorbs (h : Composes R) : Absorbs R R := ⟨id, h.trans, h.trans⟩

theorem Composes.pure (h : Composes R) (a : α) : Relates R (Pure.pure a) := by
  intro c st b c' st' hy
  obtain ⟨-, rfl, rfl⟩ := yields_pure_iff.mp hy
  exact h.refl c' st'

theorem Composes.checked (h : Composes R) (x : Except Fault α) : Relates R (liftM x) := by
  intro c st a c' st' hy
  obtain ⟨-, rfl, rfl⟩ := yields_checked_iff.mp hy
  exact h.refl c' st'

/-- Work on the store leaves the cache alone. -/
theorem relates_lift {R : C → C → Prop} (h : ∀ c, R c c) (x : CacheM α) :
    Relates (fun c _ c' _ => R c c') (liftM x : Action C α) := by
  intro c st a c' st' hy
  rw [(yields_lift_iff.mp hy).2]
  exact h c

theorem Relates.mono {act : Action C α} (h : Relates R act)
    (hRS : ∀ {c st c' st'}, R c st c' st' → S c st c' st') : Relates S act :=
  fun _ _ _ _ _ hy => hRS (h hy)

theorem Relates.bind {x : Action C α} {f : α → Action C β} (h : Relates R x)
    (k : ∀ a, Relates S (f a))
    (ht : ∀ {c st c' st' c'' st''}, R c st c' st' → S c' st' c'' st'' → T c st c'' st'') :
    Relates T (x >>= f) := by
  intro c st b c'' st'' hy
  obtain ⟨a, c', st', hx, hf⟩ := yields_bind_iff.mp hy
  exact ht (h hx) (k a hf)

theorem Composes.bind (h : Composes R) {x : Action C α} {f : α → Action C β} (hx : Relates R x)
    (hf : ∀ a, Relates R (f a)) : Relates R (x >>= f) := hx.bind hf h.trans

theorem Absorbs.bind (k : Absorbs R S) {x : Action C α} {f : α → Action C β} (hx : Relates R x)
    (hf : ∀ a, Relates S (f a)) : Relates S (x >>= f) := hx.bind hf k.before

theorem Absorbs.bind_after (k : Absorbs R S) {x : Action C α} {f : α → Action C β}
    (hx : Relates S x) (hf : ∀ a, Relates R (f a)) : Relates S (x >>= f) := hx.bind hf k.after

theorem Relates.discard {x : Action C α} (h : Relates R x) :
    Relates R (Functor.discard x : Action C PUnit) := by
  intro c st u c' st' hy
  obtain ⟨a, hx⟩ := yields_discard_iff.mp hy
  exact h hx

theorem relates_map_iff {x : Action C α} {g : α → β} : Relates R (g <$> x) ↔ Relates R x := by
  constructor
  · intro h c st a c' st' hy
    exact h (yields_map_iff.mpr ⟨a, hy, rfl⟩)
  · intro h c st b c' st' hy
    obtain ⟨a, hx, -⟩ := yields_map_iff.mp hy
    exact h hx

theorem Relates.get_bind {f : C → Action C β} (h : ∀ c, Relates R (f c)) :
    Relates R (get >>= f) := fun _ _ _ _ _ hy => h _ hy

theorem Relates.getThe_bind {f : Store → Action C β} (h : ∀ st, Relates R (f st)) :
    Relates R (getThe Store >>= f) := fun _ _ _ _ _ hy => h _ hy

end

/-- What is done after an action may be replaced by what does the same in the
states it leaves. -/
theorem bind_apply_congr {x : Action C α} {f g : α → Action C β} {c : C} {st : Store}
    (h : ∀ a c' st', x.Yields c st a c' st' → f a c' st' = g a c' st') :
    (x >>= f) c st = (x >>= g) c st := by
  rw [bind_apply, bind_apply]
  cases hx : x c st with
  | ok a st' => exact h a.1 a.2 st' hx
  | error e st' => rfl

end Action

theorem Lru.ensures_record {f : LruCounters → Except Fault LruCounters}
    (hf : ∀ k, Word.Sums (f k)) {c : Lru} {st : Store} {Q : Unit → Lru → Store → Prop}
    (h : ∀ counters, f c.counters = .ok counters → Q () { c with counters } st) :
    (Lru.record f).Ensures c st Q :=
  Action.ensures_get_bind.mpr (Action.ensures_checked_bind (hf _) h)

theorem Lru.ensures_recordCore {f : Counters → Except Fault Counters}
    (hf : ∀ k, Word.Sums (f k)) {c : Lru} {st : Store} {Q : Unit → Lru → Store → Prop}
    (h : ∀ counters, c.counters.onCore f = .ok counters → Q () { c with counters } st) :
    (Lru.recordCore f).Ensures c st Q :=
  Lru.ensures_record (LruCounters.sums_onCore hf) h

theorem Lru.yields_record_iff {f : LruCounters → Except Fault LruCounters} {c c' : Lru}
    {st st' : Store} {u : Unit} :
    (Lru.record f).Yields c st u c' st' ↔
      ∃ counters, f c.counters = .ok counters ∧ c' = { c with counters } ∧ st' = st := by
  unfold Lru.record
  rw [Action.yields_get_bind_iff]
  simp only [Action.yields_bind_iff, Action.yields_checked_iff, Action.yields_set_iff]
  constructor
  · intro h
    obtain ⟨counters, c₁, st₁, ⟨hf, -, hst⟩, hc, hst'⟩ := h
    exact ⟨counters, hf, hc, hst'.trans hst⟩
  · intro h
    obtain ⟨counters, hf, hc, hst⟩ := h
    exact ⟨counters, c, st, ⟨hf, rfl, rfl⟩, hc, hst⟩

/-- The end of `link`, where nothing but the object itself is left to link. -/
def Lru.attach (r : Request) (o : CacheObject) : Action Lru CacheObject := do
  let c ← get
  let st ← getThe Store
  let (queue, objects) := c.queue.pushFront st.objects o
  modifyThe Store fun st => { st with objects := objects.setResident o true }
  let occupied ← Word.add c.occupied (c.charge r.size)
  set { c with queue, occupied }
  pure o

theorem Lru.yields_attach_iff {r : Request} {o p : CacheObject} {c c' : Lru} {st st' : Store} :
    (attach r o).Yields c st p c' st' ↔
      p = o ∧ ∃ occupied, Word.add c.occupied (c.charge r.size) = .ok occupied ∧
        c' = { c with queue := (c.queue.pushFront st.objects o).1, occupied } ∧
        st' = { st with objects := (c.queue.pushFront st.objects o).2.setResident o true } := by
  unfold attach
  rw [Action.yields_get_bind_iff, Action.yields_getThe_bind_iff]
  simp only [Action.yields_bind_iff, Action.yields_modifyThe_iff, Action.yields_checked_iff,
    Action.yields_set_iff, Action.yields_pure_iff]
  constructor
  · rintro ⟨-, _, _, ⟨rfl, rfl⟩, occupied, _, _, ⟨hadd, rfl, rfl⟩, -, _, _, ⟨rfl, rfl⟩, hp, rfl, rfl⟩
    exact ⟨hp, occupied, hadd, rfl, rfl⟩
  · rintro ⟨hp, occupied, hadd, rfl, rfl⟩
    exact ⟨(), _, _, ⟨rfl, rfl⟩, occupied, _, _, ⟨hadd, rfl, rfl⟩, (), _, _, ⟨rfl, rfl⟩, hp, rfl, rfl⟩

theorem Segmented.ensures_record {C : Type} {top : Nat}
    {f : SegmentedCounters → Except Fault SegmentedCounters} (hf : ∀ k, Word.Sums (f k))
    {s : Segmented C top} {st : Store} {Q : Unit → Segmented C top → Store → Prop}
    (h : ∀ counters, f s.counters = .ok counters → Q () { s with counters } st) :
    (Segmented.record f).Ensures s st Q :=
  Action.ensures_get_bind.mpr (Action.ensures_checked_bind (hf _) h)

theorem Segmented.ensures_recordCore {C : Type} {top : Nat}
    {f : Counters → Except Fault Counters} (hf : ∀ k, Word.Sums (f k))
    {s : Segmented C top} {st : Store} {Q : Unit → Segmented C top → Store → Prop}
    (h : ∀ counters, s.counters.onCore f = .ok counters → Q () { s with counters } st) :
    (Segmented.recordCore f).Ensures s st Q :=
  Segmented.ensures_record (SegmentedCounters.sums_onCore hf) h

end SegmentedCache
