import SegmentedCache.Proofs.Policy.Settings
import SegmentedCache.Proofs.Segmented.Peeking
import SegmentedCache.Proofs.Segmented.Working

/-!
# What no operation changes of a segmented cache

What is constant in the segments is constant in the whole: the parameters, the admission
limit and, segment by segment, what no operation of a segment changes.

The counters of the whole are apart from those of its segments. Of what shows neither the
work on a segment nor what is counted of objects that come, go and move, a request changes
no more than its count does.
-/
namespace SegmentedCache.Segmented
open SegmentedCache.Action Policy
variable {C γ : Type} {top : Nat} [Policy C] {g : Segmented C top → γ}

/-- A request changes no more than its count does. -/
theorem count_of_serve [Peeking C] (h : Working fun s _ s' _ => g s' = g s) {r : Request}
    {s s' : Segmented C top} {st st' : Store} {found : Lookup}
    (hy : (serve r).Yields s st found s' st') :
    ∃ s₁ s₂ st₁, g s₁ = g s ∧ g s' = g s₂ ∧
      (record (tally (seen st s r (levels top)) r.size)).Yields s₁ st₁ () s₂ st₁ := by
  obtain ⟨-, s₁, st₁, s₂, hprobe, hrecord, hend⟩ := seen_of_serve hy
  exact ⟨s₁, s₂, st₁, h.probe r true _ hprobe, h.admission r found hend, hrecord⟩

/-! ## Settings -/

variable {f : C → γ}

/-- The parameters, the limit and what `f` shows of each segment. -/
def settings (f : C → γ) (s : Segmented C top) : Params × Bytes × (Level top → γ) :=
  (s.params, s.limit, fun i => f (s.segment i))

omit [Policy C] in
theorem spares_onSegment {α : Type} {act : Action C α} (h : Spares f act) (i : Level top) :
    Spares (settings f) (onSegment i act) := by
  intro s st a s' st' hy
  obtain ⟨c, hc, rfl⟩ := yields_onSegment_iff.mp hy
  have hsegment : (fun j => f ((s.setSegment i c).segment j)) = fun j => f (s.segment j) := by
    funext j
    rw [segment_setSegment]
    split
    next e => rw [h hc, e]
    next => rfl
  exact congrArg (fun g => (s.params, s.limit, g)) hsegment

omit [Policy C] in
theorem spares_record (k : SegmentedCounters → Except Fault SegmentedCounters) :
    Spares (settings f) (record k : Action (Segmented C top) Unit) := by
  intro s st u s' st' hy
  obtain ⟨counters, -, rfl, -⟩ := yields_record_iff.mp hy
  rfl

theorem working_settings (h : Constant f) :
    Working fun (s : Segmented C top) _ s' _ => settings f s' = settings f s where
  toComposes := composes_spares (settings f)
  emit _ := spares_lift _
  checkAt i r update := spares_onSegment (h.check r update) i
  insertAt i r := spares_onSegment (h.insert r) i
  evictAt i := spares_onSegment h.evict i
  removeAt i id := spares_onSegment (h.remove id) i
  eviction := spares_record _
  insertion _ := spares_record _
  promotion := spares_record _
  demotion := spares_record _
  coolingDrop := spares_record _
  removal := spares_record _

/-- A segmented cache keeps the settings it was made with. -/
theorem constant_settings (h : Constant f) : Constant (settings f : Segmented C top → _) := by
  have hw : Working fun (s : Segmented C top) _ s' _ => settings f s' = settings f s :=
    working_settings h
  exact fun _ => hw.perform fun r _ => hw.serve (fun _ _ => spares_record _) r

end SegmentedCache.Segmented
