import SegmentedCache.Proofs.Outcome

/-!
# Objects lost on a move

A promotion or a demotion may lead to where the object finds no room, and then
the object is dropped. There are three ways to this, and each reports an event
of its own, so the losses of a history can be read off its events. An action is
quiet if no run of it reports a loss.
-/
namespace SegmentedCache

/-- The event reports that an object was dropped on a move. -/
def Event.isLoss : Event → Bool
  | .promotionDropped .. => true
  | .demotionStuck .. => true
  | .demotionDropped .. => true
  | _ => false

/-- The losses reported so far, the oldest first. -/
def Store.losses (st : Store) : List Event := st.events.toList.filter Event.isLoss

theorem Store.losses_report (st : Store) {e : Event} (he : e.isLoss = false) :
    Store.losses { st with events := st.events.push e } = st.losses := by
  simp [losses, he]

namespace Action
variable {C α : Type}

/-- No run reports a loss. -/
abbrev Quiet (act : Action C α) : Prop := Relates (fun _ st _ st' => st'.losses = st.losses) act

theorem composes_losses : Composes fun (_ : C) st _ st' => st'.losses = st.losses :=
  composes_eq fun _ st => st.losses

theorem quiet_set (c : C) : Quiet (set c : Action C Unit) := by
  intro d st u d' st' h
  rw [(yields_set_iff.mp h).2]

theorem quiet_setObjects (f : Store → Objects) :
    Quiet (modifyThe Store fun st => { st with objects := f st } : Action C Unit) := by
  intro c st u c' st' h
  rw [(yields_modifyThe_iff.mp h).2]
  rfl

theorem quiet_emit {e : Event} (he : e.isLoss = false) :
    Quiet (liftM (CacheM.emit e) : Action C Unit) := by
  intro c st u c' st' h
  rw [(yields_emit_iff.mp h).2, st.losses_report he]

theorem quiet_createFor (r : Request) :
    Quiet (liftM (CacheM.createFor r) : Action C CacheObject) := by
  intro c st o c' st' h
  injection (yields_lift_iff.mp h).1 with _ hst
  rw [← hst]
  rfl

theorem quiet_onIndex (k : IndexId) (f : Index → Objects → α × Index × Objects) :
    Quiet (liftM (CacheM.onIndex k f) : Action C α) := by
  intro c st o c' st' h
  injection (yields_lift_iff.mp h).1 with _ hst
  rw [← hst]
  rfl

end Action
end SegmentedCache
