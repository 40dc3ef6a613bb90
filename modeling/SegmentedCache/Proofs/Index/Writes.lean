import SegmentedCache.Proofs.Index.Entries

/-!
# Writes to an index

Seen from the objects, every command on an index is alike: some objects enter or
leave, none of these is resident any more, and all other entries and flags stay.
`Command.written` says so of each command, with the objects that enter or leave.
-/
namespace SegmentedCache

namespace Objects
variable {s : Objects} {o p : CacheObject} {b : Bool} {k : Option Nat}

theorem serial_eq_iff (ho : s.Issued o) (hp : s.Issued p) : p.serial = o.serial ↔ p = o :=
  ⟨hp.eq_of_serial_eq ho, fun h => by rw [h]⟩

theorem resident_setResident_issued (ho : s.Issued o) (hp : s.Issued p) :
    (s.setResident o b).resident p = if p = o then b else s.resident p := by
  rw [resident_setResident]
  simp only [serial_eq_iff ho hp]

theorem slot_setSlot_issued (ho : s.Issued o) (hp : s.Issued p) :
    (s.setSlot o k).slot p = if p = o then k else s.slot p := by
  rw [slot_setSlot]
  simp only [serial_eq_iff ho hp]

theorem resident_of_setResident_false (h : (s.setResident o false).resident p = true) :
    s.resident p = true := by
  rw [resident_setResident] at h
  split at h
  · cases h
  · exact h

/-- Two tables that issued the same objects. -/
def SameIssued (s s' : Objects) : Prop := ∀ o, s'.Issued o ↔ s.Issued o

theorem SameIssued.trans {s s' s'' : Objects} (h : SameIssued s s') (k : SameIssued s' s'') :
    SameIssued s s'' := fun o => (k o).trans (h o)

theorem sameIssued_set {row : Row} (ho : s.Issued o) (hr : row.object = o) :
    SameIssued s (s.set o.serial row) := by
  intro p
  unfold Issued
  rw [Table.size_set, Table.get_set, Nat.max_eq_left ho.1]
  split
  next h => rw [hr, h, ho.2]
  next => exact Iff.rfl

theorem sameIssued_setResident (ho : s.Issued o) (b : Bool) : SameIssued s (s.setResident o b) :=
  sameIssued_set ho ho.2

theorem sameIssued_setSlot (ho : s.Issued o) (k : Option Nat) : SameIssued s (s.setSlot o k) :=
  sameIssued_set ho ho.2

theorem resident_create (s : Objects) (id : ObjectId) (size : Bytes) (expiry : Option Time)
    (hp : s.Issued p) : (s.create id size expiry).2.resident p = s.resident p := by
  unfold resident create
  rw [Table.get_push_of_ne _ _ (Nat.ne_of_lt hp.1)]

theorem slot_create (s : Objects) (id : ObjectId) (size : Bytes) (expiry : Option Time)
    (hp : s.Issued p) : (s.create id size expiry).2.slot p = s.slot p := by
  unfold slot create
  rw [Table.get_push_of_ne _ _ (Nat.ne_of_lt hp.1)]

end Objects

namespace Index
variable {ix ix' : Index} {s s' : Objects} {o : CacheObject}

/-- The objects in `gone` enter or leave the index and are not resident from
then on; nothing else changes. -/
structure Written (gone : List CacheObject) (ix : Index) (s : Objects) (ix' : Index)
    (s' : Objects) : Prop where
  valid : ix'.Valid
  keeps : ∀ {id p}, ix.find? id = some p → p ∉ gone → ix'.find? id = some p
  enters : ∀ {id p}, ix'.find? id = some p → ix.find? id = some p ∨ p ∈ gone ∧ s.Issued p
  resident : ∀ p, s.Issued p → s'.resident p = (s.resident p && decide (p ∉ gone))
  slot : ∀ p, s'.slot p = s.slot p
  issued : s.SameIssued s'

theorem Written.refl (h : ix.Valid) : Written [] ix s ix s where
  valid := h
  keeps hf _ := hf
  enters hf := .inl hf
  resident p _ := by simp
  slot p := rfl
  issued p := Iff.rfl

theorem written_insert (h : ix.Valid) (he : ∀ {id p}, ix.find? id = some p → s.Issued p)
    (ho : s.Issued o) :
    Written (o :: (ix.find? o.id).toList) ix s (ix.insert s o).2.1 (ix.insert s o).2.2 where
  valid := h.insert s o
  keeps {id p} hf hp := by
    rw [find?_insert, if_neg, hf]
    rintro rfl
    exact hp (by simp [hf])
  enters {id p} hf := by
    rw [find?_insert] at hf
    split at hf
    next =>
      obtain rfl := Option.some.inj hf
      exact .inr ⟨List.mem_cons_self, ho⟩
    next => exact .inl hf
  resident p hp := by
    cases hf : ix.find? o.id with
    | none =>
      rw [insert_of_none hf]
      change (s.setResident o false).resident p = _
      rw [Objects.resident_setResident_issued ho hp]
      by_cases e : p = o <;> simp [e]
    | some old =>
      rw [insert_of_some hf]
      change ((s.setResident o false).setResident old false).resident p = _
      rw [Objects.resident_setResident_issued ((Objects.sameIssued_setResident ho _ _).mpr (he hf))
        ((Objects.sameIssued_setResident ho _ _).mpr hp),
        Objects.resident_setResident_issued ho hp]
      by_cases e : p = o <;> by_cases e' : p = old <;> simp [e, e']
  slot p := by
    cases hf : ix.find? o.id with
    | none =>
      rw [insert_of_none hf]
      exact Objects.slot_setResident ..
    | some old =>
      rw [insert_of_some hf]
      exact (Objects.slot_setResident ..).trans (Objects.slot_setResident ..)
  issued := by
    cases hf : ix.find? o.id with
    | none =>
      rw [insert_of_none hf]
      exact Objects.sameIssued_setResident ho _
    | some old =>
      rw [insert_of_some hf]
      have hs := Objects.sameIssued_setResident ho false
      exact hs.trans (Objects.sameIssued_setResident ((hs old).mpr (he hf)) _)

theorem written_delete (h : ix.Valid) (he : ∀ {id p}, ix.find? id = some p → s.Issued p)
    (id : ObjectId) :
    Written (ix.find? id).toList ix s (ix.delete s id).2.1 (ix.delete s id).2.2 := by
  cases hf : ix.find? id with
  | none =>
    rw [delete_of_none hf]
    exact Written.refl h
  | some o =>
    have ho := he hf
    constructor
    case valid => exact h.delete s id
    case keeps =>
      intro i p hp hg
      rw [find?_delete h, if_neg, hp]
      rintro rfl
      exact hg (by simpa [hp] using hf)
    case enters =>
      intro i p hp
      rw [find?_delete h] at hp
      split at hp
      · cases hp
      · exact .inl hp
    case resident =>
      intro p hp
      rw [delete_of_some hf]
      change (s.setResident o false).resident p = _
      rw [Objects.resident_setResident_issued ho hp]
      by_cases e : p = o <;> simp [e]
    case slot =>
      intro p
      rw [delete_of_some hf]
      exact Objects.slot_setResident ..
    case issued =>
      rw [delete_of_some hf]
      exact Objects.sameIssued_setResident ho _

/-- The objects that a command takes in or takes out. -/
def Command.gone (ix : Index) : Command → List CacheObject
  | .insert o => o :: (ix.find? o.id).toList
  | .delete id => (ix.find? id).toList
  | .deleteExact o => if ix.find? o.id = some o then [o] else []
  | .find _ => []

/-- A client enters only objects that have been made. -/
def Command.Issued (s : Objects) : Command → Prop
  | .insert o => s.Issued o
  | _ => True

theorem Command.written (h : ix.Valid) (he : ∀ {id p}, ix.find? id = some p → s.Issued p)
    (c : Command) (hc : c.Issued s) :
    Written (c.gone ix) ix s (c.run ix s).2.1 (c.run ix s).2.2 := by
  cases c with
  | insert o => exact written_insert h he hc
  | delete id => exact written_delete h he id
  | deleteExact o =>
    change Written (if ix.find? o.id = some o then [o] else []) ix s (ix.deleteExact s o).2.1
      (ix.deleteExact s o).2.2
    by_cases ho : ix.find? o.id = some o
    · rw [deleteExact_of_find? ho, if_pos ho]
      have := written_delete h he o.id
      rwa [ho] at this
    · rw [deleteExact_of_ne ho, if_neg ho]
      exact Written.refl h
  | find id => exact Written.refl h

/-! ## Writes to any index at all -/

/-- No command makes an object resident, links one or unmakes one. -/
structure Quiet (s s' : Objects) : Prop where
  issued : ∀ p, s.Issued p → s'.Issued p
  resident : ∀ p, s'.resident p → s.resident p
  slot : ∀ p, s'.slot p = s.slot p

theorem Quiet.refl (s : Objects) : Quiet s s := ⟨fun _ h => h, fun _ h => h, fun _ => rfl⟩

theorem Quiet.setResident (s : Objects) (o : CacheObject) : Quiet s (s.setResident o false) :=
  ⟨fun _ h => h.setResident o false, fun _ => Objects.resident_of_setResident_false,
    fun _ => Objects.slot_setResident ..⟩

theorem Quiet.trans {s s' s'' : Objects} (h : Quiet s s') (k : Quiet s' s'') : Quiet s s'' :=
  ⟨fun p hp => k.issued p (h.issued p hp), fun p hp => h.resident p (k.resident p hp),
    fun p => (k.slot p).trans (h.slot p)⟩

theorem quiet_delete (ix : Index) (s : Objects) (id : ObjectId) : Quiet s (ix.delete s id).2.2 := by
  cases hf : ix.find? id with
  | none =>
    rw [delete_of_none hf]
    exact .refl s
  | some o =>
    rw [delete_of_some hf]
    exact .setResident s o

theorem quiet_deleteExact (ix : Index) (s : Objects) (o : CacheObject) :
    Quiet s (ix.deleteExact s o).2.2 := by
  by_cases ho : ix.find? o.id = some o
  · rw [deleteExact_of_find? ho]
    exact quiet_delete ix s o.id
  · rw [deleteExact_of_ne ho]
    exact .refl s

theorem quiet_run (ix : Index) (s : Objects) (c : Command) : Quiet s (c.run ix s).2.2 := by
  cases c with
  | insert o =>
    cases hf : ix.find? o.id with
    | none =>
      rw [Command.run, insert_of_none hf]
      exact .setResident s o
    | some old =>
      rw [Command.run, insert_of_some hf]
      exact (Quiet.setResident s o).trans (.setResident _ old)
  | delete id => exact quiet_delete ix s id
  | deleteExact o => exact quiet_deleteExact ix s o
  | find id => exact .refl s

end Index
end SegmentedCache
