import Mathlib.Logic.Function.Basic
import SegmentedCache.Index.Call
import SegmentedCache.Proofs.Index.Buckets
import SegmentedCache.Proofs.Index.Writes

/-!
# An index is a map from ids to objects

A directory is the plain account of an index: for every id the very object last
entered under it, the objects' flags by serial number, and how many objects have
been made. It has no buckets and no chains. Under any calls an index gives the
answers of its directory and stays arranged: `runCalls_refines`. Nothing is
assumed of the hash, which only decides in which bucket an entry stands.
-/
namespace SegmentedCache

/-! ## Directories -/

structure Directory where
  entry : ObjectId → Option CacheObject
  resident : Nat → Bool
  made : Nat

namespace Directory

/-- Nothing entered; the objects that the table has made keep their flags. -/
def initial (s : Objects) : Directory where
  entry _ := none
  resident k := (s.get k).resident
  made := s.size

def mark (d : Directory) (o : CacheObject) (b : Bool) : Directory :=
  { d with resident := Function.update d.resident o.serial b }

def enter (d : Directory) (o : CacheObject) : Option CacheObject × Directory :=
  let entered := { d.mark o false with entry := Function.update d.entry o.id (some o) }
  match d.entry o.id with
  | some old => (some old, entered.mark old false)
  | none => (none, entered)

def leave (d : Directory) (id : ObjectId) : Option CacheObject × Directory :=
  match d.entry id with
  | some o => (some o, { d.mark o false with entry := Function.update d.entry id none })
  | none => (none, d)

/-- The new object carries the serial number after all those made. -/
def make (d : Directory) (r : Request) : CacheObject × Directory :=
  let o : CacheObject := ⟨d.made, r.id, r.size, r.expiry⟩
  (o, { d.mark o false with made := d.made + 1 })

/-- Whether `o` itself, not an equal twin, is the entry of its id. -/
def isEntry (d : Directory) (o : CacheObject) : Bool :=
  (d.entry o.id).any fun p => p.serial == o.serial

open Index in
def run (d : Directory) : Call → Answer × Directory
  | .insert o =>
    let (old, d) := d.enter o
    (.object old, d)
  | .insertRequest r =>
    let (o, d) := d.make r
    let (old, d) := d.enter o
    (.entered o old, d)
  | .find id => (.object (d.entry id), d)
  | .contains id => (.truth (d.entry id).isSome, d)
  | .delete id =>
    let (old, d) := d.leave id
    (.object old, d)
  | .deleteExact o => if d.isEntry o then (.truth true, (d.leave o.id).2) else (.truth false, d)
  | .deleteObject o => (.done, (d.leave o.id).2)
  | .tryDelete o => (.truth (d.entry o.id).isSome, (d.leave o.id).2)
  | .mark o resident => (.done, d.mark o resident)

open Index in
def runCalls (d : Directory) : List Call → List Answer × Directory
  | [] => ([], d)
  | c :: rest =>
    let (answer, d) := d.run c
    let (answers, d) := d.runCalls rest
    (answer :: answers, d)

end Directory

namespace Index
variable {ix : Index} {s : Objects} {d : Directory} {o : CacheObject} {id : ObjectId}
  {hash : ObjectId → UInt64} {hashpower : Nat}

/-- The object that a call is handed, if any. -/
def Call.handle? : Call → Option CacheObject
  | .insert o | .deleteExact o | .deleteObject o | .tryDelete o | .mark o _ => some o
  | .insertRequest _ | .find _ | .contains _ | .delete _ => none

/-- Every object that is handed over has been made by then: before the first
call, or by one of the calls before. -/
def Made (ix : Index) (s : Objects) : List Call → Prop
  | [] => True
  | c :: rest => (∀ o ∈ c.handle?, s.Issued o) ∧ Made (c.run ix s).2.1 (c.run ix s).2.2 rest

instance Made.decidable : (ix : Index) → (s : Objects) → (calls : List Call) →
    Decidable (Made ix s calls)
  | _, _, [] => isTrue trivial
  | _, _, _ :: rest => @instDecidableAnd _ _ inferInstance (Made.decidable _ _ rest)

theorem Made.of_append {before after : List Call} (h : Made ix s (before ++ after)) :
    Made ix s before := by
  induction before generalizing ix s with
  | nil => trivial
  | cons c before ih => exact ⟨h.1, ih h.2⟩

/-! ## The simulation -/

/-- The index and the table hold what the directory says. -/
structure Mirrors (ix : Index) (s : Objects) (d : Directory) : Prop where
  valid : ix.Valid
  find : ∀ id, ix.find? id = d.entry id
  issued : ∀ id, ∀ o ∈ ix.find? id, s.Issued o
  resident : ∀ o, s.resident o = d.resident o.serial
  made : s.size = d.made

theorem mirrors_empty (hash : ObjectId → UInt64) (h : hashpower ≤ maxHashpower) (s : Objects) :
    Mirrors (empty hash hashpower h) s (.initial s) where
  valid := valid_empty hash hashpower h
  find id := find?_empty hash hashpower h id
  issued id o ho := by
    rw [find?_empty] at ho
    cases ho
  resident _ := rfl
  made := rfl

theorem Mirrors.mark (m : Mirrors ix s d) (ho : s.Issued o) (b : Bool) :
    Mirrors ix (s.setResident o b) (d.mark o b) where
  valid := m.valid
  find := m.find
  issued id p hp := (m.issued id p hp).setResident o b
  resident p := by
    simp only [Objects.resident_setResident, Directory.mark, Function.update_apply, m.resident]
  made := by
    rw [Objects.setResident, Table.size_set, Nat.max_eq_left ho.1]
    exact m.made

/-- An entry of one id is set or cleared. -/
theorem Mirrors.update {ix' : Index} {e : Option CacheObject} (m : Mirrors ix s d) (hv : ix'.Valid)
    (hf : ∀ j, ix'.find? j = if j = id then e else ix.find? j) (he : ∀ o ∈ e, s.Issued o) :
    Mirrors ix' s { d with entry := Function.update d.entry id e } where
  valid := hv
  find j := by simp only [hf, Function.update_apply, m.find]
  issued j o ho := by
    rw [hf] at ho
    split at ho
    · exact he o ho
    · exact m.issued j o ho
  resident := m.resident
  made := m.made

theorem Mirrors.enter (m : Mirrors ix s d) (ho : s.Issued o) :
    (ix.insert s o).1 = (d.enter o).1 ∧
      Mirrors (ix.insert s o).2.1 (ix.insert s o).2.2 (d.enter o).2 := by
  have hv := m.valid.insert s o
  have hf := find?_insert ix s o
  have hup := (m.mark ho false).update hv hf (by simpa using ho.setResident o false)
  unfold Directory.enter
  cases h : ix.find? o.id with
  | none =>
    rw [insert_of_none h] at hup ⊢
    rw [← m.find, h]
    exact ⟨rfl, hup⟩
  | some old =>
    rw [insert_of_some h] at hup ⊢
    rw [← m.find, h]
    exact ⟨rfl, hup.mark ((m.issued _ old h).setResident o false) false⟩

theorem Mirrors.leave (m : Mirrors ix s d) (id : ObjectId) :
    (ix.delete s id).1 = (d.leave id).1 ∧
      Mirrors (ix.delete s id).2.1 (ix.delete s id).2.2 (d.leave id).2 := by
  unfold Directory.leave
  cases h : ix.find? id with
  | none =>
    rw [delete_of_none h, ← m.find, h]
    exact ⟨rfl, m⟩
  | some o =>
    have hv := m.valid.delete s id
    have hf := find?_delete m.valid s id
    rw [delete_of_some h] at hv hf ⊢
    rw [← m.find, h]
    exact ⟨rfl, (m.mark (m.issued id o h) false).update hv hf (by simp)⟩

theorem Mirrors.make (m : Mirrors ix s d) (r : Request) :
    (s.create r.id r.size r.expiry).1 = (d.make r).1 ∧
      Mirrors ix (s.create r.id r.size r.expiry).2 (d.make r).2 := by
  unfold Directory.make
  rw [← m.made]
  refine ⟨rfl, m.valid, m.find, fun id o ho => (m.issued id o ho).create _ _ _, fun o => ?_, ?_⟩
  · simp only [Directory.mark, Function.update_apply, ← m.resident]
    unfold Objects.resident Objects.create
    split
    next h => rw [h, Table.get_push_self]
    next h => rw [Table.get_push_of_ne _ _ h]
  · exact Table.size_push ..

/-- Among objects that were made, being the very entry is having its serial. -/
theorem Mirrors.isEntry_iff (m : Mirrors ix s d) (ho : s.Issued o) :
    d.isEntry o ↔ ix.find? o.id = some o := by
  unfold Directory.isEntry
  rw [← m.find]
  cases h : ix.find? o.id with
  | none => simp
  | some p =>
    simp only [Option.any_some, beq_iff_eq, Option.some.injEq]
    exact ⟨fun e => (m.issued _ p h).eq_of_serial_eq ho e, fun e => by rw [e]⟩

theorem Mirrors.run (m : Mirrors ix s d) (c : Call) (hc : ∀ o ∈ c.handle?, s.Issued o) :
    (c.run ix s).1 = (d.run c).1 ∧ Mirrors (c.run ix s).2.1 (c.run ix s).2.2 (d.run c).2 := by
  cases c with
  | insert o =>
    obtain ⟨he, hm⟩ := m.enter (hc o rfl)
    exact ⟨congrArg Answer.object he, hm⟩
  | insertRequest r =>
    obtain ⟨hmake, hm⟩ := m.make r
    obtain ⟨he, hm⟩ := hm.enter (Objects.issued_create s r.id r.size r.expiry)
    have hnew : (d.make r).2.enter (s.create r.id r.size r.expiry).1 =
        (d.make r).2.enter (d.make r).1 := by rw [hmake]
    rw [hnew] at he hm
    exact ⟨congrArg₂ Answer.entered hmake he, hm⟩
  | find id => exact ⟨congrArg Answer.object (m.find id), m⟩
  | contains id => exact ⟨congrArg (fun e : Option CacheObject => Answer.truth e.isSome) (m.find id), m⟩
  | delete id =>
    obtain ⟨he, hm⟩ := m.leave id
    exact ⟨congrArg Answer.object he, hm⟩
  | deleteExact o =>
    have hiff := m.isEntry_iff (hc o rfl)
    simp only [Call.run, Directory.run]
    by_cases ho : ix.find? o.id = some o
    · rw [deleteExact_of_find? ho, if_pos (hiff.mpr ho)]
      exact ⟨rfl, (m.leave o.id).2⟩
    · rw [deleteExact_of_ne ho, if_neg (mt hiff.mp ho)]
      exact ⟨rfl, m⟩
  | deleteObject o => exact ⟨rfl, (m.leave o.id).2⟩
  | tryDelete o =>
    have he := (delete_fst ix s o.id).trans (m.find o.id)
    exact ⟨congrArg (fun e : Option CacheObject => Answer.truth e.isSome) he, (m.leave o.id).2⟩
  | mark o b => exact ⟨rfl, m.mark (hc o rfl) b⟩

theorem Mirrors.runCalls (m : Mirrors ix s d) {calls : List Call} (hc : Made ix s calls) :
    (runCalls ix s calls).1 = (d.runCalls calls).1 ∧
      Mirrors (runCalls ix s calls).2.1 (runCalls ix s calls).2.2 (d.runCalls calls).2 := by
  induction calls generalizing ix s d with
  | nil => exact ⟨rfl, m⟩
  | cons c calls ih =>
    obtain ⟨he, hm⟩ := m.run c hc.1
    obtain ⟨hrest, hend⟩ := ih hm hc.2
    exact ⟨congrArg₂ List.cons he hrest, hend⟩

theorem shape_run (ix : Index) (s : Objects) (c : Call) : (c.run ix s).2.1.shape = ix.shape := by
  cases c with
  | insert o => exact shape_insert ix s o
  | insertRequest r => exact shape_insert ix _ _
  | find id => rfl
  | contains id => rfl
  | delete id => exact shape_delete ix s id
  | deleteExact o => exact shape_deleteExact ix s o
  | deleteObject o => exact shape_delete ix s o.id
  | tryDelete o => exact shape_delete ix s o.id
  | mark o b => rfl

theorem shape_runCalls (ix : Index) (s : Objects) (calls : List Call) :
    (runCalls ix s calls).2.1.shape = ix.shape := by
  induction calls generalizing ix s with
  | nil => rfl
  | cons c calls ih => exact (ih _ _).trans (shape_run ix s c)

/-- An index that starts empty gives the answers of a map from ids to objects,
under any calls. After every one of them looking up and all flags are as in the
map, and every entry stands in the bucket of its id and nowhere else. -/
theorem runCalls_refines (hash : ObjectId → UInt64) (h : hashpower ≤ maxHashpower) (s : Objects)
    (calls : List Call) (hc : Made (empty hash hashpower h) s calls) :
    (runCalls (empty hash hashpower h) s calls).1 = ((Directory.initial s).runCalls calls).1 ∧
      ∀ before, before <+: calls →
        let (_, ix, s') := runCalls (empty hash hashpower h) s before
        let (_, d) := (Directory.initial s).runCalls before
        ix.shape = (hash, hashpower) ∧ ix.Arranged ∧ (∀ id, ix.find? id = d.entry id) ∧
          ∀ o, s'.resident o = d.resident o.serial := by
  have m := mirrors_empty hash h s
  refine ⟨(m.runCalls hc).1, ?_⟩
  rintro before ⟨after, rfl⟩
  have hm := (m.runCalls hc.of_append).2
  exact ⟨shape_runCalls _ _ before, hm.valid.arranged, hm.find, hm.resident⟩

def twin (serial : Nat) : CacheObject := ⟨serial, 7, 64, none⟩

/-- Two objects that differ in nothing but their serial numbers. -/
def twins : Objects := (Objects.create (Objects.create default 7 64 none).2 7 64 none).2

/-- The twins displace each other, in a table where all ids share a bucket. -/
def rivalry : List Call :=
  [.insert (twin 0), .mark (twin 0) true, .insertRequest { id := 8, size := 1 }, .insert (twin 1),
    .deleteExact (twin 0), .insert (twin 0), .insert (twin 0), .find 7, .tryDelete (twin 1),
    .contains 7, .deleteObject (twin 0), .delete 8, .insert (twin 1), .deleteExact (twin 1)]

theorem runCalls_rivalry :
    Made (empty (fun _ => 0) 1 (by decide)) twins rivalry ∧
      (runCalls (empty (fun _ => 0) 1 (by decide)) twins rivalry).1 =
        [.object none, .done, .entered ⟨2, 8, 1, none⟩ none, .object (some (twin 0)),
          .truth false, .object (some (twin 1)), .object (some (twin 0)), .object (some (twin 0)),
          .truth true, .truth false, .done, .object (some ⟨2, 8, 1, none⟩), .object none,
          .truth true] := by
  have hc : Made (empty (fun _ => 0) 1 (by decide)) twins rivalry := by decide +kernel
  exact ⟨hc, (runCalls_refines _ _ twins rivalry hc).1.trans (by decide +kernel)⟩

end Index
end SegmentedCache
