import Mathlib.Logic.Function.Basic
import SegmentedCache.Proofs.Recency.Sequence

/-!
# A recency list is a list

An account is what a recency list stands for: the linked objects in order, each with the
slot of its node, the slots on offer, how many slots there are, and the slot recorded last
for every object by its serial number. It has no links. Under any edits, whatever slots
these name, a recency list gives the answers of its account, and its links lead through the
account's sequence in both directions and end: `runEdits_accounted`.

An object has a single recorded slot, though it may be linked twice. So the slot recorded
for a linked object is that of its own node just if it was not linked already when it was
linked last.
-/
namespace SegmentedCache.Recency

/-! ## Edits and accounts -/

inductive Edit
  | pushFront (o : CacheObject)
  | remove (k : Nat)
  | moveToFront (k : Nat)
  | popBack
deriving DecidableEq, Repr

inductive Edit.Answer
  | slot (k : Option Nat)
  | object (o : Option CacheObject)
  | moved (done : Bool)
deriving DecidableEq, Repr

/-- Edits a list and answers the slot recorded for the object that was linked, the object
that was taken out, or whether there was an object to move. -/
def Edit.run (q : Recency) (s : Objects) : Edit → Answer × Recency × Objects
  | .pushFront o =>
    let (q, s) := q.pushFront s o
    (.slot (s.slot o), q, s)
  | .remove k =>
    let (o, q, s) := q.remove s k
    (.object o, q, s)
  | .moveToFront k =>
    match q.moveToFront k with
    | some q => (.moved true, q, s)
    | none => (.moved false, q, s)
  | .popBack =>
    let (o, q, s) := q.popBack s
    (.object o, q, s)

def runEdits (q : Recency) (s : Objects) : List Edit → List Edit.Answer × Recency × Objects
  | [] => ([], q, s)
  | e :: rest =>
    let (answer, q, s) := e.run q s
    let (answers, q, s) := runEdits q s rest
    (answer :: answers, q, s)

/-- The object that an edit links, if any. -/
def Edit.linked? : Edit → Option CacheObject
  | .pushFront o => some o
  | .remove _ | .moveToFront _ | .popBack => none

structure Account where
  nodes : List (Nat × CacheObject)
  free : List Nat
  slots : Nat
  recorded : Nat → Option Nat

namespace Account

/-- Nothing linked; the objects keep the slots that are recorded for them. -/
def initial (s : Objects) : Account := ⟨[], [], 0, fun k => (s.get k).slot⟩

def node? (a : Account) (k : Nat) : Option (Nat × CacheObject) := a.nodes.find? fun e => e.1 = k

/-- The nodes in other slots. -/
def others (a : Account) (k : Nat) : List (Nat × CacheObject) := a.nodes.filter fun e => e.1 ≠ k

def link (a : Account) (k : Nat) (o : CacheObject) : Account :=
  { a with nodes := (k, o) :: a.nodes, recorded := Function.update a.recorded o.serial (some k) }

/-- A node goes and `rest` stays. -/
def unlink (a : Account) (e : Nat × CacheObject) (rest : List (Nat × CacheObject)) : Account :=
  { a with
    nodes := rest
    free := e.1 :: a.free
    recorded := Function.update a.recorded e.2.serial none }

def edit (a : Account) : Edit → Edit.Answer × Account
  | .pushFront o =>
    match a.free with
    | k :: rest => (.slot (some k), { a.link k o with free := rest })
    | [] => (.slot (some a.slots), { a.link a.slots o with slots := a.slots + 1 })
  | .remove k =>
    match a.node? k with
    | some e => (.object (some e.2), a.unlink e (a.others k))
    | none => (.object none, a)
  | .moveToFront k =>
    match a.node? k with
    | some e => (.moved true, { a with nodes := e :: a.others k })
    | none => (.moved false, a)
  | .popBack =>
    match a.nodes.getLast? with
    | some e => (.object (some e.2), a.unlink e a.nodes.dropLast)
    | none => (.object none, a)

def edits (a : Account) : List Edit → List Edit.Answer × Account
  | [] => ([], a)
  | e :: rest =>
    let (answer, a) := a.edit e
    let (answers, a) := a.edits rest
    (answer :: answers, a)

theorem edits_append (a : Account) (before since : List Edit) :
    (a.edits (before ++ since)).2 = ((a.edits before).2.edits since).2 := by
  induction before generalizing a with
  | nil => rfl
  | cons e rest ih => exact ih (a.edit e).2

/-- Whether an object with this serial number is linked. -/
def Links (a : Account) (n : Nat) : Prop := ∃ e ∈ a.nodes, e.2.serial = n

instance (a : Account) (n : Nat) : Decidable (a.Links n) :=
  inferInstanceAs (Decidable (∃ e ∈ a.nodes, _))

/-- No edit links the object with this serial number while it is linked. -/
def LinksOnce (a : Account) (n : Nat) : List Edit → Prop
  | [] => True
  | e :: rest =>
    ((∃ o ∈ e.linked?, o.serial = n) → ¬ a.Links n) ∧ LinksOnce (a.edit e).2 n rest

instance LinksOnce.decidable (n : Nat) :
    (a : Account) → (edits : List Edit) → Decidable (a.LinksOnce n edits)
  | _, [] => isTrue trivial
  | _, _ :: rest => @instDecidableAnd _ _ inferInstance (LinksOnce.decidable n _ rest)

theorem linksOnce_concat {n : Nat} {e : Edit} (a : Account) (es : List Edit) :
    a.LinksOnce n (es ++ [e]) ↔
      a.LinksOnce n es ∧ ((∃ o ∈ e.linked?, o.serial = n) → ¬ (a.edits es).2.Links n) := by
  induction es generalizing a with
  | nil => exact and_comm
  | cons d rest ih =>
    change _ ∧ LinksOnce (a.edit d).2 n (rest ++ [e]) ↔ (_ ∧ LinksOnce (a.edit d).2 n rest) ∧ _
    rw [ih, and_assoc]
    rfl

/-- The object with this serial number was not linked at some moment, and since then no edit
has linked it while it was linked. -/
def LinkedAfresh (a : Account) (n : Nat) (es : List Edit) : Prop :=
  ∃ before since, es = before ++ since ∧ ¬ (a.edits before).2.Links n ∧
    (a.edits before).2.LinksOnce n since

section
variable {a : Account} {k : Nat} {o : CacheObject} {l₁ l₂ : List (Nat × CacheObject)}

theorem slot_ne_of_mem (h : (a.nodes.map Prod.fst).Nodup) (ha : a.nodes = l₁ ++ (k, o) :: l₂) :
    ∀ e ∈ l₁ ++ l₂, e.1 ≠ k := fun e he hek =>
  (nodup_others (ha ▸ h)).1 (List.mem_map.mpr ⟨e, he, hek⟩)

/-- With one node to a slot, a slot is empty or parts the sequence at its node. -/
theorem node?_cases (h : (a.nodes.map Prod.fst).Nodup) (k : Nat) :
    k ∉ a.nodes.map Prod.fst ∧ a.node? k = none ∨
      ∃ l₁ o l₂, a.nodes = l₁ ++ (k, o) :: l₂ ∧ a.node? k = some (k, o) ∧
        a.others k = l₁ ++ l₂ := by
  by_cases hk : k ∈ a.nodes.map Prod.fst
  · right
    obtain ⟨⟨j, o⟩, hmem, hj⟩ := List.mem_map.mp hk
    obtain rfl : j = k := hj
    obtain ⟨l₁, l₂, hl⟩ := List.append_of_mem hmem
    have hne : ∀ e ∈ l₁ ++ l₂, e.1 ≠ j := slot_ne_of_mem h hl
    refine ⟨l₁, o, l₂, hl, ?_, ?_⟩
    · have hfirst : l₁.find? (fun e => decide (e.1 = j)) = none :=
        List.find?_eq_none.mpr fun e he => by simpa using hne e (List.mem_append_left _ he)
      simp [node?, hl, List.find?_append, hfirst]
    · have hkept : (l₁ ++ l₂).filter (fun e => decide (e.1 ≠ j)) = l₁ ++ l₂ :=
        List.filter_eq_self.mpr fun e he => by simpa using hne e he
      rw [others, hl, List.filter_append, List.filter_cons_of_neg (by simp), ← List.filter_append,
        hkept]
  · left
    refine ⟨hk, List.find?_eq_none.mpr fun e he => ?_⟩
    simpa using fun hek : e.1 = k => hk (hek ▸ List.mem_map_of_mem he)

/-- What an edit can do to an account: link an object in front, take a node out, move one to
the front, or nothing. -/
inductive Effect (a : Account) : Option CacheObject → Edit.Answer → Account → Prop
  | link (k : Nat) (o : CacheObject) (free : List Nat) (slots : Nat) :
    Effect a (some o) (.slot (some k)) { a.link k o with free := free, slots := slots }
  | unlink {l₁ l₂ : List (Nat × CacheObject)} {k : Nat} {o : CacheObject}
      (ha : a.nodes = l₁ ++ (k, o) :: l₂) :
    Effect a none (.object (some o)) (a.unlink (k, o) (l₁ ++ l₂))
  | toFront {l₁ l₂ : List (Nat × CacheObject)} {k : Nat} {o : CacheObject}
      (ha : a.nodes = l₁ ++ (k, o) :: l₂) :
    Effect a none (.moved true) { a with nodes := (k, o) :: (l₁ ++ l₂) }
  | idle {r : Edit.Answer} (hr : ∀ o, r ≠ .object (some o)) : Effect a none r a

theorem effect_edit (h : (a.nodes.map Prod.fst).Nodup) (e : Edit) :
    Effect a e.linked? (a.edit e).1 (a.edit e).2 := by
  cases e with
  | pushFront o =>
    unfold Account.edit
    dsimp only
    split
    · exact .link _ o _ a.slots
    · exact .link a.slots o _ _
  | remove k =>
    simp only [Account.edit]
    rcases node?_cases h k with ⟨-, hnode⟩ | ⟨l₁, o, l₂, ha, hnode, hothers⟩
    · simp only [hnode]
      exact .idle (by simp)
    · simp only [hnode, hothers]
      exact .unlink ha
  | moveToFront k =>
    simp only [Account.edit]
    rcases node?_cases h k with ⟨-, hnode⟩ | ⟨l₁, o, l₂, ha, hnode, hothers⟩
    · simp only [hnode]
      exact .idle (by simp)
    · simp only [hnode, hothers]
      exact .toFront ha
  | popBack =>
    simp only [Account.edit]
    rcases List.eq_nil_or_concat' a.nodes with ha | ⟨l, ⟨k, o⟩, ha⟩
    · simp only [ha, List.getLast?_nil]
      exact .idle (by simp)
    · have hlast : a.nodes.getLast? = some (k, o) := by rw [ha, List.getLast?_concat]
      have hrest : a.nodes.dropLast = l ++ [] := by
        rw [ha, List.dropLast_concat, List.append_nil]
      simp only [hlast, hrest]
      exact .unlink ha

theorem links_cons {l : List (Nat × CacheObject)} (ha : a.nodes = (k, o) :: l) {n : Nat} :
    a.Links n ↔ o.serial = n ∨ ∃ e ∈ l, e.2.serial = n := by
  simp only [Links, ha, List.exists_mem_cons_iff]

theorem perm_split (ha : a.nodes = l₁ ++ (k, o) :: l₂) :
    a.nodes.Perm ((k, o) :: (l₁ ++ l₂)) := ha ▸ List.perm_middle

theorem links_split (ha : a.nodes = l₁ ++ (k, o) :: l₂) {n : Nat} :
    a.Links n ↔ o.serial = n ∨ ∃ e ∈ l₁ ++ l₂, e.2.serial = n := by
  simp only [Links, (perm_split ha).mem_iff, List.exists_mem_cons_iff]

namespace Effect
variable {a' : Account} {p : Option CacheObject} {r : Edit.Answer} {n : Nat}

theorem links (h : Effect a p r a') (hn : a'.Links n) :
    a.Links n ∨ ∃ o ∈ p, o.serial = n := by
  cases h with
  | link k o => exact ((links_cons rfl).mp hn).elim (fun hno => .inr ⟨o, rfl, hno⟩) .inl
  | unlink ha => exact .inl ((links_split ha).mpr (.inr hn))
  | toFront ha => exact .inl ((links_split ha).mpr ((links_cons rfl).mp hn))
  | idle => exact .inl hn

/-- Afterwards, the slot of an object that is not linked is cleared if the object was linked
before, and else as it was. -/
theorem recorded (h : Effect a p r a') (hn : ¬ a'.Links n) :
    (∀ o ∈ p, o.serial ≠ n) ∧ a'.recorded n = if a.Links n then none else a.recorded n := by
  cases h with
  | link k o =>
    obtain ⟨hno, hout⟩ := not_or.mp (mt (links_cons rfl).mpr hn)
    refine ⟨by simpa using hno, ?_⟩
    change Function.update a.recorded o.serial (some k) n = _
    rw [Function.update_of_ne (Ne.symm hno)]
    exact (if_neg hout).symm
  | @unlink _ _ k o ha =>
    refine ⟨by simp, ?_⟩
    change Function.update a.recorded o.serial none n = _
    by_cases hno : o.serial = n
    · rw [if_pos ((links_split ha).mpr (.inl hno)), ← hno, Function.update_self]
    · rw [if_neg (fun hin => ((links_split ha).mp hin).elim hno hn),
        Function.update_of_ne (Ne.symm hno)]
  | toFront ha =>
    have hout : ¬ a.Links n := fun hin => hn ((links_cons rfl).mpr ((links_split ha).mp hin))
    exact ⟨by simp, (if_neg hout).symm⟩
  | idle => exact ⟨by simp, (if_neg hn).symm⟩

theorem recorded_of_object (h : Effect a p (.object (some o)) a') :
    a'.recorded o.serial = none := by
  cases h with
  | unlink => exact Function.update_self ..
  | idle hr => exact absurd rfl (hr o)

end Effect

/-- The slot recorded for an object is that of its node, if it has one. -/
def Own (a : Account) (n : Nat) : Prop :=
  ∀ e ∈ a.nodes, e.2.serial = n → a.recorded n = some e.1

theorem Own.effect {n : Nat} {a' : Account} {p : Option CacheObject} {r : Edit.Answer}
    (hown : a.Own n) (h : (a.nodes.map Prod.fst).Nodup) (he : Effect a p r a')
    (hnew : (∃ o ∈ p, o.serial = n) → ¬ a.Links n) : a'.Own n := by
  cases he with
  | link k o =>
    intro node hmem hserial
    change Function.update a.recorded o.serial (some k) n = _
    cases hmem with
    | head =>
      rw [← hserial]
      exact Function.update_self ..
    | tail _ hmem =>
      have hno : o.serial ≠ n := fun hno => hnew ⟨o, rfl, hno⟩ ⟨node, hmem, hserial⟩
      rw [Function.update_of_ne hno.symm]
      exact hown node hmem hserial
  | @unlink _ _ k o ha =>
    intro node hmem hserial
    change Function.update a.recorded o.serial none n = _
    have hmem' := (perm_split ha).mem_iff.mpr (List.mem_cons_of_mem _ hmem)
    have hself : (k, o) ∈ a.nodes := (perm_split ha).mem_iff.mpr List.mem_cons_self
    -- A node of the same object would have the same slot.
    have hno : o.serial ≠ n := fun hno => slot_ne_of_mem h ha node hmem <|
      Option.some.inj ((hown node hmem' hserial).symm.trans (hown (k, o) hself hno))
    rw [Function.update_of_ne hno.symm]
    exact hown node hmem' hserial
  | toFront ha => exact fun node hmem => hown node ((perm_split ha).mem_iff.mpr hmem)
  | idle => exact hown

/-- While an object stays linked, its node keeps the recorded slot only if it had it before
and if the object was not linked anew. -/
theorem Own.of_effect {n : Nat} {a' : Account} {p : Option CacheObject} {r : Edit.Answer}
    (hown : a'.Own n) (hlinks : a'.Links n) (h : (a'.nodes.map Prod.fst).Nodup)
    (he : Effect a p r a') : ((∃ o ∈ p, o.serial = n) → ¬ a.Links n) ∧ a.Own n := by
  cases he with
  | link k o free slots =>
    have hrecorded : ∀ node ∈ a.nodes, node.2.serial = n →
        Function.update a.recorded o.serial (some k) n = some node.1 :=
      fun node hmem => hown node (List.mem_cons_of_mem _ hmem)
    by_cases hno : o.serial = n
    · -- The new node has the recorded slot, so there is no other.
      have hout : ¬ a.Links n := by
        rintro ⟨node, hmem, hserial⟩
        have hslot := hrecorded node hmem hserial
        rw [hno, Function.update_self] at hslot
        obtain rfl := Option.some.inj hslot
        have hslots : node.1 ∈ a.nodes.map Prod.fst := List.mem_map_of_mem hmem
        exact (List.nodup_cons.mp h).1 hslots
      exact ⟨fun _ => hout, fun node hmem hserial => absurd ⟨node, hmem, hserial⟩ hout⟩
    · refine ⟨by simp [hno], fun node hmem hserial => ?_⟩
      rw [← hrecorded node hmem hserial, Function.update_of_ne (Ne.symm hno)]
  | @unlink _ _ k o ha =>
    have hno : o.serial ≠ n := by
      rintro rfl
      obtain ⟨node, hmem, hserial⟩ := hlinks
      have hslot := hown node hmem hserial
      change Function.update a.recorded o.serial none o.serial = _ at hslot
      rw [Function.update_self] at hslot
      cases hslot
    refine ⟨by simp, fun node hmem hserial => ?_⟩
    rcases List.mem_cons.mp ((perm_split ha).mem_iff.mp hmem) with rfl | hkept
    · exact absurd hserial hno
    · have hslot := hown node hkept hserial
      change Function.update a.recorded o.serial none n = _ at hslot
      rwa [Function.update_of_ne (Ne.symm hno)] at hslot
  | toFront ha => exact ⟨by simp, fun node hmem => hown node ((perm_split ha).mem_iff.mp hmem)⟩
  | idle => exact ⟨by simp, hown⟩

end
end Account

/-! ## What an edit does to the slots -/

section
variable {q q' : Recency} {s s' : Objects} {k : Nat} {o : CacheObject} {rest : List Nat}

theorem pushFront_of_free (h : q.free = k :: rest) (s : Objects) (o : CacheObject) :
    (q.pushFront s o).1.newest = some k ∧ (q.pushFront s o).1.free = rest ∧
      (q.pushFront s o).1.slots.size = q.slots.size := by
  simp only [Recency.pushFront, Recency.place, h]
  have hs := SameSlots.setNewer
    { q with slots := q.slots.setIfInBounds k (some ⟨o, none, q.newest⟩), free := rest } q.newest
    (some k)
  exact ⟨trivial, hs.free, hs.size.trans Array.size_setIfInBounds⟩

theorem pushFront_of_full (h : q.free = []) (s : Objects) (o : CacheObject) :
    (q.pushFront s o).1.newest = some q.slots.size ∧ (q.pushFront s o).1.free = [] ∧
      (q.pushFront s o).1.slots.size = q.slots.size + 1 := by
  simp only [Recency.pushFront, Recency.place, h]
  have hs := SameSlots.setNewer
    { q with slots := q.slots.push (some ⟨o, none, q.newest⟩), free := [] } q.newest
    (some q.slots.size)
  exact ⟨trivial, hs.free, hs.size.trans (Array.size_push _)⟩

theorem sameSlots_detach (h : q.detach k = some q') : SameSlots q q' := by
  obtain ⟨n, -, rfl⟩ := Option.map_eq_some_iff.mp h
  exact (SameSlots.setOlder q _ _).trans (SameSlots.setNewer _ _ _)

theorem slots_remove (h : q.remove s k = (some o, q', s')) :
    q'.free = k :: q.free ∧ q'.slots.size = q.slots.size := by
  unfold Recency.remove at h
  split at h
  next n q₁ _ hq₁ =>
    obtain ⟨-, rfl, -⟩ : n.object = o ∧ _ ∧ _ := by simpa using h
    have hs := sameSlots_detach hq₁
    exact ⟨congrArg (k :: ·) hs.free, Array.size_setIfInBounds.trans hs.size⟩
  next => cases h

theorem sameSlots_moveToFront (h : q.moveToFront k = some q') : SameSlots q q' := by
  unfold Recency.moveToFront at h
  split at h
  · obtain rfl := Option.some.inj h
    exact ⟨fun _ => rfl, rfl, rfl, rfl⟩
  · obtain ⟨q₁, hq₁, rfl⟩ := Option.map_eq_some_iff.mp h
    have hmoved := SameSlots.modifyNode q₁ k
      (f := fun n => { n with newer := none, older := q₁.newest }) fun _ => rfl
    have hs := ((sameSlots_detach hq₁).trans hmoved).trans
      (SameSlots.setNewer _ q₁.newest (some k))
    exact ⟨hs.objectAt, hs.size, hs.free, hs.length⟩

end

/-! ## The simulation -/

/-- The list and the recorded slots are as the account says. -/
structure Accounted (q : Recency) (s : Objects) (a : Account) : Prop where
  spelled : q.Spells a.nodes
  free : q.free = a.free
  slots : q.slots.size = a.slots
  recorded : ∀ o, s.slot o = a.recorded o.serial

theorem accounted_initial (s : Objects) : Accounted .empty s (.initial s) where
  spelled := .empty
  free := rfl
  slots := rfl
  recorded _ := rfl

namespace Accounted
variable {q : Recency} {s : Objects} {a : Account} {k : Nat} {o : CacheObject}
  {l₁ l₂ : List (Nat × CacheObject)}

theorem recorded_setSlot (h : Accounted q s a) (o : CacheObject) (k : Option Nat)
    (p : CacheObject) : (s.setSlot o k).slot p = Function.update a.recorded o.serial k p.serial := by
  rw [Objects.slot_setSlot, Function.update_apply, h.recorded]

theorem pushFront (h : Accounted q s a) (o : CacheObject) :
    ((Edit.pushFront o).run q s).1 = (a.edit (.pushFront o)).1 ∧
      Accounted (q.pushFront s o).1 (q.pushFront s o).2 (a.edit (.pushFront o)).2 := by
  obtain ⟨k, hspelled, hs⟩ := h.spelled.pushFront s o
  have hnewest : (q.pushFront s o).1.newest = some k := hspelled.newest_eq
  have hslot : (q.pushFront s o).2.slot o = some k := by
    rw [hs, Objects.slot_setSlot, if_pos rfl]
  unfold Account.edit
  dsimp only
  split
  next k' rest hfree =>
    obtain ⟨hk, hrest, hsize⟩ := pushFront_of_free (h.free.trans hfree) s o
    obtain rfl : k' = k := Option.some.inj (hk.symm.trans hnewest)
    refine ⟨congrArg Edit.Answer.slot hslot, hspelled, hrest, hsize.trans h.slots, ?_⟩
    rw [hs]
    exact h.recorded_setSlot o (some k')
  next hfree =>
    obtain ⟨hk, hrest, hsize⟩ := pushFront_of_full (h.free.trans hfree) s o
    rw [h.slots] at hk hsize
    obtain rfl : a.slots = k := Option.some.inj (hk.symm.trans hnewest)
    refine ⟨congrArg Edit.Answer.slot hslot, hspelled, hrest.trans hfree.symm, hsize, ?_⟩
    rw [hs]
    exact h.recorded_setSlot o (some a.slots)

theorem unlink (h : Accounted q s a) (ha : a.nodes = l₁ ++ (k, o) :: l₂) :
    ∃ q', q.remove s k = (some o, q', s.setSlot o none) ∧
      Accounted q' (s.setSlot o none) (a.unlink (k, o) (l₁ ++ l₂)) := by
  have hspelled := h.spelled
  rw [ha] at hspelled
  obtain ⟨q', hremove, hspelled'⟩ := hspelled.remove s
  obtain ⟨hfree, hsize⟩ := slots_remove hremove
  exact ⟨q', hremove, hspelled', hfree.trans (congrArg (k :: ·) h.free), hsize.trans h.slots,
    h.recorded_setSlot o none⟩

theorem toFront (h : Accounted q s a) (ha : a.nodes = l₁ ++ (k, o) :: l₂) :
    ∃ q', q.moveToFront k = some q' ∧
      Accounted q' s { a with nodes := (k, o) :: (l₁ ++ l₂) } := by
  have hspelled := h.spelled
  rw [ha] at hspelled
  obtain ⟨q', hmoved, hspelled'⟩ := hspelled.moveToFront
  have hs := sameSlots_moveToFront hmoved
  exact ⟨q', hmoved, hspelled', hs.free.trans h.free, hs.size.trans h.slots, h.recorded⟩

/-- A slot without a node of the sequence is empty, and no edit of it does anything. -/
theorem idle (h : Accounted q s a) (hk : k ∉ a.nodes.map Prod.fst) :
    q.remove s k = (none, q, s) ∧ q.moveToFront k = none := by
  have hnone : q.objectAt k = none :=
    Option.eq_none_iff_forall_ne_some.mpr fun o ho => hk (h.spelled.mem_slots_iff.mpr ⟨o, ho⟩)
  exact ⟨Spells.remove_of_empty hnone s, h.spelled.moveToFront_of_empty hnone⟩

theorem edit (h : Accounted q s a) (e : Edit) :
    (e.run q s).1 = (a.edit e).1 ∧ Accounted (e.run q s).2.1 (e.run q s).2.2 (a.edit e).2 := by
  cases e with
  | pushFront o => exact h.pushFront o
  | remove k =>
    simp only [Edit.run, Account.edit]
    rcases Account.node?_cases h.spelled.nodup k with ⟨hk, hnode⟩ | ⟨l₁, o, l₂, ha, hnode, hothers⟩
    · simp only [(h.idle hk).1, hnode]
      exact ⟨trivial, h⟩
    · obtain ⟨q', hremove, hacc⟩ := h.unlink ha
      simp only [hremove, hnode, hothers]
      exact ⟨trivial, hacc⟩
  | moveToFront k =>
    simp only [Edit.run, Account.edit]
    rcases Account.node?_cases h.spelled.nodup k with ⟨hk, hnode⟩ | ⟨l₁, o, l₂, ha, hnode, hothers⟩
    · simp only [(h.idle hk).2, hnode]
      exact ⟨trivial, h⟩
    · obtain ⟨q', hmoved, hacc⟩ := h.toFront ha
      simp only [hmoved, hnode, hothers]
      exact ⟨trivial, hacc⟩
  | popBack =>
    simp only [Edit.run, Account.edit, Recency.popBack, h.spelled.oldest_eq]
    rcases List.eq_nil_or_concat' a.nodes with ha | ⟨l, ⟨k, o⟩, ha⟩
    · simp only [ha, List.map_nil, List.getLast?_nil]
      exact ⟨trivial, h⟩
    · obtain ⟨q', hremove, hacc⟩ := h.unlink ha
      rw [List.append_nil] at hacc
      simp only [ha, List.map_append, List.map_cons, List.map_nil, List.getLast?_concat, hremove,
        List.dropLast_concat]
      exact ⟨trivial, hacc⟩

/-- In the end, the slot of an object that is not linked is cleared if the object ever was
linked, and else as it was. -/
theorem recorded_edits (h : Accounted q s a) (es : List Edit) {n : Nat}
    (hn : ¬ (a.edits es).2.Links n) :
    (a.edits es).2.recorded n =
      if a.Links n ∨ ∃ e ∈ es, ∃ o ∈ e.linked?, o.serial = n then none else a.recorded n := by
  induction es generalizing q s a with
  | nil =>
    have hout : ¬ a.Links n := hn
    simp [hout, Account.edits]
  | cons e es ih =>
    have heffect := Account.effect_edit h.spelled.nodup e
    have hrest := ih (h.edit e).2 hn
    change ((a.edit e).2.edits es).2.recorded n = _
    rw [hrest]
    by_cases hseen : (a.edit e).2.Links n ∨ ∃ e ∈ es, ∃ o ∈ e.linked?, o.serial = n
    · rw [if_pos hseen, if_pos]
      rcases hseen with hlinks | ⟨e', he', ho⟩
      · exact (heffect.links hlinks).imp_right fun ho => ⟨e, List.mem_cons_self, ho⟩
      · exact .inr ⟨e', List.mem_cons_of_mem _ he', ho⟩
    · obtain ⟨hlinks, hlater⟩ := not_or.mp hseen
      obtain ⟨he, hrecorded⟩ := heffect.recorded hlinks
      have hnever : ¬ ∃ e' ∈ e :: es, ∃ o ∈ e'.linked?, o.serial = n := by
        rintro ⟨e', he', o, ho, hno⟩
        cases he' with
        | head => exact he o ho hno
        | tail _ he' => exact hlater ⟨e', he', o, ho, hno⟩
      simp only [if_neg hseen, hrecorded, or_iff_left hnever]

theorem own_edits {n : Nat} (h : Accounted q s a) (hown : a.Own n) {es : List Edit}
    (hes : a.LinksOnce n es) : (a.edits es).2.Own n := by
  induction es generalizing q s a with
  | nil => exact hown
  | cons e es ih =>
    have heffect := Account.effect_edit h.spelled.nodup e
    exact ih (h.edit e).2 (hown.effect h.spelled.nodup heffect hes.1) hes.2

theorem edits (h : Accounted q s a) (es : List Edit) :
    (runEdits q s es).1 = (a.edits es).1 ∧
      Accounted (runEdits q s es).2.1 (runEdits q s es).2.2 (a.edits es).2 := by
  induction es generalizing q s a with
  | nil => exact ⟨rfl, h⟩
  | cons e es ih =>
    obtain ⟨hanswer, hstep⟩ := h.edit e
    obtain ⟨hanswers, hend⟩ := ih hstep
    exact ⟨congrArg₂ List.cons hanswer hanswers, hend⟩

/-- Its own slot is recorded for an object just if it was linked afresh. -/
theorem own_edits_iff {n : Nat} (h : Accounted q s a) (hn : ¬ a.Links n) {es : List Edit} :
    (a.edits es).2.Own n ↔ a.LinkedAfresh n es := by
  constructor
  · intro hown
    -- The last edit comes off, unless the object is off the list already.
    induction es using List.reverseRecOn with
    | nil => exact ⟨[], [], rfl, hn, trivial⟩
    | append_singleton es e ih =>
      by_cases hlinks : (a.edits (es ++ [e])).2.Links n
      · have hbefore := (h.edits es).2
        have hlast : (a.edits (es ++ [e])).2 = ((a.edits es).2.edit e).2 := a.edits_append es [e]
        rw [hlast] at hown hlinks
        obtain ⟨hafresh, hown'⟩ := hown.of_effect hlinks (hbefore.edit e).2.spelled.nodup
          (Account.effect_edit hbefore.spelled.nodup e)
        obtain ⟨before, since, rfl, hout, honce⟩ := ih hown'
        refine ⟨before, since ++ [e], List.append_assoc .., hout, ?_⟩
        rw [Account.edits_append] at hafresh
        exact (Account.linksOnce_concat _ since).mpr ⟨honce, hafresh⟩
      · exact ⟨es ++ [e], [], (List.append_nil _).symm, hlinks, trivial⟩
  · rintro ⟨before, since, rfl, hout, honce⟩
    rw [Account.edits_append]
    exact (h.edits before).2.own_edits (fun node hmem hno => absurd ⟨node, hmem, hno⟩ hout) honce

end Accounted

/-! ## Every run of edits -/

/-- What is seen of a list that has these nodes. -/
structure Shows (q : Recency) (l : List (Nat × CacheObject)) : Prop where
  forward : q.Walks Node.older q.newest (l.map Prod.snd)
  backward : q.Walks Node.newer q.oldest (l.map Prod.snd).reverse
  toList : q.toList = l.map Prod.snd
  length : q.length = l.length
  front : q.front? = (l.map Prod.snd).head?
  back : q.back? = (l.map Prod.snd).getLast?
  holds : ∀ k o, q.holds k o = true ↔ (k, o) ∈ l
  free : ∀ k, q.free.count k = if k < q.slots.size ∧ k ∉ l.map Prod.fst then 1 else 0

theorem Spells.shows {q : Recency} {l : List (Nat × CacheObject)} (h : q.Spells l) :
    q.Shows l where
  forward := h.walks_older
  backward := h.walks_newer
  toList := h.toList_eq
  length := h.length
  front := h.toList_eq ▸ h.front?_eq
  back := h.toList_eq ▸ h.back?_eq
  holds k o := by
    rw [← h.objectAt, Recency.holds, Recency.objectAt]
    cases q.node? k <;> simp
  free k := by
    have hempty : q.objectAt k = none ↔ k ∉ l.map Prod.fst := by
      rw [h.mem_slots_iff, ← Option.isSome_iff_exists, Option.not_isSome_iff_eq_none]
    rw [h.free_nodup.count]
    simp only [h.mem_free, hempty]

/-- A recency list that starts empty stands for its account under any edits. It gives the
same answers, and the account is all that is seen of it. Of the objects, an unlinked one
has no slot if it was linked before and the slot it came with if it never was, and a linked
one has the slot of its node just if it was not linked already when it was linked last. An
edit that takes an object out clears its slot. An edit of a slot without a node fails and
leaves everything alone. -/
theorem runEdits_accounted (s : Objects) (es : List Edit) :
    ∃ q s', runEdits .empty s es = (((Account.initial s).edits es).1, q, s') ∧
      let a := ((Account.initial s).edits es).2
      q.Shows a.nodes ∧
        (∀ o, s'.slot o = a.recorded o.serial) ∧
        (∀ o, ¬ a.Links o.serial → s'.slot o =
          if ∃ e ∈ es, ∃ p ∈ e.linked?, p.serial = o.serial then none else s.slot o) ∧
        (∀ n, (∀ k o, (k, o) ∈ a.nodes → o.serial = n → s'.slot o = some k) ↔
          (Account.initial s).LinkedAfresh n es) ∧
        (∀ e o, (Edit.run q s' e).1 = .object (some o) → (Edit.run q s' e).2.2.slot o = none) ∧
        ∀ k ∉ a.nodes.map Prod.fst, q.remove s' k = (none, q, s') ∧ q.moveToFront k = none := by
  obtain ⟨hanswers, hend⟩ := (accounted_initial s).edits es
  refine ⟨(runEdits .empty s es).2.1, (runEdits .empty s es).2.2, Prod.ext hanswers rfl,
    hend.spelled.shows, hend.recorded, fun o ho => ?unlinked, fun n => ?linked,
    fun e o he => ?cleared, fun k hk => hend.idle hk⟩
  case unlinked =>
    rw [hend.recorded, (accounted_initial s).recorded_edits es ho]
    simp only [Account.Links, Account.initial, List.not_mem_nil, false_and, exists_false, false_or,
      Objects.slot]
  case linked =>
    have hempty : ¬ (Account.initial s).Links n := by
      rintro ⟨node, hmem, -⟩
      cases hmem
    rw [← (accounted_initial s).own_edits_iff hempty]
    constructor
    · rintro hslot ⟨k, o⟩ hmem rfl
      exact (hend.recorded o).symm.trans (hslot k o hmem rfl)
    · rintro hown k o hmem rfl
      exact (hend.recorded o).trans (hown (k, o) hmem rfl)
  case cleared =>
    obtain ⟨hanswer, hnext⟩ := hend.edit e
    have heffect := Account.effect_edit hend.spelled.nodup e
    rw [← hanswer, he] at heffect
    rw [hnext.recorded]
    exact heffect.recorded_of_object

/-- Two objects come and the older one goes, a third takes its slot, the second moves up, a
slot that does not exist is edited, the first comes again, and the last goes. -/
theorem runEdits_accounted_reused :
    let o (n : Nat) : CacheObject := ⟨n, 7, 1, none⟩
    let es : List Edit := [.pushFront (o 0), .pushFront (o 1), .remove 0, .pushFront (o 2),
      .moveToFront 1, .moveToFront 4, .pushFront (o 0), .popBack]
    ∃ q s', runEdits .empty .empty es = ([.slot (some 0), .slot (some 1), .object (some (o 0)),
        .slot (some 0), .moved true, .moved false, .slot (some 2), .object (some (o 2))], q, s') ∧
      q.toList = [o 0, o 1] ∧ s'.slot (o 0) = some 2 ∧ s'.slot (o 2) = none ∧
      q.remove s' 0 = (none, q, s') := by
  intro o es
  obtain ⟨q, s', hrun, hshows, -, hunlinked, hlinked, -, hidle⟩ := runEdits_accounted .empty es
  have hnodes : ((Account.initial .empty).edits es).2.nodes = [(2, o 0), (1, o 1)] := by
    decide +kernel
  have hafresh : (Account.initial .empty).LinkedAfresh 0 es :=
    ⟨[], es, rfl, by decide, by decide +kernel⟩
  have hanswers : ((Account.initial .empty).edits es).1 = [.slot (some 0), .slot (some 1),
      .object (some (o 0)), .slot (some 0), .moved true, .moved false, .slot (some 2),
      .object (some (o 2))] := by decide +kernel
  refine ⟨q, s', hanswers ▸ hrun, ?_, (hlinked 0).mpr hafresh 2 (o 0) ?_ rfl, ?_, (hidle 0 ?_).1⟩
  · rw [hshows.toList, hnodes]
    rfl
  · rw [hnodes]
    exact List.mem_cons_self
  · rw [hunlinked (o 2) (by decide +kernel), if_pos (by decide +kernel)]
  · rw [hnodes]
    decide

/-- An object is linked twice, so that its older node does not have the recorded slot, and
then leaves the newer node. It is linked still, and no slot is recorded for it. -/
theorem slot_lost_by_relinking :
    let o : CacheObject := ⟨0, 7, 1, none⟩
    let twice := runEdits .empty .empty [.pushFront o, .pushFront o]
    let once := runEdits .empty .empty [.pushFront o, .pushFront o, .remove 1]
    twice.1 = [.slot (some 0), .slot (some 1)] ∧ twice.2.1.toList = [o, o] ∧
      twice.2.1.holds 0 o = true ∧ twice.2.2.slot o = some 1 ∧
      once.1 = [.slot (some 0), .slot (some 1), .object (some o)] ∧ once.2.1.toList = [o] ∧
      once.2.1.holds 0 o = true ∧ once.2.2.slot o = none := by
  decide +kernel

end SegmentedCache.Recency
