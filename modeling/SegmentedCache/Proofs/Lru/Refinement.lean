import SegmentedCache.Proofs.Lru.Creation
import SegmentedCache.Proofs.Lru.Settled

/-!
# A least-recently-used cache is a plain list

A cache that has been made for some parameters starts settled and empty, and with
no other writer to its index it stays settled. So the answers and the contents of
every run are those of the plain list: `performAll_refines`. The number of buckets,
the collisions among ids, the slots that are used again and the running total
leave no trace in them.
-/
namespace SegmentedCache.Lru
open SegmentedCache.Action Policy
variable {st st' : Store} {c c' : Lru}

/-- The cache that is made for the parameters, checked or vouched for. -/
inductive Created (p : Params) (st : Store) (c : Lru) (st' : Store) : Prop
  | checked (h : (create p).run st = .ok (.ok c) st')
  | vouched (h : createVouched p st = .ok c st')

/-- The list that a cache with these parameters starts from. -/
def emptyPlain (p : Params) : Plain where
  capacity := p.capacity.toNat
  overhead := p.overhead.toNat

theorem Created.unused {p : Params} (h : Created p st c st') : Unused st' c ∧ c.params = p := by
  have hnew : New st st' [c] ∧ c.Fresh p := by
    cases h with
    | checked h => exact (leads_create p _ _ h).2 c rfl
    | vouched h => exact (leads_createVouched p _ _ h).2
  exact ⟨hnew.1.unused c (List.mem_singleton_self c), hnew.2.params⟩

theorem Unused.settled (h : Unused st c) : Settled st c where
  toCoherent := h.coherent
  tidy o ho := by
    rw [h.objects_eq] at ho
    cases ho
  whole he := by
    rw [h.entry?_eq] at he
    cases he

theorem Created.settled {p : Params} (h : Created p st c st') : Settled st' c := h.unused.1.settled

theorem Created.plain_eq {p : Params} (h : Created p st c st') : c.plain = emptyPlain p := by
  unfold plain emptyPlain
  rw [h.unused.1.objects_eq, h.unused.2]
  rfl

/-- What a client sees of a cache between two operations. -/
structure View where
  /-- In the order of iteration. -/
  entries : List Entry
  occupied : Nat
  count : Nat
  indexed : Nat
deriving DecidableEq, Repr

def view (st : Store) (c : Lru) : View where
  entries := c.objects.map CacheObject.entry
  occupied := c.occupied.toNat
  count := Policy.count c
  indexed := (st.index c.index).count

def viewPlain (l : Plain) : View where
  entries := l.entries
  occupied := l.bytes
  count := l.entries.length
  indexed := l.entries.length

theorem Settled.view_eq (h : Settled st c) : c.view st = viewPlain c.plain := by
  have hlen : c.plain.entries.length = c.objects.length := List.length_map ..
  unfold view viewPlain
  rw [plain_bytes h.toCharged, hlen, h.count_index, h.length_objects]
  rfl

/-- A least-recently-used cache whose index nobody else writes to refines the plain
list. Unless a counter or a sum leaves the range of a word, every run gives the
answers of the list, and ends with its entries in its order, with its bytes and as
many in the queue and in the index. The hash decides nothing: caches that differ
in the number of their buckets answer alike. -/
theorem performAll_refines {p : Params} {st₀ : Store} (hc : Created p st₀ c st)
    (ops : List Operation) :
    ((performAll ops).Ensures c st fun responses c' st' =>
      let (answers, l) := (emptyPlain p).performAll ops
      responses.map Response.plain = answers ∧ c'.view st' = viewPlain l) ∧
    ∀ {hashpower : Nat} {st' st₁ st₂ st₃ : Store} {c' d d' : Lru} {responses responses' : List Response},
      Created { p with hashpower } st₁ d st₂ →
      (performAll ops).Yields c st responses c' st' →
      (performAll ops).Yields d st₂ responses' d' st₃ →
      responses.map Response.plain = responses'.map Response.plain ∧ c'.view st' = d'.view st₃ := by
  have hrun : ∀ {q : Params} {st₀ st : Store} {c : Lru}, Created q st₀ c st →
      (performAll ops).Ensures c st fun responses c' st' =>
        responses.map Response.plain = ((emptyPlain q).performAll ops).1 ∧
          c'.view st' = viewPlain ((emptyPlain q).performAll ops).2 := by
    intro q st₀ st c hc
    apply (hc.settled.ensures_performAll ops).mono
    intro responses c' st' hk
    rw [hk.1.view_eq, ← hc.plain_eq, hk.2]
    exact ⟨rfl, rfl⟩
  refine ⟨hrun hc, fun hd hy hy' => ?_⟩
  obtain ⟨hanswers, hview⟩ := (hrun hc).apply hy
  obtain ⟨hanswers', hview'⟩ := (hrun hd).apply hy'
  exact ⟨hanswers.trans hanswers'.symm, hview.trans hview'.symm⟩

/-- Makes a cache in an empty store and performs the operations on it. Returns the
states before and after, with the responses. -/
def trial (p : Params) (ops : List Operation) : Option ((Lru × Store) × List Response × Lru × Store) :=
  match (create p).run {} with
  | .ok (.ok c) st =>
    match performAll ops c st with
    | .ok (responses, c') st' => some ((c, st), responses, c', st')
    | .error _ _ => none
  | _ => none

theorem created_of_trial {p : Params} {ops : List Operation} {x y : Lru × Store}
    {responses : List Response} (h : trial p ops = some (x, responses, y)) :
    Created p {} x.1 x.2 ∧ (performAll ops).Yields x.1 x.2 responses y.1 y.2 := by
  unfold trial at h
  split at h
  next c st hcreate =>
    split at h
    next responses c' st' hy =>
      cases h
      exact ⟨.checked hcreate, hy⟩
    next => cases h
  next => cases h

/-- One object expires, one comes back larger, and a new one pushes out the last. -/
def crowding : List Operation :=
  [.serve ⟨1, 40, 0, none⟩, .serve ⟨2, 30, 0, none⟩, .serve ⟨3, 20, 0, some 5⟩,
    .check ⟨1, 40, 1, none⟩ true, .check ⟨3, 20, 5, none⟩ true, .insert ⟨1, 60, 6, none⟩,
    .serve ⟨4, 10, 7, some 9⟩, .insert ⟨5, 99, 8, none⟩, .remove 2, .evict]

theorem performAll_refines_crowding :
    ∃ (c c' d d' : Lru) (st st' st₁ st₂ : Store) (responses responses' : List Response),
      Created ⟨100, 2, 0⟩ {} c st ∧ Created ⟨100, 2, 1⟩ {} d st₁ ∧
      (performAll crowding).Yields c st responses c' st' ∧
      (performAll crowding).Yields d st₁ responses' d' st₂ ∧
      responses.map Response.plain = responses'.map Response.plain ∧
      c'.view st' = d'.view st₂ ∧
      responses.map Response.plain =
        [.found .miss, .found .miss, .found .miss, .found .hit, .found .expired,
          .entry (some ⟨1, 60, none⟩), .found .miss, .entry none, .entry none,
          .entry (some ⟨1, 60, none⟩)] ∧
      c'.view st' = ⟨[⟨4, 10, some 16⟩], 12, 1, 1⟩ := by
  obtain ⟨⟨x, responses, y⟩, hx⟩ := Option.isSome_iff_exists.mp
    (show (trial ⟨100, 2, 0⟩ crowding).isSome by decide +kernel)
  obtain ⟨⟨x', responses', y'⟩, hx'⟩ := Option.isSome_iff_exists.mp
    (show (trial ⟨100, 2, 1⟩ crowding).isSome by decide +kernel)
  obtain ⟨hc, hy⟩ := created_of_trial hx
  obtain ⟨hd, hy'⟩ := created_of_trial hx'
  obtain ⟨hanswers, hview⟩ := (performAll_refines hc crowding).1.apply hy
  obtain ⟨hsame, hviews⟩ := (performAll_refines hc crowding).2 hd hy hy'
  exact ⟨_, _, _, _, _, _, _, _, _, _, hc, hd, hy, hy', hsame, hviews,
    hanswers.trans (by decide +kernel), hview.trans (by decide +kernel)⟩

end SegmentedCache.Lru
