import SegmentedCache.Proofs.Lru.Refinement

/-!
# A larger cache includes a smaller one

Two least-recently-used caches that differ in their capacities serve the same
requests. Objects do not expire, an id is always asked for with the same size, and
the smaller cache admits everything. Then the queue of the smaller cache is always
a prefix of the queue of the larger one, so what hits in the smaller cache hits in
the larger one as well.

The argument is about plain lists. A request puts its entry in front of both; what
is kept behind it is a prefix of what was there, and the longest that fits in the
smaller cache fits in the larger one.
-/
namespace SegmentedCache

theorem keepWithin_mono {cost : Entry → Nat} {budget budget' : Nat} {l l' : List Entry}
    (hb : budget ≤ budget') (hl : l <+: l') :
    keepWithin cost budget l <+: keepWithin cost budget' l' := by
  have hkept : keepWithin cost budget l <+: l := keepWithin_prefix
  exact prefix_keepWithin (hkept.trans hl) (cost_keepWithin_le.trans hb)

namespace Plain
variable {l small large : Plain} {r : Request} {e : Entry}

theorem mem_enter (h : e ∈ (l.enter r).entries) : e ∈ l.entries ∨ e = .ofRequest r := by
  unfold enter at h
  split at h
  · rcases List.mem_cons.mp h with h | h
    · exact .inr h
    · exact .inl (List.mem_of_mem_filter (kept_prefix_erase.subset h))
  · exact .inl h

/-- A request brings in its own entry and no other. -/
theorem mem_serve (h : e ∈ (l.serve r).2.entries) : e ∈ l.entries ∨ e = .ofRequest r := by
  unfold serve check at h
  cases hf : l.find? r.id with
  | none =>
    rw [hf] at h
    exact mem_enter h
  | some p =>
    rw [hf] at h
    dsimp only at h
    split at h
    · exact (mem_enter h).imp_left List.mem_of_mem_filter
    · rcases List.mem_cons.mp h with rfl | h
      · exact .inl (List.mem_of_find?_eq_some hf)
      · exact .inl (List.mem_of_mem_filter h)

/-- A request without a lifetime finds its own entry, moves it to the front, and hits. -/
theorem serve_of_found (hf : l.find? r.id = some (.ofRequest r)) (hlife : r.lifetime = none) :
    l.serve r = (.hit, l.touch (.ofRequest r)) := by
  have halive : (Entry.ofRequest r).expiredAt r.time = false := by
    simp [Entry.expiredAt, Entry.ofRequest, Request.expiry, hlife]
  simp [serve, check, hf, halive]

theorem serve_of_absent (hf : l.find? r.id = none) : l.serve r = (.miss, l.enter r) := by
  simp [serve, check, hf]

/-- One request, where the larger list knows the id by this request only. -/
theorem prefix_serve (hp : small.entries <+: large.entries)
    (hcap : small.capacity ≤ large.capacity) (hover : small.overhead = large.overhead)
    (hsame : ∀ e ∈ large.entries, e.id = r.id → e = .ofRequest r) (hlife : r.lifetime = none)
    (hfit : small.charge r.size ≤ small.capacity) :
    (small.serve r).2.entries <+: (large.serve r).2.entries ∧
      ((small.serve r).1 = .hit → (large.serve r).1 = .hit) := by
  have hcharge : small.charge = large.charge := by
    unfold charge
    rw [hover]
  have hcost : small.cost = large.cost := by
    unfold cost
    rw [hcharge]
  have hrest : (small.erase r.id).entries <+: (large.erase r.id).entries := hp.filter _
  have hlarge : ∀ e, large.find? r.id = some e → e = .ofRequest r := by
    intro e he
    exact hsame e (List.mem_of_find?_eq_some he) (by simpa using List.find?_some he)
  cases hs : small.find? r.id with
  | some e =>
    have hl : large.find? r.id = some e := hp.find?_eq_some hs
    obtain rfl := hlarge e hl
    rw [serve_of_found hs hlife, serve_of_found hl hlife]
    exact ⟨List.cons_prefix_cons.mpr ⟨rfl, hrest⟩, fun h => h⟩
  | none =>
    rw [serve_of_absent hs, enter_of_le hfit]
    refine ⟨?_, fun h => by cases h⟩
    cases hl : large.find? r.id with
    | some e =>
      obtain rfl := hlarge e hl
      rw [serve_of_found hl hlife]
      exact List.cons_prefix_cons.mpr ⟨rfl, kept_prefix_erase.trans hrest⟩
    | none =>
      have hfit' : large.charge r.size ≤ large.capacity := hcharge ▸ hfit.trans hcap
      rw [serve_of_absent hl, enter_of_le hfit']
      unfold kept
      rw [hcost, hcharge]
      exact List.cons_prefix_cons.mpr ⟨rfl, keepWithin_mono (Nat.sub_le_sub_right hcap _) hrest⟩

/-- Every hit on the left is a hit on the right. -/
def HitsToo (a b : Answer) : Prop := a = .found .hit → b = .found .hit

theorem prefix_performAll {rs : List Request} {size : ObjectId → Bytes}
    (hp : small.entries <+: large.entries) (hcap : small.capacity ≤ large.capacity)
    (hover : small.overhead = large.overhead)
    (hentries : ∀ e ∈ large.entries, e = ⟨e.id, size e.id, none⟩)
    (hrs : ∀ r ∈ rs, r.lifetime = none ∧ r.size = size r.id ∧
      small.charge r.size ≤ small.capacity) :
    (small.performAll (rs.map .serve)).2.entries <+: (large.performAll (rs.map .serve)).2.entries ∧
      List.Forall₂ HitsToo (small.performAll (rs.map .serve)).1
        (large.performAll (rs.map .serve)).1 := by
  induction rs generalizing small large with
  | nil => exact ⟨hp, .nil⟩
  | cons r rest ih =>
    obtain ⟨⟨hlife, hsize, hfit⟩, hrest⟩ := List.forall_mem_cons.mp hrs
    have hrequest : Entry.ofRequest r = ⟨r.id, size r.id, none⟩ := by
      simp [Entry.ofRequest, Request.expiry, hlife, hsize]
    have hsame : ∀ e ∈ large.entries, e.id = r.id → e = .ofRequest r := by
      intro e he hid
      rw [hentries e he, hrequest, hid]
    obtain ⟨hstep, hhit⟩ := prefix_serve hp hcap hover hsame hlife hfit
    have hnext : ∀ e ∈ (large.serve r).2.entries, e = ⟨e.id, size e.id, none⟩ := by
      intro e he
      rcases mem_serve he with he | rfl
      · exact hentries e he
      · exact hrequest
    obtain ⟨hall, hhits⟩ := ih hstep (by simpa using hcap) (by simpa using hover) hnext
      (by simpa [charge] using hrest)
    refine ⟨hall, .cons (fun h => ?_) hhits⟩
    rw [Answer.found.injEq] at h ⊢
    exact hhit h

end Plain

namespace Lru
open SegmentedCache.Action Policy
variable {st₀ st₁ st st' st₂ st₃ : Store} {c c' d d' : Lru} {p q : Params}

/-- Where an id is always asked for with the same size, there is one size for each id. -/
theorem exists_size_of_id {rs : List Request}
    (h : ∀ r ∈ rs, ∀ r' ∈ rs, r.id = r'.id → r.size = r'.size) :
    ∃ size : ObjectId → Bytes, ∀ r ∈ rs, r.size = size r.id := by
  refine ⟨fun id => ((rs.find? (·.id = id)).map Request.size).getD 0, fun r hr => ?_⟩
  have hsome : (rs.find? (·.id = r.id)).isSome := List.find?_isSome.mpr ⟨r, hr, by simp⟩
  obtain ⟨r', hr'⟩ := Option.isSome_iff_exists.mp hsome
  have hid : r'.id = r.id := by simpa using List.find?_some hr'
  dsimp only
  rw [hr', h r hr r' (List.mem_of_find?_eq_some hr') hid.symm]
  rfl

/-- Of two caches that serve the same requests, the queue of the smaller one is a
prefix of the queue of the larger one, and every hit in the smaller one is a hit in
the larger one. Objects must not expire, an id must keep its size, and the smaller
cache must be able to hold every object. -/
theorem prefix_serveAll (hc : Created p st₀ c st) (hd : Created q st₁ d st₂)
    (hcap : p.capacity ≤ q.capacity) (hover : p.overhead = q.overhead) {rs : List Request}
    (hlife : ∀ r ∈ rs, r.lifetime = none)
    (hsize : ∀ r ∈ rs, ∀ r' ∈ rs, r.id = r'.id → r.size = r'.size)
    (hfit : ∀ r ∈ rs, c.charge r.size ≤ c.params.capacity) {responses responses' : List Response}
    (hy : (performAll (rs.map .serve)).Yields c st responses c' st')
    (hy' : (performAll (rs.map .serve)).Yields d st₂ responses' d' st₃) :
    c'.objects.map CacheObject.entry <+: d'.objects.map CacheObject.entry ∧
      List.Forall₂ (fun a b => a = .found .hit → b = .found .hit) responses responses' := by
  obtain ⟨size, hsize⟩ := exists_size_of_id hsize
  obtain ⟨-, hrun⟩ := (hc.settled.ensures_performAll _).apply hy
  obtain ⟨-, hrun'⟩ := (hd.settled.ensures_performAll _).apply hy'
  have hp : c.plain.entries <+: d.plain.entries := by
    rw [hc.plain_eq, hd.plain_eq]
    exact List.prefix_rfl
  have hempty : ∀ e ∈ d.plain.entries, e = ⟨e.id, size e.id, none⟩ := by
    rw [hd.plain_eq]
    exact fun e he => absurd he List.not_mem_nil
  have hcap' : c.plain.capacity ≤ d.plain.capacity := by
    rw [hc.plain_eq, hd.plain_eq]
    exact UInt64.le_iff_toNat_le.mp hcap
  have hover' : c.plain.overhead = d.plain.overhead := by
    rw [hc.plain_eq, hd.plain_eq]
    exact congrArg UInt64.toNat hover
  have hrs : ∀ r ∈ rs, r.lifetime = none ∧ r.size = size r.id ∧
      c.plain.charge r.size ≤ c.plain.capacity := by
    intro r hr
    rw [plain_charge]
    exact ⟨hlife r hr, hsize r hr, UInt64.le_iff_toNat_le.mp (hfit r hr)⟩
  obtain ⟨hqueues, hhits⟩ := Plain.prefix_performAll hp hcap' hover' hempty hrs
  rw [hrun, hrun'] at hqueues hhits
  refine ⟨hqueues, ?_⟩
  have hplain : ∀ response : Response, response.plain = .found .hit ↔ response = .found .hit := by
    intro response
    cases response <;> simp [Response.plain]
  rw [List.forall₂_map_left_iff, List.forall₂_map_right_iff] at hhits
  refine hhits.imp fun a b h ha => ?_
  exact (hplain b).mp (h ((hplain a).mpr ha))

/-- Objects of three sizes, some asked for again. -/
def revisits : List Request :=
  [⟨1, 3, 0, none⟩, ⟨2, 2, 1, none⟩, ⟨3, 4, 2, none⟩, ⟨2, 2, 3, none⟩, ⟨1, 3, 4, none⟩,
    ⟨2, 2, 5, none⟩, ⟨3, 4, 6, none⟩]

/-- The larger cache hits four times, the smaller one twice. -/
theorem prefix_serveAll_revisits :
    ∃ (c c' d d' : Lru) (st st' st₁ st₂ : Store) (responses responses' : List Response),
      Created ⟨8, 1, 0⟩ {} c st ∧ Created ⟨12, 1, 2⟩ {} d st₁ ∧
      (performAll (revisits.map .serve)).Yields c st responses c' st' ∧
      (performAll (revisits.map .serve)).Yields d st₁ responses' d' st₂ ∧
      responses.count (.found .hit) = 2 ∧ responses'.count (.found .hit) = 4 ∧
      c'.objects.map CacheObject.entry = [⟨3, 4, none⟩, ⟨2, 2, none⟩] ∧
      d'.objects.map CacheObject.entry = [⟨3, 4, none⟩, ⟨2, 2, none⟩, ⟨1, 3, none⟩] ∧
      c'.objects.map CacheObject.entry <+: d'.objects.map CacheObject.entry ∧
      List.Forall₂ (fun a b => a = .found .hit → b = .found .hit) responses responses' := by
  have hsmall : (trial ⟨8, 1, 0⟩ (revisits.map .serve)).any (fun x => decide (
      (∀ r ∈ revisits, x.1.1.charge r.size ≤ x.1.1.params.capacity) ∧
      x.2.1.count (.found .hit) = 2 ∧
      x.2.2.1.objects.map CacheObject.entry = [⟨3, 4, none⟩, ⟨2, 2, none⟩])) = true := by
    decide +kernel
  have hlarge : (trial ⟨12, 1, 2⟩ (revisits.map .serve)).any (fun x => decide (
      x.2.1.count (.found .hit) = 4 ∧
      x.2.2.1.objects.map CacheObject.entry =
        [⟨3, 4, none⟩, ⟨2, 2, none⟩, ⟨1, 3, none⟩])) = true := by
    decide +kernel
  obtain ⟨⟨x, responses, y⟩, hx, hcheck⟩ := (Option.any_eq_true _ _).mp hsmall
  obtain ⟨⟨x', responses', y'⟩, hx', hcheck'⟩ := (Option.any_eq_true _ _).mp hlarge
  obtain ⟨hfit, hhits, hqueue⟩ := of_decide_eq_true hcheck
  obtain ⟨hhits', hqueue'⟩ := of_decide_eq_true hcheck'
  obtain ⟨hc, hy⟩ := created_of_trial hx
  obtain ⟨hd, hy'⟩ := created_of_trial hx'
  obtain ⟨hqueues, hmore⟩ :=
    prefix_serveAll hc hd (by decide) rfl (by decide) (by decide) hfit hy hy'
  exact ⟨_, _, _, _, _, _, _, _, _, _, hc, hd, hy, hy', hhits, hhits', hqueue, hqueue', hqueues,
    hmore⟩

end Lru
end SegmentedCache
