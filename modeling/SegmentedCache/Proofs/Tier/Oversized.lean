import SegmentedCache.Proofs.Tier.Demand
import SegmentedCache.Proofs.World.Residency

/-!
# Requests for what can never be cached

A request for an id that is not cached, of a size that is not admitted, is counted as a
miss of the whole and leaves everything else as it was, at any depth. So any number of
them do the same. Their sizes need not be small, though: the admission saturates, but
the bytes requested are added up, and the run faults when they leave the range of a word.
-/
namespace SegmentedCache

namespace Counters
variable {k : Counters} {size : Bytes}

/-- The counters can count so many more misses of so many bytes in all. -/
def Affords (k : Counters) (requests bytes : Nat) : Prop :=
  k.requests.toNat + requests < UInt64.size ∧ k.bytesRequested.toNat + bytes < UInt64.size

instance (k : Counters) (requests bytes : Nat) : Decidable (k.Affords requests bytes) :=
  inferInstanceAs (Decidable (_ ∧ _))

/-- The counters after so many misses of so many bytes in all. -/
structure Missed (k : Counters) (requests bytes : Nat) (k' : Counters) : Prop where
  requests : k'.requests.toNat = k.requests.toNat + requests
  bytesRequested : k'.bytesRequested.toNat = k.bytesRequested.toNat + bytes
  others : k' = { k with requests := k'.requests, bytesRequested := k'.bytesRequested }

theorem missed_of_affords (h : k.Affords 1 size.toNat) :
    ∃ k', k.recordMiss size = .ok k' ∧ Missed k 1 size.toNat k' := by
  have hrequests : (k.requests + 1).toNat = k.requests.toNat + 1 := Word.toNat_add_of_lt h.1
  have hbytes : (k.bytesRequested + size).toNat = _ := Word.toNat_add_of_lt h.2
  refine ⟨{ k with requests := k.requests + 1, bytesRequested := k.bytesRequested + size }, ?_,
    hrequests, hbytes, rfl⟩
  unfold recordMiss
  rw [Word.add_eq_ok_iff.mpr hrequests.symm, Word.add_eq_ok_iff.mpr hbytes.symm]
  rfl

theorem overflow_of_not_affords (h : ¬ k.Affords 1 size.toNat) :
    k.recordMiss size = .error .addOverflow := by
  cases hk : k.recordMiss size with
  | error e => rw [k.sums_recordMiss size e hk]
  | ok k' =>
    obtain ⟨requests, hrequests, h₁⟩ := bind_eq_ok_iff.mp hk
    obtain ⟨bytes, hbytes, -⟩ := bind_eq_ok_iff.mp h₁
    rw [Word.add_eq_ok_iff] at hrequests hbytes
    refine absurd ⟨?_, ?_⟩ h
    · exact lt_of_eq_of_lt hrequests requests.toNat_lt_size
    · exact lt_of_eq_of_lt hbytes bytes.toNat_lt_size

theorem Missed.affords_iff {k' : Counters} {m n b c : Nat} (h : Missed k m b k') :
    k'.Affords n c ↔ k.Affords (m + n) (b + c) := by
  unfold Affords
  rw [h.requests, h.bytesRequested, Nat.add_assoc, Nat.add_assoc]

theorem Missed.trans {k' k'' : Counters} {m n b c : Nat} (h : Missed k m b k')
    (h' : Missed k' n c k'') : Missed k (m + n) (b + c) k'' := by
  refine ⟨?_, ?_, ?_⟩
  · rw [h'.requests, h.requests, Nat.add_assoc]
  · rw [h'.bytesRequested, h.bytesRequested, Nat.add_assoc]
  · rw [h'.others, h.others]

end Counters

namespace Lru
open SegmentedCache.Action Policy
variable {c : Lru} {st : Store} {r : Request}

def withCore (c : Lru) (core : Counters) : Lru := { c with counters := { c.counters with core } }

theorem recordCore_apply (f : Counters → Except Fault Counters) (c : Lru) (st : Store) :
    recordCore f c st =
      match f c.counters.core with
      | .ok core => .ok ((), c.withCore core) st
      | .error e => .error e st := by
  change (liftM (LruCounters.onCore f c.counters) >>= fun counters =>
    set { c with counters } : Action Lru Unit) c st = _
  rw [bind_apply, checked_apply]
  unfold LruCounters.onCore
  cases f c.counters.core <;> rfl

theorem admission_of_refused (hlarge : canAdmit c r.size = false) :
    (admission r .miss).Yields c st .miss c
      { st with events := st.events.push (.notAdmitted r.id r.size) } := by
  have hnot : ¬ c.charge r.size ≤ c.params.capacity := of_decide_eq_false hlarge
  unfold admission
  rw [if_pos (by decide), yields_get_bind_iff, if_neg hnot]
  exact yields_bind_iff.mpr ⟨(), c, _, yields_emit_iff.mpr ⟨rfl, rfl⟩,
    yields_pure_iff.mpr ⟨rfl, rfl, rfl⟩⟩

section
variable (hmiss : contains st c r.id = false) (hlarge : canAdmit c r.size = false)
include hmiss

theorem yields_check_of_refused : (check r true).Yields c st .miss c st :=
  Peeking.yields_miss ((Peeking.peek_eq_miss_iff st c r).mpr hmiss)

theorem serve_eq_error_of_refused {e : Fault} (hk : c.counters.core.recordMiss r.size = .error e) :
    serve r c st = .error e st := by
  rw [serve_eq, bind_apply, show check r true c st = _ from yields_check_of_refused hmiss]
  dsimp only
  rw [bind_apply, recordCore_apply]
  dsimp only [Counters.recordLookup]
  rw [hk]

include hlarge in
theorem yields_serve_of_refused {core : Counters}
    (hk : c.counters.core.recordMiss r.size = .ok core) :
    ∃ events, (serve r).Yields c st .miss (c.withCore core) { st with events } := by
  have hrecord : (recordCore (·.recordLookup r.size .miss)).Yields c st () (c.withCore core) st := by
    unfold Yields
    rw [recordCore_apply]
    dsimp only [Counters.recordLookup]
    rw [hk]
  exact ⟨_, yields_bind_iff.mpr ⟨.miss, c, st, yields_check_of_refused hmiss,
    yields_bind_iff.mpr ⟨(), _, st, hrecord, admission_of_refused (c := c.withCore core) hlarge⟩⟩⟩

end
end Lru

namespace Segmented
open SegmentedCache.Action Policy
variable {C : Type} {top : Nat} [Policy C] [Peeking C] {s : Segmented C top} {st : Store}
variable {r : Request}

def withCore (s : Segmented C top) (core : Counters) : Segmented C top :=
  { s with counters := { s.counters with core } }

omit [Policy C] [Peeking C] in
theorem recordCore_apply (f : Counters → Except Fault Counters) (s : Segmented C top)
    (st : Store) :
    recordCore f s st =
      match f s.counters.core with
      | .ok core => .ok ((), s.withCore core) st
      | .error e => .error e st := by
  change (liftM (SegmentedCounters.onCore f s.counters) >>= fun counters =>
    set { s with counters } : Action (Segmented C top) Unit) s st = _
  rw [bind_apply, checked_apply]
  unfold SegmentedCounters.onCore
  cases f s.counters.core <;> rfl

omit [Peeking C] in
theorem admission_of_refused (hlarge : canAdmit s r.size = false) :
    (admission r .miss).Yields s st .miss s
      { st with events := st.events.push (.notAdmittedAbove r.id r.size s.limit) } := by
  have hnot : ¬ s.charge r.size ≤ s.limit := of_decide_eq_false hlarge
  unfold admission
  rw [if_pos (by decide), yields_get_bind_iff, if_neg hnot]
  exact yields_bind_iff.mpr ⟨(), s, _, yields_emit_iff.mpr ⟨rfl, rfl⟩,
    yields_pure_iff.mpr ⟨rfl, rfl, rfl⟩⟩

section
variable (hmiss : contains st s r.id = false) (hlarge : canAdmit s r.size = false)
include hmiss

theorem yields_probe_of_refused : (probe r true (levels top)).Yields s st none s st :=
  yields_probe_of_unseen (seen_eq_none_iff.mpr hmiss)

theorem serve_eq_error_of_refused {e : Fault} (hk : s.counters.core.recordMiss r.size = .error e) :
    serve r s st = .error e st := by
  rw [serve_eq, bind_apply, show probe r true (levels top) s st = _ from
    yields_probe_of_refused hmiss]
  change (recordCore (·.recordMiss r.size) >>= fun _ => admission r .miss) s st = _
  rw [bind_apply, recordCore_apply, hk]

include hlarge in
theorem yields_serve_of_refused {core : Counters}
    (hk : s.counters.core.recordMiss r.size = .ok core) :
    ∃ events, (serve r).Yields s st .miss (s.withCore core) { st with events } := by
  have hrecord : (recordCore (·.recordMiss r.size)).Yields s st () (s.withCore core) st := by
    unfold Yields
    rw [recordCore_apply, hk]
  rw [serve_eq]
  exact ⟨_, yields_bind_iff.mpr ⟨none, s, st, yields_probe_of_refused hmiss,
    yields_bind_iff.mpr ⟨(), _, st, hrecord, admission_of_refused (s := s.withCore core) hlarge⟩⟩⟩

end
end Segmented

namespace Tier
open SegmentedCache.Action Policy
variable {d : Nat} {t : Tier d} {st : Store} {r : Request}

/-- The tier with other core counters of the whole. -/
def withCore : {d : Nat} → Tier d → Counters → Tier d
  | 0, c, core => Lru.withCore c core
  | _ + 1, .inl c, core => .inl (c.withCore core)
  | _ + 1, .inr ⟨top, s⟩, core => .inr ⟨top, s.withCore core⟩

theorem core_withCore (t : Tier d) (core : Counters) : (t.withCore core).core = core := by
  match d, t with
  | 0, _ => rfl
  | _ + 1, .inl _ => rfl
  | _ + 1, .inr _ => rfl

theorem withCore_core (t : Tier d) : t.withCore t.core = t := by
  match d, t with
  | 0, _ => rfl
  | _ + 1, .inl _ => rfl
  | _ + 1, .inr _ => rfl

theorem withCore_withCore (t : Tier d) (core core' : Counters) :
    (t.withCore core).withCore core' = t.withCore core' := by
  match d, t with
  | 0, _ => rfl
  | _ + 1, .inl _ => rfl
  | _ + 1, .inr _ => rfl

theorem canAdmit_withCore (t : Tier d) (core : Counters) (size : Bytes) :
    canAdmit (t.withCore core) size = canAdmit t size := by
  match d, t with
  | 0, _ => rfl
  | _ + 1, .inl _ => rfl
  | _ + 1, .inr _ => rfl

/-- What a tier contains is told neither by its counters nor by the events. -/
theorem contains_withCore (t : Tier d) (core : Counters) (st : Store) (events : Array Event)
    (id : ObjectId) :
    contains { st with events } (t.withCore core) id = contains st t id := by
  have hevents : contains { st with events } t id = contains st t id := by
    rw [Bool.eq_iff_iff, Lawful.contains_iff, Lawful.contains_iff]
    rfl
  rw [← hevents]
  match d, t with
  | 0, _ => rfl
  | _ + 1, .inl _ => rfl
  | _ + 1, .inr _ => rfl

section
variable (hmiss : contains st t r.id = false) (hlarge : canAdmit t r.size = false)
include hmiss

theorem serve_eq_error_of_refused {e : Fault} (hk : t.core.recordMiss r.size = .error e) :
    serve r t st = .error e st := by
  match d, t with
  | 0, _ => exact Lru.serve_eq_error_of_refused hmiss hk
  | _ + 1, .inl c =>
    have hc : serve r c st = .error e st := Lru.serve_eq_error_of_refused hmiss hk
    change either (serve r) (serve r) (.inl c) st = _
    rw [either_apply_inl, hc]
    rfl
  | _ + 1, .inr ⟨top, s⟩ =>
    have hs : serve r s st = .error e st := Segmented.serve_eq_error_of_refused hmiss hk
    change either (serve r) (family fun _ => serve r) (.inr ⟨top, s⟩) st = _
    rw [either_apply_inr, family_apply, hs]
    rfl

include hlarge in
theorem yields_serve_of_refused {core : Counters} (hk : t.core.recordMiss r.size = .ok core) :
    ∃ events, (serve r).Yields t st .miss (t.withCore core) { st with events } := by
  match d, t with
  | 0, _ => exact Lru.yields_serve_of_refused hmiss hlarge hk
  | _ + 1, .inl c =>
    obtain ⟨events, hc⟩ := Lru.yields_serve_of_refused (c := c) hmiss hlarge hk
    exact ⟨events, yields_either_inl.mpr ⟨_, hc, rfl⟩⟩
  | _ + 1, .inr ⟨top, s⟩ =>
    obtain ⟨events, hs⟩ := Segmented.yields_serve_of_refused (s := s) hmiss hlarge hk
    exact ⟨events, yields_either_inr.mpr ⟨_, yields_family.mpr ⟨_, hs, rfl⟩, rfl⟩⟩

end

/-! ## Runs -/

/-- The bytes that are asked for. -/
def asked (rs : List Request) : Nat := (rs.map (·.size.toNat)).sum

theorem yields_serve_cons {rs : List Request} {found : Lookup} {t₁ t₂ : Tier d} {st₁ st₂ : Store}
    {responses : List Response} (hserve : (serve r).Yields t st found t₁ st₁)
    (hrest : (performAll (rs.map .serve)).Yields t₁ st₁ responses t₂ st₂) :
    (performAll ((r :: rs).map .serve)).Yields t st (.found found :: responses) t₂ st₂ :=
  yields_bind_iff.mpr ⟨_, t₁, st₁, yields_map_iff.mpr ⟨found, hserve, rfl⟩,
    yields_bind_iff.mpr ⟨_, t₂, st₂, hrest, yields_pure_iff.mpr ⟨rfl, rfl, rfl⟩⟩⟩

variable {rs : List Request}

/-- What is refused now is refused after a miss was counted. -/
theorem refused_withCore
    (hrs : ∀ r ∈ rs, contains st t r.id = false ∧ canAdmit t r.size = false) (core : Counters)
    (events : Array Event) :
    ∀ r ∈ rs, contains { st with events } (t.withCore core) r.id = false ∧
      canAdmit (t.withCore core) r.size = false := by
  intro r hr
  rw [contains_withCore, canAdmit_withCore]
  exact hrs r hr

theorem serveAll_of_affords
    (hrs : ∀ r ∈ rs, contains st t r.id = false ∧ canAdmit t r.size = false)
    (h : t.core.Affords rs.length (asked rs)) :
    ∃ core events, Counters.Missed t.core rs.length (asked rs) core ∧
      (performAll (rs.map .serve)).Yields t st (rs.map fun _ => .found .miss) (t.withCore core)
        { st with events } := by
  induction rs generalizing t st with
  | nil => exact ⟨t.core, st.events, ⟨rfl, rfl, rfl⟩, by rw [withCore_core]; rfl⟩
  | cons r rest ih =>
    have hasked : asked (r :: rest) = r.size.toNat + asked rest := List.sum_cons
    have hlength : (r :: rest).length = 1 + rest.length := Nat.add_comm _ _
    rw [hasked, hlength] at h ⊢
    obtain ⟨hmiss, hlarge⟩ := hrs r List.mem_cons_self
    have hfirst : t.core.Affords 1 r.size.toNat :=
      ⟨by have := h.1; omega, by have := h.2; omega⟩
    obtain ⟨core₁, hk, hmissed⟩ := Counters.missed_of_affords hfirst
    obtain ⟨events₁, hserve⟩ := yields_serve_of_refused hmiss hlarge hk
    have hrs' := refused_withCore (fun q hq => hrs q (List.mem_cons_of_mem r hq)) core₁ events₁
    obtain ⟨core, events, hrest, hy⟩ :=
      ih hrs' (by rw [core_withCore, hmissed.affords_iff]; exact h)
    rw [core_withCore] at hrest
    rw [withCore_withCore] at hy
    exact ⟨core, events, hmissed.trans hrest, yields_serve_cons hserve hy⟩

theorem serveAll_of_not_affords
    (hrs : ∀ r ∈ rs, contains st t r.id = false ∧ canAdmit t r.size = false)
    (h : ¬ t.core.Affords rs.length (asked rs)) :
    ∃ st', performAll (rs.map .serve) t st = .error .addOverflow st' := by
  induction rs generalizing t st with
  | nil => exact absurd ⟨t.core.requests.toNat_lt_size, t.core.bytesRequested.toNat_lt_size⟩ h
  | cons r rest ih =>
    have hasked : asked (r :: rest) = r.size.toNat + asked rest := List.sum_cons
    have hlength : (r :: rest).length = 1 + rest.length := Nat.add_comm _ _
    rw [hasked, hlength] at h
    obtain ⟨hmiss, hlarge⟩ := hrs r List.mem_cons_self
    change ∃ st', (perform (.serve r) >>= fun response => performAll (rest.map .serve) >>=
      fun responses => pure (response :: responses)) t st = _
    by_cases hfirst : t.core.Affords 1 r.size.toNat
    · obtain ⟨core₁, hk, hmissed⟩ := Counters.missed_of_affords hfirst
      obtain ⟨events₁, hserve⟩ := yields_serve_of_refused hmiss hlarge hk
      have hrs' := refused_withCore (fun q hq => hrs q (List.mem_cons_of_mem r hq)) core₁ events₁
      obtain ⟨st', hfault⟩ := ih hrs' (by rw [core_withCore, hmissed.affords_iff]; exact h)
      refine ⟨st', ?_⟩
      have hop : (perform (.serve r)).Yields t st (.found .miss) (t.withCore core₁)
          { st with events := events₁ } := yields_map_iff.mpr ⟨.miss, hserve, rfl⟩
      rw [bind_apply, show perform (.serve r) t st = _ from hop]
      dsimp only
      rw [bind_apply, hfault]
    · refine ⟨st, ?_⟩
      have hserve := serve_eq_error_of_refused hmiss
        (Counters.overflow_of_not_affords hfirst)
      have hop : perform (.serve r) t st = .error .addOverflow st := by
        change (Response.found <$> serve r) t st = _
        rw [map_apply, hserve]
      rw [bind_apply, hop]

/-- Requests that are refused are misses that change two counters of the whole, and the
events, as long as these counters stay in range. Otherwise the run faults on them. -/
theorem refused_requests_missed
    (hrs : ∀ r ∈ rs, contains st t r.id = false ∧ canAdmit t r.size = false) :
    (t.core.Affords rs.length (asked rs) →
      ∃ core events, Counters.Missed t.core rs.length (asked rs) core ∧
        (performAll (rs.map .serve)).Yields t st (rs.map fun _ => .found .miss)
          (t.withCore core) { st with events }) ∧
    (¬ t.core.Affords rs.length (asked rs) →
      ∃ st', performAll (rs.map .serve) t st = .error .addOverflow st') :=
  ⟨serveAll_of_affords hrs, serveAll_of_not_affords hrs⟩

end Tier

namespace World
open Policy

/-- Two sizes that can never be cached and together just stay in range. -/
def giants : List Request := [⟨2, 18446744073709551600, 0, none⟩, ⟨3, 9, 1, none⟩]

theorem refused_requests_missed_climbed :
    ∃ m ∈ climbed.members,
      (∀ r ∈ giants, contains climbed.store m.tier r.id = false ∧ canAdmit m.tier r.size = false) ∧
      ∃ core events, Counters.Missed m.tier.core 2 18446744073709551609 core ∧
        (performAll (giants.map .serve)).Yields m.tier climbed.store
          [.found .miss, .found .miss] (m.tier.withCore core) { climbed.store with events } := by
  have h : ∃ m ∈ climbed.members,
      (∀ r ∈ giants, contains climbed.store m.tier r.id = false ∧
        canAdmit m.tier r.size = false) ∧
      m.tier.core.Affords giants.length (Tier.asked giants) := by
    decide +kernel
  obtain ⟨m, hm, hrs, hfit⟩ := h
  exact ⟨m, hm, hrs, (Tier.refused_requests_missed hrs).1 hfit⟩

/-- An empty cache for a hundred bytes. -/
def lone : World := empty.build (.lru {} false : Blueprint 0) ⟨100, 0, 0⟩

/-- The largest size there is, asked for twice. -/
def largestTwice : List Request := [⟨1, Word.largest, 0, none⟩, ⟨1, Word.largest, 1, none⟩]

/-- The second of the two requests cannot be counted. -/
theorem refused_requests_overflow :
    ¬ ∀ w, Reachable w → ∀ m ∈ w.members, ∀ rs : List Request,
      (∀ r ∈ rs, contains w.store m.tier r.id = false ∧ canAdmit m.tier r.size = false) →
      ∃ t st, (performAll (rs.map .serve)).Yields m.tier w.store (rs.map fun _ => .found .miss)
        t st := by
  intro hall
  have hr : Reachable lone := Reachable.start.build _ _
  have hrun : ∃ m ∈ lone.members,
      (∀ r ∈ largestTwice, contains lone.store m.tier r.id = false ∧
        canAdmit m.tier r.size = false) ∧
      (match performAll (largestTwice.map .serve) m.tier lone.store with
        | .ok _ _ => false
        | .error _ _ => true) = true := by
    decide +kernel
  obtain ⟨m, hm, hrs, hfault⟩ := hrun
  obtain ⟨t, st, hy⟩ := hall lone hr m hm largestTwice hrs
  rw [show performAll (largestTwice.map .serve) m.tier lone.store = _ from hy] at hfault
  cases hfault

end World
end SegmentedCache
