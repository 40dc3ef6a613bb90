import SegmentedCache.Proofs.Lru.Ledger
import SegmentedCache.Proofs.Lru.Refinement

/-!
# A plain list with meters

What a cache counts is decided by the plain list as well. A request counts its outcome;
an admission counts as evicted the entries that no longer fit beside the new one, and
then itself, however the cache makes room. A list with its meters has one answer and one
next state for every operation, or faults where a meter leaves the range of a word. So
caches of any two policies that follow such a list and start alike stay alike:
`Policy.Follows.alike`. A settled least-recently-used cache follows one.
-/
namespace SegmentedCache

/-- The counters that every policy keeps. -/
structure Meters where
  core : Counters
  removals : UInt64
deriving DecidableEq, Repr

namespace Meters

def onCore (f : Counters → Except Fault Counters) (m : Meters) : Except Fault Meters := do
  let core ← f m.core
  pure { m with core }

def recordEvictions : Nat → Meters → Except Fault Meters
  | 0, m => pure m
  | n + 1, m => do
    let m ← m.onCore Counters.recordEviction
    recordEvictions n m

def recordRemoval (m : Meters) : Except Fault Meters := do
  let removals ← Word.add m.removals 1
  pure { m with removals }

theorem recordEvictions_one (m : Meters) :
    m.recordEvictions 1 = m.onCore Counters.recordEviction := by
  unfold recordEvictions
  cases m.onCore Counters.recordEviction <;> rfl

end Meters

namespace Plain

def countEnter (l : Plain) (r : Request) (m : Meters) : Except Fault Meters :=
  if l.charge r.size ≤ l.capacity then do
    let m ← m.recordEvictions ((l.erase r.id).entries.length - (l.kept r).length)
    m.onCore (·.recordInsertion r.size)
  else pure m

/-- What an operation on the list counts. -/
def count (l : Plain) (m : Meters) : Operation → Except Fault Meters
  | .serve r => do
    let (found, l) := l.check r true
    let m ← m.onCore (·.recordLookup r.size found)
    if found = .hit then pure m else l.countEnter r m
  | .check _ _ => pure m
  | .insert r => l.countEnter r m
  | .evict => m.recordEvictions l.entries.getLast?.isSome.toNat
  | .remove id => if (l.find? id).isSome then m.recordRemoval else pure m

end Plain

/-- A plain list with what it has counted. -/
structure Metered where
  list : Plain
  meters : Meters
deriving DecidableEq, Repr

namespace Metered

def perform (x : Metered) (op : Operation) : Except Fault (Plain.Answer × Metered) := do
  let meters ← x.list.count x.meters op
  pure ((x.list.perform op).1, ⟨(x.list.perform op).2, meters⟩)

def performAll (x : Metered) : List Operation → Except Fault (List Plain.Answer × Metered)
  | [] => pure ([], x)
  | op :: rest => do
    let (answer, x) ← x.perform op
    let (answers, x) ← x.performAll rest
    pure (answer :: answers, x)

theorem perform_eq_ok {x : Metered} {op : Operation} {answer : Plain.Answer} {list : Plain}
    {meters : Meters} (hlist : x.list.perform op = (answer, list))
    (hmeters : x.list.count x.meters op = .ok meters) :
    x.perform op = .ok (answer, ⟨list, meters⟩) := by
  unfold perform
  rw [hlist]
  exact bind_eq_ok_iff.mpr ⟨meters, hmeters, rfl⟩

/-- What caches made for the parameters start from. -/
def initial (p : Params) : Metered := ⟨Lru.emptyPlain p, { capacity := p.capacity }, 0⟩

end Metered

namespace Policy
open SegmentedCache.Action
variable {C D : Type} [Policy C] [Policy D] {st st' st₁ st₁' : Store}

/-- While `Inv` holds, caches go through their operations as the metered lists do that
`view` reads off them. -/
def Follows (view : C → Metered) (Inv : Store → C → Prop) : Prop :=
  ∀ ⦃op : Operation⦄ ⦃st : Store⦄ ⦃c : C⦄ ⦃response : Response⦄ ⦃c' : C⦄ ⦃st' : Store⦄,
    Inv st c → (perform op).Yields c st response c' st' →
      Inv st' c' ∧ (view c).perform op = .ok (response.plain, view c')

variable {view : C → Metered} {Inv : Store → C → Prop} {c c' : C}

theorem Follows.performAll (h : Follows view Inv) {ops : List Operation}
    {responses : List Response} (hc : Inv st c)
    (hy : (performAll ops).Yields c st responses c' st') :
    Inv st' c' ∧ (view c).performAll ops = .ok (responses.map Response.plain, view c') := by
  induction ops generalizing c st responses with
  | nil =>
    obtain ⟨rfl, rfl, rfl⟩ := yields_pure_iff.mp hy
    exact ⟨hc, rfl⟩
  | cons op rest ih =>
    unfold Policy.performAll at hy
    obtain ⟨response, c₁, st₁, hop, h₁⟩ := yields_bind_iff.mp hy
    obtain ⟨others, c₂, st₂, hrest, hpure⟩ := yields_bind_iff.mp h₁
    obtain ⟨rfl, rfl, rfl⟩ := yields_pure_iff.mp hpure
    obtain ⟨hc₁, hstep⟩ := h hc hop
    obtain ⟨hc', hrun⟩ := ih hc₁ hrest
    refine ⟨hc', ?_⟩
    unfold Metered.performAll
    exact bind_eq_ok_iff.mpr ⟨_, hstep, bind_eq_ok_iff.mpr ⟨_, hrun, rfl⟩⟩

/-- Two caches that follow the same list give the same answers and end alike. -/
theorem Follows.alike {view' : D → Metered} {Inv' : Store → D → Prop} {d d' : D}
    {ops : List Operation} {responses responses' : List Response} (h : Follows view Inv)
    (h' : Follows view' Inv') (hc : Inv st c) (hd : Inv' st₁ d) (hstart : view c = view' d)
    (hy : (Policy.performAll ops).Yields c st responses c' st')
    (hy' : (Policy.performAll ops).Yields d st₁ responses' d' st₁') :
    responses.map Response.plain = responses'.map Response.plain ∧ view c' = view' d' := by
  have hrun := (h.performAll hc hy).2
  rw [hstart, (h'.performAll hd hy').2] at hrun
  have hsame := Prod.mk.inj (Except.ok.inj hrun)
  exact ⟨hsame.1.symm, hsame.2.symm⟩

end Policy

/-! ## Least-recently-used caches -/

namespace LruCounters
variable {k k' : LruCounters}

def meters (k : LruCounters) : Meters := ⟨k.core, k.removals⟩

theorem meters_onCore {f : Counters → Except Fault Counters} (h : k.onCore f = .ok k') :
    k.meters.onCore f = .ok k'.meters := by
  obtain ⟨core, hcore, hk⟩ := bind_eq_ok_iff.mp h
  rw [← Except.ok.inj hk]
  exact bind_eq_ok_iff.mpr ⟨core, hcore, rfl⟩

theorem meters_recordRemoval (h : k.recordRemoval = .ok k') :
    k.meters.recordRemoval = .ok k'.meters := by
  obtain ⟨removals, hadd, hk⟩ := bind_eq_ok_iff.mp h
  rw [← Except.ok.inj hk]
  exact bind_eq_ok_iff.mpr ⟨removals, hadd, rfl⟩

end LruCounters

namespace Lru
open SegmentedCache.Action Policy
variable {st st' : Store} {c c' : Lru} {r : Request}

def metered (c : Lru) : Metered := ⟨c.plain, c.counters.meters⟩

theorem plain_charge_le_iff {size : Bytes} :
    c.plain.charge size ≤ c.plain.capacity ↔ c.charge size ≤ c.params.capacity := by
  rw [plain_charge]
  exact UInt64.le_iff_toNat_le.symm

theorem meters_evictWithin {victim : Option CacheObject} (fuel : Nat)
    (hy : (evictWithin fuel).Yields c st victim c' st') :
    c.counters.meters.recordEvictions victim.isSome.toNat = .ok c'.counters.meters := by
  induction fuel generalizing c st with
  | zero =>
    obtain ⟨rfl, rfl, -⟩ := yields_pure_iff.mp hy
    rfl
  | succ fuel ih =>
    unfold evictWithin at hy
    rw [yields_get_bind_iff] at hy
    cases hb : c.queue.back? with
    | none =>
      rw [hb] at hy
      obtain ⟨rfl, rfl, -⟩ := yields_pure_iff.mp hy
      rfl
    | some o =>
      rw [hb] at hy
      dsimp only at hy
      rw [yields_getThe_bind_iff, yields_bind_iff] at hy
      obtain ⟨b, c₁, st₁, hu, h₁⟩ := hy
      rw [← show c₁.counters = c.counters from handling_counters.unlink o hu]
      cases b with
      | false =>
        obtain ⟨rfl, rfl, -⟩ := yields_pure_iff.mp h₁
        rfl
      | true =>
        cases hr : st.resident o with
        | true =>
          rw [hr, if_pos rfl, if_pos rfl] at h₁
          obtain ⟨_, c₂, st₂, hrecord, h₂⟩ := yields_bind_iff.mp h₁
          obtain ⟨_, c₃, st₃, hemit, hpure⟩ := yields_bind_iff.mp h₂
          obtain ⟨counters, hok, rfl, -⟩ := yields_record_iff.mp hrecord
          obtain ⟨rfl, -⟩ := yields_emit_iff.mp hemit
          obtain ⟨rfl, rfl, -⟩ := yields_pure_iff.mp hpure
          exact (Meters.recordEvictions_one _).trans (LruCounters.meters_onCore hok)
        | false =>
          rw [hr, if_pos rfl, if_neg Bool.false_ne_true] at h₁
          exact ih h₁

theorem meters_evict {victim : Option CacheObject} (hy : evict.Yields c st victim c' st') :
    c.counters.meters.recordEvictions victim.isSome.toNat = .ok c'.counters.meters :=
  meters_evictWithin _ hy

theorem meters_check {update : Bool} {found : Lookup}
    (hy : (check r update).Yields c st found c' st') : c'.counters.meters = c.counters.meters := by
  unfold check at hy
  rw [yields_get_bind_iff, yields_getThe_bind_iff] at hy
  split at hy
  next => rw [(yields_pure_iff.mp hy).2.1]
  next o _ =>
    split at hy
    next =>
      split at hy
      next =>
        obtain ⟨_, c₁, st₁, hunlink, h₁⟩ := yields_bind_iff.mp hy
        obtain ⟨_, c₂, st₂, hrecord, hpure⟩ := yields_bind_iff.mp h₁
        obtain ⟨-, rfl, -⟩ := yields_pure_iff.mp hpure
        obtain ⟨b, hunlink⟩ := yields_discard_iff.mp hunlink
        obtain ⟨counters, hok, rfl, -⟩ := yields_record_iff.mp hrecord
        obtain ⟨n, -, rfl⟩ := LruCounters.recordExpiredRemoval_eq_ok hok
        rw [← show c₁.counters = c.counters from handling_counters.unlink o hunlink]
        rfl
      next => rw [(yields_pure_iff.mp hy).2.1]
    next =>
      split at hy
      next =>
        split at hy
        next =>
          obtain ⟨_, c₁, st₁, hset, hpure⟩ := yields_bind_iff.mp hy
          obtain ⟨-, rfl, -⟩ := yields_pure_iff.mp hpure
          rw [(yields_set_iff.mp hset).1]
        next => rw [(yields_pure_iff.mp hy).2.1]
      next => rw [(yields_pure_iff.mp hy).2.1]

namespace Settled

/-- Every eviction takes an entry off the list. -/
theorem meters_makeRoomWithin {charge : Bytes} (fuel : Nat) (h : Settled st c)
    (hy : (makeRoomWithin charge fuel).Yields c st () c' st') :
    ∃ n, c'.plain.entries.length + n = c.plain.entries.length ∧
      c.counters.meters.recordEvictions n = .ok c'.counters.meters := by
  induction fuel generalizing c st with
  | zero =>
    obtain ⟨-, rfl, -⟩ := yields_pure_iff.mp hy
    exact ⟨0, rfl, rfl⟩
  | succ fuel ih =>
    unfold makeRoomWithin at hy
    rw [yields_get_bind_iff] at hy
    obtain ⟨total, c₁, st₁, hadd, h₁⟩ := yields_bind_iff.mp hy
    obtain ⟨-, rfl, rfl⟩ := yields_checked_iff.mp hadd
    split at h₁
    next =>
      obtain ⟨victim, c₂, st₂, hevict, h₂⟩ := yields_bind_iff.mp h₁
      have hmeters := meters_evict hevict
      obtain ⟨⟨gone, hs⟩, hlast⟩ := h.ensures_evict.apply hevict
      obtain ⟨hanswer, hlist⟩ := Prod.mk.inj hlast
      cases victim with
      | none =>
        obtain ⟨-, rfl, -⟩ := yields_pure_iff.mp h₂
        have hnil := List.getLast?_eq_none_iff.mp (Plain.Answer.entry.inj hanswer)
        refine ⟨0, ?_, hmeters⟩
        rw [← hlist, hnil]
        rfl
      | some v =>
        have hne : c₁.plain.entries ≠ [] :=
          List.ne_nil_of_mem (List.mem_of_getLast? (Plain.Answer.entry.inj hanswer))
        obtain ⟨n, hlength, hrest⟩ := ih (h.sheds hs) h₂
        refine ⟨n + 1, ?_, ?_⟩
        · rw [← hlist, List.length_dropLast] at hlength
          have hpos := List.length_pos_of_ne_nil hne
          omega
        · exact bind_eq_ok_iff.mpr
            ⟨_, (Meters.recordEvictions_one _).symm.trans hmeters, hrest⟩
    next =>
      obtain ⟨-, rfl, -⟩ := yields_pure_iff.mp h₁
      exact ⟨0, rfl, rfl⟩

theorem meters_insert (h : Settled st c) {o : Option CacheObject}
    (hy : (insert r).Yields c st o c' st') :
    c.plain.countEnter r c.counters.meters = .ok c'.counters.meters := by
  unfold insert at hy
  rw [yields_get_bind_iff] at hy
  dsimp only at hy
  unfold Plain.countEnter
  split at hy
  next hgt =>
    obtain ⟨_, c₁, st₁, hemit, hpure⟩ := yields_bind_iff.mp hy
    obtain ⟨rfl, -⟩ := yields_emit_iff.mp hemit
    obtain ⟨-, rfl, -⟩ := yields_pure_iff.mp hpure
    exact if_neg (plain_charge_le_iff.not.mpr (UInt64.not_le.mpr hgt))
  next hle =>
    have hle : c.charge r.size ≤ c.params.capacity := UInt64.not_lt.mp hle
    obtain ⟨_, c₁, st₁, hdisplace, h₁⟩ := yields_bind_iff.mp hy
    obtain ⟨_, c₂, st₂, hroom, h₂⟩ := yields_bind_iff.mp h₁
    obtain ⟨p, c₃, st₃, hlink, h₃⟩ := yields_bind_iff.mp h₂
    obtain ⟨_, c₄, st₄, hrecord, hpure⟩ := yields_bind_iff.mp h₃
    obtain ⟨-, rfl, -⟩ := yields_pure_iff.mp hpure
    obtain ⟨counters, hok, rfl, -⟩ := yields_record_iff.mp hrecord
    have hdisplaced : (Lru.displace r).Ensures c st fun _ c' st' =>
        Settled st' c' ∧ c'.params = c.params ∧ c'.plain = c.plain.erase r.id := by
      obtain ⟨d, st', gone, hd, hs, -, hplain⟩ := h.displace r
      exact .of_yields hd ⟨h.sheds hs, hs.params, hplain⟩
    obtain ⟨hc₁, hparams, hplain⟩ := hdisplaced.apply hdisplace
    have hfuel : c₁.plain.entries.length < c₁.queue.length + 1 := by
      rw [← hc₁.length_objects]
      exact Nat.lt_succ_of_le (List.length_map ..).le
    have hle₁ : c.charge r.size ≤ c₁.params.capacity := by rwa [hparams]
    unfold makeRoom at hroom
    rw [yields_get_bind_iff] at hroom
    have hkept := ((hc₁.ensures_makeRoomWithin _ hle₁ hfuel).apply hroom).2
    obtain ⟨n, hlength, hevictions⟩ := hc₁.meters_makeRoomWithin _ hroom
    rw [hkept, hplain] at hlength
    -- every entry that is missing beside the new one was evicted
    have hn : n = (c.plain.erase r.id).entries.length - (c.plain.kept r).length := by
      unfold Plain.kept
      rw [plain_charge, ← hlength]
      exact (Nat.add_sub_cancel_left ..).symm
    rw [if_pos (plain_charge_le_iff.mpr hle), ← hn,
      ← show c₁.counters = c.counters from handling_counters.displace r hdisplace]
    refine bind_eq_ok_iff.mpr ⟨_, hevictions, ?_⟩
    rw [← show c₃.counters = c₂.counters from counters_of_link hlink]
    exact LruCounters.meters_onCore hok

theorem meters_serve (h : Settled st c) {found : Lookup}
    (hy : (serve r).Yields c st found c' st') :
    c.plain.count c.counters.meters (.serve r) = .ok c'.counters.meters := by
  unfold serve at hy
  obtain ⟨found', c₁, st₁, hcheck, h₁⟩ := yields_bind_iff.mp hy
  obtain ⟨_, c₂, st₂, hrecord, h₂⟩ := yields_bind_iff.mp h₁
  obtain ⟨counters, hok, rfl, rfl⟩ := yields_record_iff.mp hrecord
  obtain ⟨hc₁, hplain⟩ := (h.ensures_check r true).apply hcheck
  have hlookup := LruCounters.meters_onCore hok
  rw [meters_check hcheck] at hlookup
  unfold Plain.count
  dsimp only
  rw [hplain]
  refine bind_eq_ok_iff.mpr ⟨_, hlookup, ?_⟩
  split at h₂
  next hmiss =>
    rw [if_neg hmiss]
    rw [yields_get_bind_iff] at h₂
    dsimp only at h₂
    split at h₂
    next hle =>
      obtain ⟨_, c₃, st₃, hinsert, hpure⟩ := yields_bind_iff.mp h₂
      obtain ⟨-, rfl, -⟩ := yields_pure_iff.mp hpure
      obtain ⟨o, hinsert⟩ := yields_discard_iff.mp hinsert
      exact (hc₁.counted counters).meters_insert hinsert
    next hgt =>
      obtain ⟨_, c₃, st₃, hemit, hpure⟩ := yields_bind_iff.mp h₂
      obtain ⟨rfl, -⟩ := yields_emit_iff.mp hemit
      rw [(yields_pure_iff.mp hpure).2.1]
      exact if_neg (plain_charge_le_iff.not.mpr hgt)
  next hhit =>
    rw [if_pos (not_not.mp hhit), (yields_pure_iff.mp h₂).2.1]
    rfl

theorem meters_remove (h : Settled st c) {id : ObjectId} {removed : Option CacheObject}
    (hy : (remove id).Yields c st removed c' st') :
    c.plain.count c.counters.meters (.remove id) = .ok c'.counters.meters := by
  unfold remove at hy
  rw [yields_get_bind_iff, yields_getThe_bind_iff] at hy
  unfold Plain.count
  dsimp only
  rw [h.find?_plain, Option.isSome_map]
  split at hy
  next hf =>
    obtain ⟨_, c₁, st₁, hemit, hpure⟩ := yields_bind_iff.mp hy
    obtain ⟨rfl, -⟩ := yields_emit_iff.mp hemit
    obtain ⟨-, rfl, -⟩ := yields_pure_iff.mp hpure
    rw [hf]
    rfl
  next o hf =>
    obtain ⟨b, c₁, st₁, hunlink, h₁⟩ := yields_bind_iff.mp hy
    obtain ⟨_, c₂, st₂, hrecord, hpure⟩ := yields_bind_iff.mp h₁
    obtain ⟨-, rfl, -⟩ := yields_pure_iff.mp hpure
    obtain ⟨counters, hok, rfl, -⟩ := yields_record_iff.mp hrecord
    rw [hf, ← show c₁.counters = c.counters from handling_counters.unlink o hunlink]
    exact LruCounters.meters_recordRemoval hok

end Settled

/-- A settled cache answers and counts as its list does. -/
theorem follows_plain : Follows metered Settled := by
  intro op st c response c' st' h hy
  obtain ⟨hc', hlist⟩ := (h.ensures_perform op).apply hy
  refine ⟨hc', Metered.perform_eq_ok hlist ?_⟩
  cases op with
  | serve r =>
    obtain ⟨found, hserve, -⟩ := yields_map_iff.mp hy
    exact h.meters_serve hserve
  | check r update =>
    obtain ⟨found, hcheck, -⟩ := yields_map_iff.mp hy
    exact congrArg Except.ok (meters_check hcheck).symm
  | insert r =>
    obtain ⟨o, hinsert, -⟩ := yields_map_iff.mp hy
    exact h.meters_insert hinsert
  | evict =>
    obtain ⟨victim, hevict, rfl⟩ := yields_map_iff.mp hy
    have hlast : c.plain.entries.getLast? = victim.map CacheObject.entry :=
      Plain.Answer.entry.inj (Prod.mk.inj hlist).1
    change Meters.recordEvictions c.plain.entries.getLast?.isSome.toNat _ = _
    rw [hlast, Option.isSome_map]
    exact meters_evict hevict
  | remove id =>
    obtain ⟨removed, hremove, -⟩ := yields_map_iff.mp hy
    exact h.meters_remove hremove

theorem Created.metered_eq {p : Params} {st₀ : Store} (h : Created p st₀ c st) :
    c.metered = .initial p := by
  have hcounters : c.counters = .ofCapacity p.capacity := by
    cases h with
    | checked h => exact ((leads_create p _ _ h).2 c rfl).2.counters
    | vouched h => exact (leads_createVouched p _ _ h).2.2.counters
  unfold metered
  rw [h.plain_eq, hcounters]
  rfl

end Lru
end SegmentedCache
