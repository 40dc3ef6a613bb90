import Mathlib.Data.Fin.VecNotation
import Mathlib.Data.List.OfFn
import Mathlib.Data.Set.Basic
import SegmentedCache.Index.Command
import SegmentedCache.Proofs.Index.Buckets

/-!
# Lanes that take turns

The commands of several lanes reach an index one at a time, in any order that
keeps the order inside each lane. A command reads and writes the entry of its own
id only, so a lane whose ids no other lane uses runs as if it were alone:
`laneOf_runSchedule`. The chains themselves do depend on the turns, as a new entry
goes to the head of its bucket; what the entries are does not, and by `Alike` that
is all that counts, buckets and chain lengths depend on: `runSchedule_eq_runLanes`.
-/
namespace SegmentedCache.Index
variable {ix ix' : Index} {s s' : Objects} {c : Command} {id : ObjectId} {n : Nat}
  {lanes : Fin n → List Command} {schedule : List (Fin n × Command)}

/-! ## One command -/

theorem Valid.command (h : ix.Valid) (s : Objects) (c : Command) : (c.run ix s).2.1.Valid := by
  cases c with
  | insert o => exact h.insert s o
  | delete id => exact h.delete s id
  | deleteExact o => exact h.deleteExact s o
  | find id => exact h

theorem Command.shape_run (ix : Index) (s : Objects) (c : Command) :
    (c.run ix s).2.1.shape = ix.shape := by
  cases c with
  | insert o => exact shape_insert ix s o
  | delete id => exact shape_delete ix s id
  | deleteExact o => exact shape_deleteExact ix s o
  | find id => rfl

/-- What a command answers, by the entry of its id. -/
def Command.answer (e : Option CacheObject) : Command → Option CacheObject
  | .insert _ | .delete _ | .find _ => e
  | .deleteExact o => e.filter (· = o)

/-- What a command leaves under its id, by the entry it finds there. -/
def Command.leaves (e : Option CacheObject) : Command → Option CacheObject
  | .insert o => some o
  | .delete _ => none
  | .deleteExact o => e.filter (· ≠ o)
  | .find _ => e

theorem Command.run_fst (ix : Index) (s : Objects) (c : Command) :
    (c.run ix s).1 = c.answer (ix.find? c.id) := by
  cases c with
  | insert o => exact insert_fst ix s o
  | delete id => exact delete_fst ix s id
  | deleteExact o =>
    simp only [run, answer, id]
    by_cases ho : ix.find? o.id = some o
    · simp [deleteExact_of_find? ho, ho, Option.filter]
    · have hne : ∀ p ∈ ix.find? o.id, p ≠ o := fun p hp e => ho (e ▸ hp)
      rw [deleteExact_of_ne ho, if_neg Bool.false_ne_true, eq_comm, Option.filter_eq_none_iff]
      simpa using hne
  | find id => rfl

theorem Command.find?_run (h : ix.Valid) (s : Objects) (c : Command) (j : ObjectId) :
    (c.run ix s).2.1.find? j = if j = c.id then c.leaves (ix.find? c.id) else ix.find? j := by
  cases c with
  | insert o => exact find?_insert ix s o j
  | delete id => exact find?_delete h s id j
  | deleteExact o =>
    change (ix.deleteExact s o).2.1.find? j = _
    rw [find?_deleteExact h]
    split
    next hj => rw [hj]; rfl
    next hj =>
      have hne : ∀ p, ix.find? j = some p → p ≠ o := fun p hp e => hj (e ▸ (id_of_find? hp).symm)
      cases hf : ix.find? j with
      | none => rfl
      | some p => simp [Option.filter, hne p hf]
  | find id =>
    change ix.find? j = _
    split
    next hj => rw [hj]; rfl
    next => rfl

/-- A command does the same to indexes that agree on its id, and indexes go on
agreeing wherever they did. -/
theorem Command.run_congr (s s' : Objects) (h : ix.Valid) (h' : ix'.Valid)
    (hc : ix.find? c.id = ix'.find? c.id) :
    (c.run ix s).1 = (c.run ix' s').1 ∧ ∀ id, ix.find? id = ix'.find? id →
      (c.run ix s).2.1.find? id = (c.run ix' s').2.1.find? id := by
  refine ⟨by rw [run_fst, run_fst, hc], fun id hid => ?_⟩
  rw [find?_run h, find?_run h', hc, hid]

/-! ## Runs of commands -/

theorem Valid.commands (h : ix.Valid) (s : Objects) (cs : List Command) :
    (runCommands ix s cs).2.1.Valid := by
  induction cs generalizing ix s with
  | nil => exact h
  | cons c cs ih => exact ih (h.command s c) _

theorem shape_runCommands (ix : Index) (s : Objects) (cs : List Command) :
    (runCommands ix s cs).2.1.shape = ix.shape := by
  induction cs generalizing ix s with
  | nil => rfl
  | cons c cs ih => exact (ih _ _).trans (c.shape_run ix s)

theorem find?_runCommands_of_ne (h : ix.Valid) (s : Objects) {cs : List Command}
    (hid : ∀ c ∈ cs, id ≠ c.id) : (runCommands ix s cs).2.1.find? id = ix.find? id := by
  induction cs generalizing ix s with
  | nil => rfl
  | cons c cs ih =>
    obtain ⟨hc, hid⟩ := List.forall_mem_cons.mp hid
    exact (ih (h.command s c) _ hid).trans (by rw [c.find?_run h, if_neg hc])

theorem runCommands_congr (s s' : Objects) (h : ix.Valid) (h' : ix'.Valid) {cs : List Command}
    (hcs : ∀ c ∈ cs, ix.find? c.id = ix'.find? c.id) :
    (runCommands ix s cs).1 = (runCommands ix' s' cs).1 ∧ ∀ id, ix.find? id = ix'.find? id →
      (runCommands ix s cs).2.1.find? id = (runCommands ix' s' cs).2.1.find? id := by
  induction cs generalizing ix ix' s s' with
  | nil => exact ⟨rfl, fun _ h => h⟩
  | cons c cs ih =>
    obtain ⟨hc, hcs⟩ := List.forall_mem_cons.mp hcs
    obtain ⟨hanswer, hstep⟩ := Command.run_congr s s' h h' hc
    obtain ⟨hrest, hend⟩ := ih _ _ (h.command s c) (h'.command s' c) fun d hd => hstep _ (hcs d hd)
    exact ⟨congrArg₂ List.cons hanswer hrest, fun id hid => hend id (hstep id hid)⟩

theorem runCommands_append (ix : Index) (s : Objects) (cs ds : List Command) :
    (runCommands ix s (cs ++ ds)).2 =
      (runCommands (runCommands ix s cs).2.1 (runCommands ix s cs).2.2 ds).2 := by
  induction cs generalizing ix s with
  | nil => rfl
  | cons c cs ih => exact ih _ _

/-! ## Lanes one after another -/

theorem runLanes_snd (ix : Index) (s : Objects) (ls : List (List Command)) :
    (runLanes ix s ls).2 = (runCommands ix s ls.flatten).2 := by
  induction ls generalizing ix s with
  | nil => rfl
  | cons l ls ih =>
    rw [List.flatten_cons, runCommands_append]
    exact ih _ _

/-- Lanes with different ids run one after another as each does alone. -/
theorem runLanes_alone (s s' : Objects) (h : ix.Valid) (h' : ix'.Valid) {ls : List (List Command)}
    (hap : ls.Pairwise fun l m => ∀ c ∈ l, ∀ d ∈ m, c.id ≠ d.id)
    (hls : ∀ l ∈ ls, ∀ c ∈ l, ix.find? c.id = ix'.find? c.id) :
    (runLanes ix s ls).1 = ls.map (fun l => (runCommands ix' s' l).1) ∧
      ∀ l ∈ ls, ∀ c ∈ l,
        (runLanes ix s ls).2.1.find? c.id = (runCommands ix' s' l).2.1.find? c.id := by
  induction ls generalizing ix s with
  | nil => exact ⟨rfl, fun _ hl => by cases hl⟩
  | cons l ls ih =>
    obtain ⟨hl, hap⟩ := List.pairwise_cons.mp hap
    obtain ⟨hown, hls⟩ := List.forall_mem_cons.mp hls
    obtain ⟨hanswers, hfinds⟩ := runCommands_congr s s' h h' hown
    have hv := h.commands s l
    -- the lane leaves the ids of the others alone, and they leave its ids alone
    obtain ⟨hrest, hend⟩ := ih _ hv hap fun m hm d hd => by
      rw [find?_runCommands_of_ne h s fun c hc => (hl m hm c hc d hd).symm]
      exact hls m hm d hd
    refine ⟨congrArg₂ List.cons hanswers hrest, List.forall_mem_cons.mpr ⟨fun c hc => ?_, hend⟩⟩
    change (runLanes (runCommands ix s l).2.1 (runCommands ix s l).2.2 ls).2.1.find? c.id = _
    rw [runLanes_snd, find?_runCommands_of_ne hv, hfinds _ (hown c hc)]
    intro d hd
    obtain ⟨m, hm, hd⟩ := List.mem_flatten.mp hd
    exact hl m hm c hc d hd

/-! ## Lanes in turns -/

/-- What a list of numbered items has for one lane, in order. -/
def laneOf {α : Type} (i : Fin n) (l : List (Fin n × α)) : List α :=
  (l.filter (·.1 = i)).map Prod.snd

theorem laneOf_cons {α : Type} (i j : Fin n) (a : α) (l : List (Fin n × α)) :
    laneOf i ((j, a) :: l) = if j = i then a :: laneOf i l else laneOf i l := by
  unfold laneOf
  split
  next h => simp [h]
  next h => simp [h]

theorem mem_laneOf_iff {α : Type} {i : Fin n} {a : α} {l : List (Fin n × α)} :
    a ∈ laneOf i l ↔ (i, a) ∈ l := by
  simp [laneOf]

/-- Runs the commands in the order of the schedule. Every answer carries the
number of the lane that gets it. -/
def runSchedule (ix : Index) (s : Objects) :
    List (Fin n × Command) → List (Fin n × Option CacheObject) × Index × Objects
  | [] => ([], ix, s)
  | (i, c) :: rest =>
    let (answer, ix, s) := c.run ix s
    let (answers, ix, s) := runSchedule ix s rest
    ((i, answer) :: answers, ix, s)

/-- The lanes take turns: every lane's turns are its commands in order. -/
def TakeTurns (lanes : Fin n → List Command) (schedule : List (Fin n × Command)) : Prop :=
  ∀ i, laneOf i schedule = lanes i

/-- No id is used by two lanes. -/
def Apart (lanes : Fin n → List Command) : Prop :=
  Pairwise fun i j => ∀ c ∈ lanes i, ∀ d ∈ lanes j, c.id ≠ d.id

theorem runSchedule_snd (ix : Index) (s : Objects) (schedule : List (Fin n × Command)) :
    (runSchedule ix s schedule).2 = (runCommands ix s (schedule.map Prod.snd)).2 := by
  induction schedule generalizing ix s with
  | nil => rfl
  | cons t schedule ih => exact ih _ _

/-- If no other lane's turn has an id of lane `i`, the turns in between make no
difference to lane `i`, nor to what it leaves under its ids. -/
theorem laneOf_runSchedule (s s' : Objects) (i : Fin n) (h : ix.Valid) (h' : ix'.Valid)
    {ids : Set ObjectId}
    (hown : ∀ t ∈ schedule, t.2.id ∈ ids ↔ t.1 = i) (hids : ∀ id ∈ ids, ix.find? id = ix'.find? id) :
    laneOf i (runSchedule ix s schedule).1 = (runCommands ix' s' (laneOf i schedule)).1 ∧
      ∀ id ∈ ids, (runSchedule ix s schedule).2.1.find? id =
        (runCommands ix' s' (laneOf i schedule)).2.1.find? id := by
  induction schedule generalizing ix ix' s s' with
  | nil => exact ⟨rfl, hids⟩
  | cons t schedule ih =>
    obtain ⟨j, c⟩ := t
    obtain ⟨hc, hown⟩ := List.forall_mem_cons.mp hown
    rw [laneOf_cons]
    change laneOf i ((j, (c.run ix s).1) :: (runSchedule (c.run ix s).2.1 _ schedule).1) = _ ∧ _
    rw [laneOf_cons]
    by_cases hj : j = i
    · obtain ⟨hanswer, hstep⟩ := Command.run_congr s s' h h' (hids _ (hc.mpr hj))
      obtain ⟨hrest, hend⟩ := ih _ _ (h.command s c) (h'.command s' c) hown
        fun id hid => hstep id (hids id hid)
      rw [if_pos hj, if_pos hj]
      exact ⟨congrArg₂ List.cons hanswer hrest, hend⟩
    · rw [if_neg hj, if_neg hj]
      refine ih _ _ (h.command s c) h' hown fun id hid => ?_
      rw [c.find?_run h, if_neg, hids id hid]
      rintro rfl
      exact hj (hc.mp hid)

/-- In turns a lane gets the answers it gets alone, and leaves the same. -/
theorem runSchedule_alone (h : ix.Valid) (s : Objects) (hap : Apart lanes)
    (ht : TakeTurns lanes schedule) (i : Fin n) :
    laneOf i (runSchedule ix s schedule).1 = (runCommands ix s (lanes i)).1 ∧
      ∀ c ∈ lanes i, (runSchedule ix s schedule).2.1.find? c.id =
        (runCommands ix s (lanes i)).2.1.find? c.id := by
  have hturn : ∀ j c, (j, c) ∈ schedule ↔ c ∈ lanes j := fun j c => by rw [← ht j, mem_laneOf_iff]
  have hown : ∀ t ∈ schedule, t.2.id ∈ {id | ∃ c ∈ lanes i, c.id = id} ↔ t.1 = i := by
    rintro ⟨j, d⟩ hd
    rw [hturn] at hd
    constructor
    · rintro ⟨c, hc, hid⟩
      by_contra hne
      exact hap hne d hd c hc hid.symm
    · rintro rfl
      exact ⟨d, hd, rfl⟩
  obtain ⟨hanswers, hfinds⟩ := laneOf_runSchedule s s i h h hown fun _ _ => rfl
  rw [ht i] at hanswers hfinds
  exact ⟨hanswers, fun c hc => hfinds c.id ⟨c, hc, rfl⟩⟩

/-- Lanes without an id in common do not interfere, even where their ids share
buckets and stripes. Whatever the turns, every lane gets the answers it would get
alone on the starting index, and the index ends as after one lane after another,
up to the order inside the chains. -/
theorem runSchedule_eq_runLanes (h : ix.Valid) (s : Objects) (hap : Apart lanes)
    (ht : TakeTurns lanes schedule) :
    let (answers, turns, _) := runSchedule ix s schedule
    let (sequential, afterwards, _) := runLanes ix s (List.ofFn lanes)
    (∀ i, laneOf i answers = (runCommands ix s (lanes i)).1) ∧
      sequential = List.ofFn (fun i => (runCommands ix s (lanes i)).1) ∧
      (∀ id, turns.find? id = afterwards.find? id) ∧
      turns.count = afterwards.count ∧
      (∀ hash, (turns.bucket hash).Perm (afterwards.bucket hash)) ∧
      turns.maxChainLength = afterwards.maxChainLength := by
  have hpair : (List.ofFn lanes).Pairwise fun l m => ∀ c ∈ l, ∀ d ∈ m, c.id ≠ d.id :=
    List.pairwise_ofFn.mpr fun i j hij => hap hij.ne
  obtain ⟨hanswers, hfinds⟩ := runLanes_alone s s h h hpair fun _ _ _ _ => rfl
  have hends := runLanes_snd ix s (List.ofFn lanes)
  have hturns := runSchedule_snd ix s schedule
  have hv := h.commands s (schedule.map Prod.snd)
  have hv' := h.commands s (List.ofFn lanes).flatten
  have hmem : ∀ c, c ∈ schedule.map Prod.snd ↔ ∃ i, c ∈ lanes i := fun c => by
    simp only [List.mem_map, Prod.exists, exists_eq_right, ← mem_laneOf_iff, ht _]
  have hmem' : ∀ c, c ∈ (List.ofFn lanes).flatten ↔ ∃ i, c ∈ lanes i := fun c => by
    simp [List.mem_ofFn]
  have halike : Alike (runSchedule ix s schedule).2.1 (runLanes ix s (List.ofFn lanes)).2.1 := by
    constructor
    case shape => rw [hturns, hends, shape_runCommands, shape_runCommands]
    case find =>
      intro id
      by_cases hid : ∃ i, ∃ c ∈ lanes i, c.id = id
      · obtain ⟨i, c, hc, rfl⟩ := hid
        rw [(runSchedule_alone h s hap ht i).2 c hc,
          hfinds (lanes i) (List.mem_ofFn.mpr ⟨i, rfl⟩) c hc]
      · have hne : ∀ i, ∀ c ∈ lanes i, id ≠ c.id := fun i c hc e => hid ⟨i, c, hc, e.symm⟩
        rw [hturns, hends, find?_runCommands_of_ne h, find?_runCommands_of_ne h]
        · exact fun c hc => let ⟨i, hi⟩ := (hmem' c).mp hc; hne i c hi
        · exact fun c hc => let ⟨i, hi⟩ := (hmem c).mp hc; hne i c hi
  rw [← hturns] at hv
  rw [← hends] at hv'
  exact ⟨fun i => (runSchedule_alone h s hap ht i).1, by rw [hanswers, List.map_ofFn]; rfl,
    halike.find, halike.count_eq hv hv', halike.bucket_perm hv hv', halike.maxChainLength_eq hv hv'⟩

/-- Two lanes whose ids all fall into one bucket. -/
def neighbours : Fin 2 → List Command :=
  ![[.insert ⟨0, 1, 64, none⟩, .find 1, .insert ⟨1, 3, 64, none⟩],
    [.insert ⟨2, 2, 64, none⟩, .delete 2, .insert ⟨3, 2, 64, none⟩]]

def neighboursTurns : List (Fin 2 × Command) :=
  [(0, .insert ⟨0, 1, 64, none⟩), (1, .insert ⟨2, 2, 64, none⟩), (0, .find 1), (1, .delete 2),
    (1, .insert ⟨3, 2, 64, none⟩), (0, .insert ⟨1, 3, 64, none⟩)]

/-- The chain that the neighbours share is ordered by the turns they take. -/
theorem runSchedule_neighbours :
    let start := empty (fun _ => 0) 1 (by decide)
    let (answers, turns, _) := runSchedule start default neighboursTurns
    let (_, afterwards, _) := runLanes start default (List.ofFn neighbours)
    start.Valid ∧ Apart neighbours ∧ TakeTurns neighbours neighboursTurns ∧
      laneOf 1 answers = [none, some ⟨2, 2, 64, none⟩, none] ∧
      (turns.bucket 0).map CacheObject.id = [3, 2, 1] ∧
      (afterwards.bucket 0).map CacheObject.id = [2, 3, 1] ∧
      (turns.bucket 0).Perm (afterwards.bucket 0) := by
  have hv := valid_empty (fun _ => 0) 1 (by decide)
  have hap : Apart neighbours := by
    unfold Apart Pairwise
    decide +kernel
  have ht : TakeTurns neighbours neighboursTurns := by
    unfold TakeTurns
    decide +kernel
  have hrun := runSchedule_eq_runLanes hv default hap ht
  exact ⟨hv, hap, ht, (hrun.1 1).trans (by decide +kernel), by decide +kernel, by decide +kernel,
    hrun.2.2.2.2.1 0⟩

end SegmentedCache.Index
