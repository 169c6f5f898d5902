import Mathlib.Data.List.Nodup
import Morf.Queue.Uploads

/-! Uploads next to each other and to the workers: what a file leaves in the object storage and in
Redis, and which replies of the enqueue script break the promise of the handlers. -/

namespace Morf.Queue

open Morf.Lib
open List Function Desk Store

def Store.hasRoom (σ : Store) (limit : Int) : Bool :=
  !(decide (0 < limit ∧ limit < (σ.jobQueue.length : Int) + 1))

theorem Store.apply_enqueueWithLimit (σ : Store) (job : ScanJob) (limit : Int) :
    σ.apply (.enqueueWithLimitScript job limit 1) =
      if σ.hasRoom limit then (true, σ.publish job) else (false, σ) := by
  simp only [apply, hasRoom, Bool.not_eq_true', decide_eq_false_iff_not]
  split <;> rfl

inductive Desk.Step (limit : Int) (σ : Store) : Desk → Bool → Store → Desk → Prop
  | probe : Step limit σ (.probing form f) false σ (.depthKnown limit form f r)
  | probeBulk : Step limit σ (.probingBulk form files) false σ (.bulkDepthKnown limit form files r)
  | put {u : Upload} : Step limit σ (.storing t u) false (σ.apply (.put u.storageKey)).2
      (.publishing t u)
  | publish : σ.hasRoom limit = true →
      Step limit σ (.publishing t u) false (σ.publish u.job) (t.settle u (.ok ()))
  | refused : Step limit σ (.publishing t u) false σ (.undoing t u err)
  | lose : σ.hasRoom limit = true →
      Step limit σ (.publishing t u) true (σ.publish u.job) (.undoing t u err)
  | undo {u : Upload} : Step limit σ (.undoing t u err) false (σ.apply (.delete u.storageKey)).2
      (t.settle u (.error (.queue err)))
  | pop : σ.jobQueue = j :: q → Step limit σ (.popping w) false { σ with
      jobQueue := q
      processing := Function.update σ.processing w (σ.processing w ++ [j]) } (.ended (.popped r))
  | popNone : Step limit σ (.popping w) false σ (.ended (.popped r))

def Store.admits (σ : Store) : Service Outcome → Bool
  | .call (.cmd (.remote (.enqueueWithLimitScript job limit count))) _ =>
    (σ.apply (.enqueueWithLimitScript job limit count)).1
  | _ => false

def Fate.isLate : Fate → Bool
  | .late _ => true
  | .plain _ => false

namespace Store

variable {σ : Store}

theorem serve_llen {r : Except String Nat} (h : σ.serve .llen e = some (r, σ')) :
    σ' = σ := by
  rcases e with (_ | _ | _ | _ | _) | _ <;> cases h <;> rfl

theorem serve_put {r : Except String Unit}
    (h : σ.serve (.cmd (.remote (.put key))) e = some (r, σ')) :
    r = .ok () ∧ σ' = (σ.apply (.put key)).2 := by
  rcases e with (_ | _ | _ | _ | _) | _ <;> cases h
  exact ⟨rfl, rfl⟩

theorem serve_delete {r : Except String Unit}
    (h : σ.serve (.cmd (.remote (.delete key))) e = some (r, σ')) :
    σ' = (σ.apply (.delete key)).2 := by
  rcases e with (_ | _ | _ | _ | _) | _ <;> cases h
  rfl

theorem serve_blmove {r : Except String (Option JobId)}
    (h : σ.serve (.cmd (.remote (.blmove w))) e = some (r, σ')) :
    σ' = σ ∨ ∃ j q, σ.jobQueue = j :: q ∧ σ' = { σ with
      jobQueue := q
      processing := Function.update σ.processing w (σ.processing w ++ [j]) } := by
  rcases e with (_ | _ | _ | _ | _) | _ <;> cases h
  · simp only [apply]
    cases hq : σ.jobQueue with
    | nil => exact .inl rfl
    | cons j q => exact .inr ⟨j, q, rfl, rfl⟩
  · exact .inl rfl

theorem serve_enqueue {r : Except String Bool}
    (h : σ.serve (.cmd (.remote (.enqueueWithLimitScript job limit 1))) e = some (r, σ')) :
    (e.isLate = false ∧ σ.hasRoom limit = true ∧ r = .ok true ∧ σ' = σ.publish job) ∨
    (e.isLate = true ∧ σ.hasRoom limit = true ∧ (∃ m, r = .error m) ∧ σ' = σ.publish job) ∨
    ((e.isLate = false ∨ σ.hasRoom limit = false) ∧ r ≠ .ok true ∧ σ' = σ) := by
  have happly := σ.apply_enqueueWithLimit job limit
  cases hroom : σ.hasRoom limit with
  | true =>
    rw [hroom, if_pos rfl] at happly
    rcases e with (_ | _ | _ | _ | _) | _ <;> cases h
    · exact .inl ⟨rfl, rfl, congrArg _ (congrArg Prod.fst happly), congrArg Prod.snd happly⟩
    · exact .inr (.inr ⟨.inl rfl, nofun, rfl⟩)
    · exact .inr (.inl ⟨rfl, rfl, ⟨_, rfl⟩, congrArg Prod.snd happly⟩)
  | false =>
    rw [hroom, if_neg nofun] at happly
    refine .inr (.inr ⟨.inr rfl, ?_⟩)
    rcases e with (_ | _ | _ | _ | _) | _ <;> cases h
    · exact ⟨by rw [happly]; nofun, congrArg Prod.snd happly⟩
    · exact ⟨nofun, rfl⟩
    · exact ⟨nofun, congrArg Prod.snd happly⟩

end Store

theorem Desk.step_of_serve {k : Answer q → Service Outcome} {r : Answer q}
    (hm : prog limit m = .call q k) (h : σ.serve q e = some (r, σ')) :
    ∃ lost, Step limit σ m lost σ' (next limit m q r) ∧
      (lost = true ↔ e.isLate = true ∧ σ.admits (prog limit m) = true) := by
  cases m with
  | ended o => cases hm
  | probing form f =>
    cases hm
    obtain rfl := serve_llen h
    exact ⟨false, .probe, by simp [prog, getQueueDepth, admits]⟩
  | probingBulk form files =>
    cases hm
    obtain rfl := serve_llen h
    exact ⟨false, .probeBulk, by simp [prog, getQueueDepth, admits]⟩
  | storing t u =>
    cases hm
    obtain ⟨rfl, rfl⟩ := serve_put h
    exact ⟨false, .put, iff_of_false nofun fun hl => by cases hl.2⟩
  | publishing t u =>
    cases hm
    have hadmits : σ.admits (prog limit (.publishing t u)) = σ.hasRoom limit := by
      show (σ.apply (.enqueueWithLimitScript u.job limit 1)).1 = _
      rw [σ.apply_enqueueWithLimit]
      cases σ.hasRoom limit <;> rfl
    rw [hadmits]
    obtain ⟨he, hroom, rfl, rfl⟩ | ⟨he, hroom, ⟨msg, rfl⟩, rfl⟩ | ⟨hno, hr, rfl⟩ :=
      serve_enqueue h
    · exact ⟨false, .publish hroom, by simp [he]⟩
    · exact ⟨true, .lose hroom, by simp [he, hroom]⟩
    · refine ⟨false, ?_, by rcases hno with h | h <;> simp [h]⟩
      rcases r with msg | _ | _
      · exact .refused
      · exact .refused
      · exact absurd rfl hr
  | undoing t u err =>
    cases hm
    obtain rfl := serve_delete h
    exact ⟨false, .undo, iff_of_false nofun fun hl => by cases hl.2⟩
  | popping w =>
    cases hm
    obtain ⟨o, ho⟩ : ∃ o, next limit (.popping w) (.cmd (.remote (.blmove w))) r =
        .ended (.popped o) := by
      rcases r with e | _ | j <;> exact ⟨_, rfl⟩
    refine ⟨false, ?_, iff_of_false nofun fun hl => by cases hl.2⟩
    rw [ho]
    obtain rfl | ⟨j, q, hq, rfl⟩ := serve_blmove h
    · exact .popNone
    · exact .pop hq

/-! What an upload has left in the two stores. -/

inductive Trace
  | none
  | stored
  | queued
  deriving DecidableEq

structure Store.Unknown (σ : Store) (j : JobId) : Prop where
  hash : σ.jobs j = none
  queue : j ∉ σ.jobQueue
  processing : ∀ w, j ∉ σ.processing w

def Store.Shows (σ : Store) (u : Upload) : Trace → Prop
  | .none => σ.Unknown u.id ∧ σ.objects u.storageKey = false
  | .stored => σ.Unknown u.id ∧ σ.objects u.storageKey = true
  | .queued => σ.objects u.storageKey = true

theorem Store.Unknown.frame {σ σ' : Store} (h : σ.Unknown j) (hjobs : σ'.jobs j = σ.jobs j)
    (hq : j ∈ σ'.jobQueue → j ∈ σ.jobQueue)
    (hp : ∀ w, j ∈ σ'.processing w → j ∈ σ.processing w ∨ j ∈ σ.jobQueue) : σ'.Unknown j where
  hash := hjobs.trans h.hash
  queue hj := h.queue (hq hj)
  processing w hj := (hp w hj).elim (h.processing w) h.queue

theorem Store.Shows.frame {σ σ' : Store} (h : σ.Shows u tr) (hjobs : σ'.jobs u.id = σ.jobs u.id)
    (hq : u.id ∈ σ'.jobQueue → u.id ∈ σ.jobQueue)
    (hp : ∀ w, u.id ∈ σ'.processing w → u.id ∈ σ.processing w ∨ u.id ∈ σ.jobQueue)
    (ho : σ'.objects u.storageKey = σ.objects u.storageKey) : σ'.Shows u tr := by
  cases tr with
  | none => exact ⟨h.1.frame hjobs hq hp, ho.trans h.2⟩
  | stored => exact ⟨h.1.frame hjobs hq hp, ho.trans h.2⟩
  | queued => exact ho.trans h

def Task.jobIDs : Task → List JobId
  | .single => []
  | .bulk _ _ b => b.jobIDs

def Task.rest : Task → List Upload
  | .single => []
  | .bulk form rest _ => rest.map (·.bulkUpload form)

namespace Desk

def accepted : Desk → List JobId
  | .storing t _ | .publishing t _ | .undoing t _ _ => t.jobIDs
  | .ended o => o.jobIDs
  | .probing _ _ | .probingBulk _ _ | .popping _ => []

def ahead : Desk → List Upload
  | .probing form f => [f.upload form]
  | .probingBulk form files => files.map (·.bulkUpload form)
  | .storing t u | .publishing t u | .undoing t u _ => u :: t.rest
  | .popping _ | .ended _ => []

def holds : Desk → Option JobId
  | .publishing _ u | .undoing _ u _ => some u.id
  | _ => none

def trace (m : Desk) (u : Upload) : Trace :=
  if u.id ∈ m.accepted then .queued else if m.holds = some u.id then .stored else .none

theorem trace_congr {m m' : Desk} (ha : u.id ∈ m'.accepted ↔ u.id ∈ m.accepted)
    (hh : m'.holds = some u.id ↔ m.holds = some u.id) : m'.trace u = m.trace u := by
  simp only [trace, ha, hh]

theorem trace_queued {m : Desk} (ha : u.id ∈ m.accepted) : m.trace u = .queued :=
  if_pos ha

theorem trace_stored {m : Desk} (ha : u.id ∉ m.accepted) (hh : m.holds = some u.id) :
    m.trace u = .stored := by
  rw [trace, if_neg ha, if_pos hh]

theorem trace_none {m : Desk} (ha : u.id ∉ m.accepted) (hh : m.holds ≠ some u.id) :
    m.trace u = .none := by
  rw [trace, if_neg ha, if_neg hh]

@[simp] theorem accepted_arrive (form : UploadForm) (fs : List UploadFile) (b : Batch) :
    (arrive form fs b).accepted = b.jobIDs := by
  induction fs generalizing b with
  | nil => rfl
  | cons f fs ih =>
    simp only [arrive]
    cases f.bulkProblem with
    | some msg => exact ih _
    | none => rfl

@[simp] theorem holds_arrive (form : UploadForm) (fs : List UploadFile) (b : Batch) :
    (arrive form fs b).holds = none := by
  induction fs generalizing b with
  | nil => rfl
  | cons f fs ih =>
    simp only [arrive]
    cases f.bulkProblem with
    | some msg => exact ih _
    | none => rfl

theorem ahead_arrive (form : UploadForm) (fs : List UploadFile) (b : Batch) :
    (arrive form fs b).ahead.Sublist (fs.map (·.bulkUpload form)) := by
  induction fs generalizing b with
  | nil => exact .slnil
  | cons f fs ih =>
    simp only [arrive]
    cases f.bulkProblem with
    | some msg => exact (ih _).cons _
    | none => exact .refl _

theorem jobIDs_note_error (b : Batch) (u : Upload) (e : IntakeError) :
    (b.note u (.error e)).jobIDs = b.jobIDs := by
  rcases e with m | (_ | _ | _) <;> rfl

theorem jobIDs_answer_error (u : Upload) (e : IntakeError) :
    (u.answer (.error e)).jobIDs = [] := by
  rcases e with m | (_ | _ | _) <;> rfl

@[simp] theorem accepted_settle_ok (t : Task) (u : Upload) :
    (t.settle u (.ok ())).accepted = t.jobIDs ++ [u.id] := by
  cases t with
  | single => rfl
  | bulk form rest b => exact accepted_arrive form rest _

@[simp] theorem accepted_settle_error (t : Task) (u : Upload) (e : IntakeError) :
    (t.settle u (.error e)).accepted = t.jobIDs := by
  cases t with
  | single => exact jobIDs_answer_error u e
  | bulk form rest b => exact (accepted_arrive form rest _).trans (jobIDs_note_error b u e)

@[simp] theorem holds_settle (t : Task) (u : Upload) (r : Except IntakeError Unit) :
    (t.settle u r).holds = none := by
  cases t with
  | single => rfl
  | bulk form rest b => exact holds_arrive form rest _

theorem ahead_settle (t : Task) (u : Upload) (r : Except IntakeError Unit) :
    (t.settle u r).ahead.Sublist t.rest := by
  cases t with
  | single => exact .slnil
  | bulk form rest b => exact ahead_arrive form rest _

structure Began (m : Desk) (us : List Upload) : Prop where
  accepted : m.accepted = []
  holds : m.holds = none
  ahead : m.ahead.Sublist us

theorem Began.trans {m : Desk} (h : m.Began us) (hs : us.Sublist us') :
    m.Began us' := ⟨h.accepted, h.holds, h.ahead.trans hs⟩

theorem Began.trace {m : Desk} (h : m.Began us) (u : Upload) : m.trace u = .none :=
  trace_none (by simp [h.accepted]) (by simp [h.holds])

theorem began_depthKnown (limit : Int) (form : UploadForm) (f : UploadFile)
    (r : Except String Nat) : (depthKnown limit form f r).Began [f.upload form] := by
  cases r with
  | error e => exact ⟨rfl, rfl, nil_sublist _⟩
  | ok depth =>
    simp only [depthKnown]
    split
    · exact ⟨rfl, rfl, nil_sublist _⟩
    · cases form.webhookProblem with
      | some msg => exact ⟨rfl, rfl, nil_sublist _⟩
      | none => exact ⟨rfl, rfl, .refl _⟩

theorem began_bulkDepthKnown (limit : Int) (form : UploadForm) (files : List UploadFile)
    (r : Except String Nat) :
    (bulkDepthKnown limit form files r).Began (files.map (·.bulkUpload form)) := by
  cases r with
  | error e => exact ⟨rfl, rfl, nil_sublist _⟩
  | ok depth =>
    simp only [bulkDepthKnown]
    split
    · exact ⟨rfl, rfl, nil_sublist _⟩
    · exact ⟨accepted_arrive .., holds_arrive .., ahead_arrive ..⟩

/-- The position of a handler with these uploads: what it has accepted and what is ahead come in
their order. -/
structure Of (us : List Upload) (m : Desk) : Prop where
  ids : (m.accepted ++ m.ahead.map Upload.id).Sublist (us.map Upload.id)
  ahead : m.ahead.Sublist us

theorem of_began {m : Desk} (h : m.Began us) : m.Of us where
  ids := by
    rw [h.accepted]
    exact h.ahead.map _
  ahead := h.ahead

theorem began_start (c : Client) : c.start.Began c.uploads := by
  cases c with
  | upload form f =>
    simp only [Client.start]
    cases f.problem with
    | some p => exact ⟨rfl, rfl, nil_sublist _⟩
    | none => exact ⟨rfl, rfl, .refl _⟩
  | bulkUpload form files =>
    simp only [Client.start]
    cases bulkProblem form files with
    | some msg => exact ⟨rfl, rfl, nil_sublist _⟩
    | none => exact ⟨rfl, rfl, .refl _⟩
  | worker w => exact ⟨rfl, rfl, .refl _⟩

theorem Of.head {m : Desk} (h : m.Of us) (hus : (us.map Upload.id).Nodup) (hm : m.ahead = u :: rest) :
    u ∈ us ∧ u.id ∉ m.accepted ++ rest.map Upload.id := by
  obtain ⟨hids, hahead⟩ := h
  rw [hm] at hids hahead
  exact ⟨hahead.subset mem_cons_self, (nodup_middle.mp (hids.nodup hus)).notMem⟩

theorem Step.of (h : Step limit σ m lost σ' m') (hm : m.Of us) : m'.Of us := by
  obtain ⟨hids, hahead⟩ := hm
  cases h with
  | probe => exact of_began ((began_depthKnown ..).trans hahead)
  | probeBulk => exact of_began ((began_bulkDepthKnown ..).trans hahead)
  | put => exact ⟨hids, hahead⟩
  | @publish t u =>
    have hrest := ahead_settle t u (.ok ())
    refine ⟨?_, (hrest.cons u).trans hahead⟩
    rw [accepted_settle_ok, append_assoc]
    exact ((Sublist.refl _).append ((hrest.map _).cons_cons _)).trans hids
  | refused => exact ⟨hids, hahead⟩
  | lose => exact ⟨hids, hahead⟩
  | @undo t err u =>
    have hrest := ahead_settle t u (.error (.queue err))
    refine ⟨?_, (hrest.cons u).trans hahead⟩
    rw [accepted_settle_error]
    exact ((Sublist.refl _).append ((hrest.map _).cons _)).trans hids
  | pop => exact ⟨nil_sublist _, nil_sublist _⟩
  | popNone => exact ⟨nil_sublist _, nil_sublist _⟩

end Desk

structure Distinct (cs : ι → Client) : Prop where
  ids : ∀ i, ((cs i).uploads.map Upload.id).Nodup
  same : ∀ {i j u v}, u ∈ (cs i).uploads → v ∈ (cs j).uploads →
    u.id = v.id ∨ u.storageKey = v.storageKey → i = j ∧ u = v

structure Sound (limit : Int) (cs : ι → Client) (σ : Store) (m : ι → Desk) : Prop where
  depth : (σ.jobQueue.length : Int) ≤ limit
  place : ∀ i, (m i).Of (cs i).uploads
  shows : ∀ i, ∀ u ∈ (cs i).uploads, σ.Shows u ((m i).trace u)

namespace Sound

variable {ι : Type} [DecidableEq ι] {cs : ι → Client}

theorem move (hs : Sound limit cs σ m) (hcs : Distinct cs) (hu : u ∈ (cs i).uploads)
    (hdepth : (σ'.jobQueue.length : Int) ≤ limit) (hplace : m'.Of (cs i).uploads)
    (hown : σ'.Shows u (m'.trace u))
    (htrace : ∀ v : Upload, v.id ≠ u.id → m'.trace v = (m i).trace v)
    (hframe : ∀ (v : Upload) tr, v.id ≠ u.id → v.storageKey ≠ u.storageKey → σ.Shows v tr →
      σ'.Shows v tr) : Sound limit cs σ' (Function.update m i m') := by
  have hother : ∀ {j v}, v ∈ (cs j).uploads → v.id ≠ u.id → σ'.Shows v ((m j).trace v) :=
    fun {j v} hv hid => hframe v _ hid
      (fun hk => hid (congrArg Upload.id (hcs.same hv hu (.inr hk)).2)) (hs.shows j v hv)
  refine ⟨hdepth, (forall_update_iff m fun j d => d.Of (cs j).uploads).mpr
    ⟨hplace, fun j _ => hs.place j⟩, (forall_update_iff m fun j d =>
      ∀ v ∈ (cs j).uploads, σ'.Shows v (d.trace v)).mpr ⟨fun v hv => ?_, fun j hj v hv => ?_⟩⟩
  · by_cases hid : v.id = u.id
    · obtain ⟨-, rfl⟩ := hcs.same hv hu (.inl hid)
      exact hown
    · rw [htrace v hid]
      exact hother hv hid
  · exact hother hv fun hid => hj (hcs.same hv hu (.inl hid)).1

theorem stay (hs : Sound limit cs σ m) (hdepth : (σ'.jobQueue.length : Int) ≤ limit)
    (hplace : m'.Of (cs i).uploads) (htrace : ∀ v, m'.trace v = (m i).trace v)
    (hframe : ∀ v tr, σ.Shows v tr → σ'.Shows v tr) :
    Sound limit cs σ' (Function.update m i m') := by
  refine ⟨hdepth, (forall_update_iff m fun j d => d.Of (cs j).uploads).mpr
    ⟨hplace, fun j _ => hs.place j⟩, (forall_update_iff m fun j d =>
      ∀ v ∈ (cs j).uploads, σ'.Shows v (d.trace v)).mpr ⟨fun v hv => ?_, fun j _ v hv => ?_⟩⟩
  · rw [htrace v]
    exact hframe v _ (hs.shows i v hv)
  · exact hframe v _ (hs.shows j v hv)

theorem step (hs : Sound limit cs σ m) (hcs : Distinct cs) (hlimit : 0 < limit)
    (h : (m i).Step limit σ false σ' m') : Sound limit cs σ' (Function.update m i m') := by
  have hplace : m'.Of (cs i).uploads := h.of (hs.place i)
  have hold := hs.place i
  have hshows := hs.shows i
  generalize hm : m i = d at h hold hshows
  cases h with
  | @probe form f r =>
    refine hs.stay hs.depth hplace (fun v => ?_) fun v tr hv => hv
    rw [hm, (began_depthKnown limit form f r).trace]
    rfl
  | @probeBulk form files r =>
    refine hs.stay hs.depth hplace (fun v => ?_) fun v tr hv => hv
    rw [hm, (began_bulkDepthKnown limit form files r).trace]
    rfl
  | @put t u =>
    obtain ⟨hu, hnew⟩ := hold.head (hcs.ids i) rfl
    have hnot : u.id ∉ t.jobIDs := mt (mem_append_left _) hnew
    have hnone : σ.Shows u .none := trace_none (m := .storing t u) hnot nofun ▸ hshows u hu
    refine hs.move hcs hu hs.depth hplace ?_ (fun v hv => ?_) fun v tr hid hkey hv => ?_
    · rw [trace_stored hnot rfl]
      exact ⟨hnone.1.frame rfl id fun w => .inl, by simp [apply]⟩
    · rw [hm]
      exact trace_congr Iff.rfl (by simp [holds, Ne.symm hv])
    · exact hv.frame rfl id (fun w => .inl) (by simp [apply, hkey])
  | @publish t u hroom =>
    obtain ⟨hu, hnew⟩ := hold.head (hcs.ids i) rfl
    have hnot : u.id ∉ t.jobIDs := mt (mem_append_left _) hnew
    have hstored : σ.Shows u .stored :=
      trace_stored (m := .publishing t u) hnot rfl ▸ hshows u hu
    refine hs.move hcs hu ?_ hplace ?_ (fun v hv => ?_) fun v tr hid hkey hv => ?_
    · simp only [hasRoom, hlimit, true_and, Bool.not_eq_true',
        decide_eq_false_iff_not] at hroom
      simp only [publish_jobQueue, length_append, length_singleton]
      omega
    · rw [trace_queued (by simp)]
      exact hstored.2
    · rw [hm]
      refine trace_congr ?_ ?_
      · rw [accepted_settle_ok]
        simp [accepted, hv]
      · rw [holds_settle]
        simp [holds, Ne.symm hv]
    · exact hv.frame (σ.hsetJob_of_ne _ hid) (by simp [Upload.job, hid]) (fun w => .inl) rfl
  | refused =>
    refine hs.stay hs.depth hplace (fun v => ?_) fun v tr hv => hv
    rw [hm]
    rfl
  | @undo t err u =>
    obtain ⟨hu, hnew⟩ := hold.head (hcs.ids i) rfl
    have hnot : u.id ∉ t.jobIDs := mt (mem_append_left _) hnew
    have hstored : σ.Shows u .stored :=
      trace_stored (m := .undoing t u err) hnot rfl ▸ hshows u hu
    refine hs.move hcs hu hs.depth hplace ?_ (fun v hv => ?_) fun v tr hid hkey hv => ?_
    · rw [trace_none (by simpa using hnot) (by simp)]
      exact ⟨hstored.1.frame rfl id fun w => .inl, by simp [apply]⟩
    · rw [hm]
      refine trace_congr (by rw [accepted_settle_error]; rfl) ?_
      rw [holds_settle]
      simp [holds, Ne.symm hv]
    · exact hv.frame rfl id (fun w => .inl) (by simp [apply, hkey])
  | @pop j q w r hq =>
    refine hs.stay ?_ hplace (fun v => ?_) fun v tr hv => ?_
    · have := hs.depth
      rw [hq] at this
      simp only [length_cons] at this ⊢
      omega
    · rw [hm]
      rfl
    · refine hv.frame rfl (fun hj => ?_) (fun w' hj => ?_) rfl
      · rw [hq]
        exact mem_cons_of_mem _ hj
      · by_cases hw : w' = w
        · subst hw
          simp only [update_self, mem_append, mem_singleton] at hj
          exact hj.imp_right fun hj => by simp [hq, hj]
        · simp only [update_of_ne hw] at hj
          exact .inl hj
  | popNone =>
    refine hs.stay hs.depth hplace (fun v => ?_) fun v tr hv => hv
    rw [hm]
    rfl

end Sound

/-- The queue is not longer than its limit, a job that is in Redis has its object, and a file whose
job a response does not name has left neither a job nor an object. -/
structure Consistent (limit : Int) (cs : ι → Client) (s : Crew Store Query Answer ι Outcome) :
    Prop where
  depth : (s.store.jobQueue.length : Int) ≤ limit
  stored : ∀ i, ∀ u ∈ (cs i).uploads, s.store.jobs u.id ≠ none →
    s.store.objects u.storageKey = true
  reported : ∀ i o, s.prog i = .ret o → ∀ u ∈ (cs i).uploads, u.id ∉ o.jobIDs →
    s.store.Unknown u.id ∧ s.store.objects u.storageKey = false

/-- No enqueue script that admits its job reports an error. -/
def Prompt (s : Crew Store Query Answer ι Outcome) (l : ι × Fate) : Prop :=
  l.2.isLate = true → s.store.admits (s.prog l.1) = false

theorem Desk.eq_ended_of_prog {d : Desk} (h : d.prog limit = .ret o) : d = .ended o := by
  cases d with
  | ended o' =>
    cases h
    rfl
  | _ => cases h

theorem Sound.consistent (hs : Sound limit cs σ m) :
    Consistent limit cs ((deskScript limit).crew σ m) where
  depth := hs.depth
  stored i u hu hjob := by
    have hshows := hs.shows i u hu
    cases htr : (m i).trace u with
    | none =>
      rw [htr] at hshows
      exact absurd hshows.1.hash hjob
    | stored =>
      rw [htr] at hshows
      exact hshows.2
    | queued =>
      rw [htr] at hshows
      exact hshows
  reported i o ho u hu hid := by
    have hended : m i = .ended o := eq_ended_of_prog ho
    have htr : (m i).trace u = .none := by
      rw [hended]
      exact trace_none hid nofun
    have hshows := hs.shows i u hu
    rwa [htr] at hshows

def Desk.promised : Desk → List JobId
  | .undoing t _ _ => t.jobIDs ++ t.rest.map Upload.id
  | d => d.accepted ++ d.ahead.map Upload.id

theorem Desk.promised_sublist (d : Desk) :
    d.promised.Sublist (d.accepted ++ d.ahead.map Upload.id) := by
  cases d with
  | undoing t u e => exact (Sublist.refl _).append (sublist_cons_self _ _)
  | _ => exact .refl _

namespace Desk.Step

variable {d : Desk}

theorem promised_sublist (h : d.Step limit σ lost σ' d') : d'.promised.Sublist d.promised := by
  cases h with
  | @probe form f r =>
    obtain ⟨ha, -, hahead⟩ := began_depthKnown limit form f r
    have hsub := (depthKnown limit form f r).promised_sublist
    rw [ha] at hsub
    exact hsub.trans (hahead.map _)
  | @probeBulk form files r =>
    obtain ⟨ha, -, hahead⟩ := began_bulkDepthKnown limit form files r
    have hsub := (bulkDepthKnown limit form files r).promised_sublist
    rw [ha] at hsub
    exact hsub.trans (hahead.map _)
  | put => exact .refl _
  | @publish t u =>
    have hsub := (t.settle u (.ok ())).promised_sublist
    rw [accepted_settle_ok, append_assoc] at hsub
    exact hsub.trans ((Sublist.refl _).append (((ahead_settle t u _).map _).cons_cons _))
  | @refused t u err => exact (undoing t u err).promised_sublist
  | @lose t u err => exact (undoing t u err).promised_sublist
  | @undo t err u =>
    have hsub := (t.settle u (.error (.queue err))).promised_sublist
    rw [accepted_settle_error] at hsub
    exact hsub.trans ((Sublist.refl _).append ((ahead_settle t u _).map _))
  | pop => exact .refl _
  | popNone => exact .refl _

theorem jobs_ne_none (h : d.Step limit σ lost σ' d') (hj : σ.jobs j ≠ none) : σ'.jobs j ≠ none := by
  have hpublish : ∀ u : Upload, (σ.publish u.job).jobs j ≠ none := by
    intro u
    by_cases hu : j = u.id
    · subst hu
      show (σ.hsetJob u.id _).jobs u.id ≠ none
      rw [hsetJob_self]
      nofun
    · show (σ.hsetJob u.id _).jobs j ≠ none
      rwa [hsetJob_of_ne _ _ hu]
  cases h with
  | publish | lose => exact hpublish _
  | _ => exact hj

theorem not_promised (h : d.Step limit σ true σ' d') (hd : d.Of us)
    (hus : (us.map Upload.id).Nodup) :
    ∃ u ∈ us, σ'.jobs u.id ≠ none ∧ u.id ∉ d'.promised := by
  cases h with
  | @lose t u err =>
    obtain ⟨hu, hnew⟩ := hd.head hus rfl
    refine ⟨u, hu, ?_, hnew⟩
    show (σ.hsetJob u.id _).jobs u.id ≠ none
    rw [hsetJob_self]
    nofun

end Desk.Step

def Orphaned (limit : Int) (i : ι) (j : JobId) (s : Crew Store Query Answer ι Outcome) : Prop :=
  ∃ σ m, s = (deskScript limit).crew σ m ∧ σ.jobs j ≠ none ∧ j ∉ (m i).promised

theorem Orphaned.step [DecidableEq ι] {i : ι} (hs : Orphaned limit i j s)
    (ht : s.step serve l = some t) : Orphaned limit i j t := by
  obtain ⟨σ, m, rfl, hjob, hnot⟩ := hs
  obtain ⟨i', e⟩ := l
  obtain ⟨q, k, r, σ', hp, he, rfl⟩ := Script.crew_step ht
  obtain ⟨lost, hstep, -⟩ := step_of_serve hp he
  refine ⟨σ', _, rfl, hstep.jobs_ne_none hjob, ?_⟩
  by_cases hi : i = i'
  · subst hi
    rw [update_self]
    exact fun hj => hnot (hstep.promised_sublist.subset hj)
  · rwa [update_of_ne hi]

theorem Orphaned.not_consistent (hs : Orphaned limit i u.id s) (hu : u ∈ (cs i).uploads)
    (ho : s.prog i = .ret o) : ¬ Consistent limit cs s := by
  intro h
  obtain ⟨σ, m, rfl, hjob, hnot⟩ := hs
  have hended : m i = .ended o := eq_ended_of_prog ho
  rw [hended] at hnot
  have hid : u.id ∉ o.jobIDs := fun hid => hnot (mem_append_left _ hid)
  exact hjob (h.reported i o ho u hu hid).1.hash

theorem prompt_of_done [DecidableEq ι] (hcs : Distinct cs) (run : List (ι × Fate))
    (hm : ∀ i, (m i).Of (cs i).uploads)
    (ht : (Crew.machine serve s₀).exec ((deskScript limit).crew σ m) run = some t)
    (hdone : ∀ i, ∃ o, t.prog i = .ret o) (hall : Consistent limit cs t) :
    (Crew.machine serve s₀).Along (fun s l _ => Prompt s l) ((deskScript limit).crew σ m)
      run := by
  induction run generalizing σ m with
  | nil => trivial
  | cons l run ih =>
    obtain ⟨i, e⟩ := l
    intro s' hs'
    obtain ⟨s'', hs'', hrest⟩ := Option.bind_eq_some_iff.mp ht
    obtain rfl : s'' = s' := Option.some.inj (hs''.symm.trans hs')
    obtain ⟨q, k, r, σ', hp, he, rfl⟩ := Script.crew_step hs'
    obtain ⟨lost, hstep, hlost⟩ := step_of_serve hp he
    refine ⟨fun hlate => ?_, ih ?_ hrest⟩
    · by_contra hadmits
      obtain rfl := hlost.mpr ⟨hlate, (Bool.not_eq_false _).mp hadmits⟩
      obtain ⟨u, hu, hjob, hnot⟩ := hstep.not_promised (hm i) (hcs.ids i)
      have horphaned : Orphaned limit i u.id t :=
        (Machine.reach_of_exec run hrest).invariant
          ⟨σ', _, rfl, hjob, by rwa [update_self]⟩ fun _ _ _ h _ => h.step
      obtain ⟨o, ho⟩ := hdone i
      exact horphaned.not_consistent hu ho hall
    · exact (forall_update_iff m fun j d => d.Of (cs j).uploads).mpr
        ⟨hstep.of (hm i), fun j _ => hm j⟩

def intake {ι : Type} [DecidableEq ι] (limit : Int) (cs : ι → Client) (σ₀ : Store) :
    Machine (Crew Store Query Answer ι Outcome) (ι × Fate) :=
  Crew.machine serve ⟨σ₀, fun i => (cs i).prog limit⟩

/-- As long as no script that admits a job reports an error, the store stays consistent, and a run
that ends in a consistent store had no such script. -/
theorem upload_all_or_nothing {ι : Type} [DecidableEq ι] {limit : Int} (hlimit : 0 < limit)
    {cs : ι → Client} (hcs : Distinct cs) {σ₀ : Store}
    (hnew : ∀ i, ∀ u ∈ (cs i).uploads, σ₀.Shows u .none)
    (hdepth : (σ₀.jobQueue.length : Int) ≤ limit) (run : List (ι × Fate)) :
    ((intake limit cs σ₀).Along (fun s l _ => Prompt s l) (intake limit cs σ₀).init run →
      (intake limit cs σ₀).Along (fun _ _ t => Consistent limit cs t) (intake limit cs σ₀).init
        run) ∧
    ∀ t, (intake limit cs σ₀).exec (intake limit cs σ₀).init run = some t →
      (∀ i, ∃ o, t.prog i = .ret o) → Consistent limit cs t →
        (intake limit cs σ₀).Along (fun s l _ => Prompt s l) (intake limit cs σ₀).init run := by
  have hstart : (intake limit cs σ₀).init = (deskScript limit).crew σ₀ fun i => (cs i).start := by
    show (⟨_, _⟩ : Crew ..) = ⟨_, _⟩
    congr 1
    exact funext fun i => (prog_start (cs i)).symm
  have hbegan : ∀ i, (cs i).start.Began (cs i).uploads := fun i => began_start (cs i)
  have hsound : Sound limit cs σ₀ fun i => (cs i).start :=
    ⟨hdepth, fun i => of_began (hbegan i), fun i u hu => (hbegan i).trace u ▸ hnew i u hu⟩
  rw [hstart]
  refine ⟨Machine.along_imp (I := fun s => ∃ σ m, s = (deskScript limit).crew σ m ∧
    Sound limit cs σ m) ?_ run ⟨σ₀, _, rfl, hsound⟩, fun t ht hdone hall =>
      prompt_of_done hcs run (fun i => of_began (hbegan i)) ht hdone hall⟩
  rintro _ ⟨i, e⟩ t ⟨σ, m, rfl, hs⟩ ht hprompt
  obtain ⟨q, k, r, σ', hp, he, rfl⟩ := Script.crew_step ht
  obtain ⟨lost, hstep, hlost⟩ := step_of_serve hp he
  cases lost with
  | true =>
    obtain ⟨hlate, hadmits⟩ := hlost.mp rfl
    exact absurd (hadmits.symm.trans (hprompt hlate)) nofun
  | false =>
    have hs' := hs.step hcs hlimit hstep
    exact ⟨hs'.consistent, σ', _, rfl, hs'⟩

def package : UploadFile := ⟨"app.apk", 1, "object", "job", 0⟩

def uploadAndPop : Bool → Client
  | true => .upload {} package
  | false => .worker "w"

theorem distinct_uploadAndPop : Distinct uploadAndPop where
  ids i := by cases i <;> simp [uploadAndPop, Client.uploads]
  same {i j u v} hu hv _ := by
    cases i <;> cases j <;> simp_all [uploadAndPop, Client.uploads]

/-- A file is uploaded and its job is popped. -/
theorem uploaded_and_popped :
    Distinct uploadAndPop ∧ (intake 1 uploadAndPop {}).Along
      (fun _ _ t => Consistent 1 uploadAndPop t) (intake 1 uploadAndPop {}).init
      [(true, .plain .ok), (true, .plain .ok), (true, .plain .ok), (false, .plain .ok)] := by
  refine ⟨distinct_uploadAndPop, (upload_all_or_nothing (by decide) distinct_uploadAndPop ?_
    (by decide) _).1 ?_⟩
  · exact fun i u _ => ⟨⟨rfl, by simp, fun w => by simp⟩, rfl⟩
  · exact fun s _ => ⟨nofun, fun s _ => ⟨nofun, fun s _ => ⟨nofun, fun s _ => ⟨nofun, trivial⟩⟩⟩⟩

/-- The script enqueues the job, and its reply is lost: the handler answers with an error and
deletes the object of a job that is on the queue. -/
theorem lost_reply_orphans_job :
    ∃ s, (intake 1 uploadAndPop {}).exec (intake 1 uploadAndPop {}).init
        [(true, .plain .ok), (true, .plain .ok), (true, .late "i/o timeout"), (true, .plain .ok)] =
          some s ∧
      s.prog true = .ret (.response ⟨500, [], ["Failed to queue job"]⟩) ∧
      s.store.jobQueue = ["job"] ∧ s.store.objects "object.apk" = false ∧
      ¬ Consistent 1 uploadAndPop s := by
  refine ⟨_, rfl, rfl, rfl, rfl, fun h => ?_⟩
  exact (h.reported true _ rfl (package.upload {}) mem_cons_self nofun).1.queue
    mem_cons_self

end Morf.Queue
