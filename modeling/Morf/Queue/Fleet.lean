import Morf.Queue.Delivery
import Morf.Queue.Reaper
import Morf.Queue.Requests

/-! The abstract pool: workers, sweeps and requests reduced to their positions in their
protocols, over the shared store.  Every invariant of the pipeline is proved here, one
action at a time; `Fleet` shows that the programs refine it. -/

namespace Morf.Queue

open Morf.Lib Function

inductive Life
  | unborn
  | running
  | stopped
  deriving DecidableEq

/-- What can happen in the pool.  An action of a worker, a sweep or a request is one
command with its reply, and carries the position from which it was issued. -/
inductive Action
  | worker (w : WorkerId) (p : Delivery) (c : Cmd) (r : Reply c)
  | reaper (n : Nat) (p : Sweep) (c : Cmd) (r : Reply c)
  | client (n : Nat) (p : Request) (c : Cmd) (r : Reply c)
  | start (w : WorkerId)
  | turn (w : WorkerId)
  | beat (w : WorkerId) (t : Time)
  | stop (w : WorkerId)
  | crash (w : WorkerId)
  | sweep (n : Nat)
  | crashReaper (n : Nat)
  | submit (n : Nat) (p : Request)
  | crashClient (n : Nat)
  | expireLease (j : JobId)

/-- `issued` lists the jobs that clients have asked to publish, and `hist` every action
so far, the latest first. -/
structure Pool where
  store : Store := {}
  worker : WorkerId → Delivery := fun _ => .idle
  reaper : Nat → Sweep := fun _ => .reaping
  client : Nat → Request := fun _ => .done
  life : WorkerId → Life := fun _ => .unborn
  issued : List ScanJob := []
  hist : List Action := []

def Request.publishes : Request → List ScanJob
  | .uploading job | .enqueuing job => [job]
  | _ => []

def Request.opening : Request → Bool
  | .uploading job => job.status = .queued
  | .enqueuing _ | .cancelling _ | .retrying _ => true
  | _ => false

def Delivery.gone : Delivery → Bool
  | .left => true
  | _ => false

inductive Pool.Step (cfg : Config) (v : Pool) : Action → Pool → Prop
  | worker : v.life w = .running → v.store.Exec c r σ →
      Delivery.Step cfg w (v.worker w) c r p →
      Step cfg v (.worker w (v.worker w) c r) { v with
        store := σ
        worker := update v.worker w p
        life := if p.gone then update v.life w .stopped else v.life
        hist := .worker w (v.worker w) c r :: v.hist }
  | reaper : v.store.Exec c r σ → Sweep.Step (v.reaper n) c r p →
      Step cfg v (.reaper n (v.reaper n) c r) { v with
        store := σ
        reaper := update v.reaper n p
        hist := .reaper n (v.reaper n) c r :: v.hist }
  | client : v.store.Exec c r σ → Request.Step (v.client n) c r p →
      Step cfg v (.client n (v.client n) c r) { v with
        store := σ
        client := update v.client n p
        hist := .client n (v.client n) c r :: v.hist }
  | start : v.life w = .unborn → w ≠ "" →
      Step cfg v (.start w) { v with
        worker := update v.worker w .booting
        life := update v.life w .running
        hist := .start w :: v.hist }
  | turn : v.life w = .running → (v.worker w).resting = true →
      Step cfg v (.turn w) { v with
        worker := update v.worker w .idle
        hist := .turn w :: v.hist }
  | beat : v.life w = .running →
      Step cfg v (.beat w t) { v with
        store := (v.store.apply (.hsetHeartbeat w t)).2
        hist := .beat w t :: v.hist }
  | stop : v.life w = .running → (v.worker w).resting = true →
      Step cfg v (.stop w) { v with
        worker := update v.worker w .leaving
        hist := .stop w :: v.hist }
  | crash : v.life w = .running →
      Step cfg v (.crash w) { v with
        worker := update v.worker w .idle
        life := update v.life w .stopped
        hist := .crash w :: v.hist }
  | sweep : v.reaper n = .reaping → Step cfg v (.sweep n) { v with hist := .sweep n :: v.hist }
  | crashReaper :
      Step cfg v (.crashReaper n) { v with
        reaper := update v.reaper n .reaping
        hist := .crashReaper n :: v.hist }
  | submit : v.client n = .done → p.opening = true →
      Step cfg v (.submit n p) { v with
        client := update v.client n p
        issued := p.publishes ++ v.issued
        hist := .submit n p :: v.hist }
  | crashClient :
      Step cfg v (.crashClient n) { v with
        client := update v.client n .done
        hist := .crashClient n :: v.hist }
  | expireLease :
      Step cfg v (.expireLease j) { v with
        store := (v.store.apply (.delLease j)).2
        hist := .expireLease j :: v.hist }

/-! The running fleet: any number of workers, reapers and HTTP requests, each executing
its program one command at a time in an arbitrary interleaving. -/

open Option

/-- The programs in progress, with the pool they work on.  The positions in the pool are
ghosts: no program depends on them. -/
structure Fleet where
  pool : Pool := {}
  worker : WorkerId → Op Unit := fun _ => .ret ()
  reaper : Nat → Op Unit := fun _ => .ret ()
  client : Nat → Op Unit := fun _ => .ret ()

/-- The choices of the scheduler and of the environment.  `work`, `reap` and `serve` run
one command; `start`, `turn` and `stop` are the branches of the loop in `Start`. -/
inductive Label
  | work (w : WorkerId) (e : Env)
  | reap (n : Nat) (e : Env)
  | serve (n : Nat) (e : Env)
  | start (w : WorkerId)
  | turn (w : WorkerId)
  | beat (w : WorkerId) (t : Time)
  | stop (w : WorkerId)
  | crash (w : WorkerId)
  | sweep (n pages : Nat)
  | crashReaper (n : Nat)
  | upload (n : Nat) (u : Upload) (limit : Int)
  | enqueue (n : Nat) (job : ScanJob)
  | enqueueWithLimit (n : Nat) (job : ScanJob) (limit count : Int)
  | cancel (n : Nat) (j : JobId)
  | retryDLQ (n : Nat) (j : JobId)
  | crashClient (n : Nat)
  | expireLease (j : JobId)

def idle : Op Unit → Bool
  | .ret _ => true
  | .call _ _ => false

def void {α : Type} (p : Op α) : Op Unit := do
  let _ ← p

namespace Fleet

variable (cfg : Config)

def command (σ : Store) (e : Env) : Op Unit → Option (((c : Cmd) × Reply c) × Store × Op Unit)
  | .ret _ => none
  | .call c k => (σ.exec c e).map fun (r, σ') => (⟨c, r⟩, σ', k r)

def request (s : Fleet) (n : Nat) (p : Request) (prog : Op Unit) : Option (Action × Fleet) :=
  if idle (s.client n) then
    some (.submit n p, { s with
      client := update s.client n prog
      pool := { s.pool with
        client := update s.pool.client n p
        issued := p.publishes ++ s.pool.issued
        hist := .submit n p :: s.pool.hist } })
  else none

/-- One step, with the action it shows to the pool. -/
def next (s : Fleet) : Label → Option (Action × Fleet)
  | .work w e =>
    if s.pool.life w = .running then
      (command s.pool.store e (s.worker w)).map fun (⟨c, r⟩, σ, k) =>
        let p := (deliveryNext cfg w (s.pool.worker w) c r).getD (s.pool.worker w)
        let a := Action.worker w (s.pool.worker w) c r
        (a, { s with
          worker := update s.worker w k
          pool := { s.pool with
            store := σ
            worker := update s.pool.worker w p
            life := if p.gone then update s.pool.life w .stopped else s.pool.life
            hist := a :: s.pool.hist } })
    else none
  | .reap n e =>
    (command s.pool.store e (s.reaper n)).map fun (⟨c, r⟩, σ, k) =>
      let p := (sweepNext (s.pool.reaper n) c r).getD (s.pool.reaper n)
      let a := Action.reaper n (s.pool.reaper n) c r
      (a, { s with
        reaper := update s.reaper n k
        pool := { s.pool with
          store := σ
          reaper := update s.pool.reaper n p
          hist := a :: s.pool.hist } })
  | .serve n e =>
    (command s.pool.store e (s.client n)).map fun (⟨c, r⟩, σ, k) =>
      let p := (requestNext (s.pool.client n) c r).getD (s.pool.client n)
      let a := Action.client n (s.pool.client n) c r
      (a, { s with
        client := update s.client n k
        pool := { s.pool with
          store := σ
          client := update s.pool.client n p
          hist := a :: s.pool.hist } })
  -- the id of a worker starts with `worker-`
  | .start w =>
    if s.pool.life w = .unborn ∧ w ≠ "" then
      some (.start w, { s with
        worker := update s.worker w (void (registerWorker w))
        pool := { s.pool with
          worker := update s.pool.worker w .booting
          life := update s.pool.life w .running
          hist := .start w :: s.pool.hist } })
    else none
  | .turn w =>
    if s.pool.life w = .running ∧ idle (s.worker w) then
      some (.turn w, { s with
        worker := update s.worker w (popAndProcess cfg w)
        pool := { s.pool with
          worker := update s.pool.worker w .idle
          hist := .turn w :: s.pool.hist } })
    else none
  -- both heartbeat tickers, of the loop and of the job in progress
  | .beat w t =>
    if s.pool.life w = .running then
      some (.beat w t, { s with
        pool := { s.pool with
          store := (s.pool.store.apply (.hsetHeartbeat w t)).2
          hist := .beat w t :: s.pool.hist } })
    else none
  | .stop w =>
    if s.pool.life w = .running ∧ idle (s.worker w) then
      some (.stop w, { s with
        worker := update s.worker w (void (unregisterWorker w))
        pool := { s.pool with
          worker := update s.pool.worker w .leaving
          hist := .stop w :: s.pool.hist } })
    else none
  | .crash w =>
    if s.pool.life w = .running then
      some (.crash w, { s with
        worker := update s.worker w (.ret ())
        pool := { s.pool with
          worker := update s.pool.worker w .idle
          life := update s.pool.life w .stopped
          hist := .crash w :: s.pool.hist } })
    else none
  | .sweep n pages =>
    if idle (s.reaper n) then
      some (.sweep n, { s with
        reaper := update s.reaper n (reapOnce cfg.staleAfter pages 0)
        pool := { s.pool with hist := .sweep n :: s.pool.hist } })
    else none
  | .crashReaper n =>
    some (.crashReaper n, { s with
      reaper := update s.reaper n (.ret ())
      pool := { s.pool with
        reaper := update s.pool.reaper n .reaping
        hist := .crashReaper n :: s.pool.hist } })
  | .upload n u limit => s.request n (.uploading u.job) (void (Queue.upload u limit))
  | .enqueue n job => s.request n (.enqueuing job) (void (enqueueJobAtomic job))
  | .enqueueWithLimit n job limit count =>
    s.request n (.enqueuing job) (void (enqueueJobAtomicWithLimit job limit count))
  | .cancel n j => s.request n (.cancelling j) (void (cancelJob j))
  | .retryDLQ n j => s.request n (.retrying j) (void (retryDLQJob j))
  | .crashClient n =>
    some (.crashClient n, { s with
      client := update s.client n (.ret ())
      pool := { s.pool with
        client := update s.pool.client n .done
        hist := .crashClient n :: s.pool.hist } })
  | .expireLease j =>
    some (.expireLease j, { s with
      pool := { s.pool with
        store := (s.pool.store.apply (.delLease j)).2
        hist := .expireLease j :: s.pool.hist } })

def machine : Machine Fleet Label where
  init := {}
  step s l := (s.next cfg l).map Prod.snd

variable {cfg}

/-- Every program in progress follows its protocol from the position recorded for it. -/
structure Ok (cfg : Config) (s : Fleet) : Prop where
  worker : ∀ w, (s.worker w).Obeys (deliveryNext cfg w) (fun m _ => m.resting = true)
    (s.pool.worker w)
  reaper : ∀ n, (s.reaper n).Obeys sweepNext (fun m _ => m = .reaping) (s.pool.reaper n)
  client : ∀ n, (s.client n).Obeys requestNext (fun m _ => m = .done) (s.pool.client n)

theorem ok_init : Ok cfg {} := ⟨fun _ => rfl, fun _ => rfl, fun _ => rfl⟩

theorem obeys_update {I : Type} [DecidableEq I] {P : I → Protocol Cmd Reply M}
    {post : M → Unit → Prop} {progs : I → Op Unit} {pos : I → M} {i : I} {m : M}
    (h : ∀ i, (progs i).Obeys (P i) post (pos i)) (hi : k.Obeys (P i) post m) :
    ∀ i', (update progs i k i').Obeys (P i') post (update pos i m i') := by
  intro i'
  by_cases hi' : i' = i
  · subst hi'
    simpa using hi
  · simpa [hi'] using h i'

theorem void_obeys {P : Protocol Cmd Reply M} {post : M → Prop} {p : Op α} {m : M}
    (h : p.Obeys P (fun m _ => post m) m) : (void p).Obeys P (fun m _ => post m) m :=
  .bind (h.mono fun _ _ hm => hm)

theorem post_of_idle {P : Protocol Cmd Reply M} {post : M → Unit → Prop} {m : M}
    (h : p.Obeys P post m) (hp : idle p = true) : post m () := by
  cases p with
  | ret => exact h
  | call => cases hp

theorem command_spec {P : Protocol Cmd Reply M} {post : M → Unit → Prop} {m : M} {r : Reply c}
    (h : p.Obeys P post m) (hc : command σ e p = some (⟨c, r⟩, σ', k)) :
    σ.Exec c r σ' ∧ ∃ m', P m c r = some m' ∧ k.Obeys P post m' := by
  cases p with
  | ret => cases hc
  | call c' k' =>
    obtain ⟨⟨r', σ''⟩, he, hc⟩ := map_eq_some_iff.mp hc
    cases hc
    exact ⟨⟨e, he⟩, h r⟩

theorem request_step {s : Fleet} (hok : s.Ok cfg) (hp : p.opening = true)
    (hprog : prog.Obeys requestNext (fun m _ => m = .done) p)
    (h : s.request n p prog = some (a, s')) : Pool.Step cfg s.pool a s'.pool ∧ s'.Ok cfg := by
  unfold request at h
  split at h
  case isTrue hi =>
    cases h
    exact ⟨.submit (post_of_idle (hok.client n) hi) hp,
      hok.worker, hok.reaper, obeys_update hok.client hprog⟩
  case isFalse => cases h

/-- The programs refine the pool. -/
theorem next_step {s : Fleet} (hok : s.Ok cfg) (h : s.next cfg l = some (a, s')) :
    Pool.Step cfg s.pool a s'.pool ∧ s'.Ok cfg := by
  cases l with
  | work w e =>
    simp only [next] at h
    split at h
    case isTrue hl =>
      obtain ⟨⟨⟨c, r⟩, σ, k⟩, hc, h⟩ := map_eq_some_iff.mp h
      obtain ⟨he, p, hp, hk⟩ := command_spec (hok.worker w) hc
      simp only [hp, getD_some] at h
      cases h
      exact ⟨.worker hl he (deliveryNext_step hp),
        obeys_update hok.worker hk, hok.reaper, hok.client⟩
    case isFalse => cases h
  | reap n e =>
    obtain ⟨⟨⟨c, r⟩, σ, k⟩, hc, h⟩ := map_eq_some_iff.mp h
    obtain ⟨he, p, hp, hk⟩ := command_spec (hok.reaper n) hc
    simp only [hp, getD_some] at h
    cases h
    exact ⟨.reaper he (sweepNext_step hp), hok.worker, obeys_update hok.reaper hk, hok.client⟩
  | serve n e =>
    obtain ⟨⟨⟨c, r⟩, σ, k⟩, hc, h⟩ := map_eq_some_iff.mp h
    obtain ⟨he, p, hp, hk⟩ := command_spec (hok.client n) hc
    simp only [hp, getD_some] at h
    cases h
    exact ⟨.client he (requestNext_step hp), hok.worker, hok.reaper, obeys_update hok.client hk⟩
  | start w =>
    simp only [next] at h
    split at h
    case isTrue hl =>
      cases h
      exact ⟨.start hl.1 hl.2, obeys_update hok.worker (void_obeys registerWorker_obeys),
        hok.reaper, hok.client⟩
    case isFalse => cases h
  | turn w =>
    simp only [next] at h
    split at h
    case isTrue hl =>
      cases h
      exact ⟨.turn hl.1 (post_of_idle (hok.worker w) hl.2),
        obeys_update hok.worker popAndProcess_obeys, hok.reaper, hok.client⟩
    case isFalse => cases h
  | beat w t =>
    simp only [next] at h
    split at h
    case isTrue hl =>
      cases h
      exact ⟨.beat hl, hok.worker, hok.reaper, hok.client⟩
    case isFalse => cases h
  | stop w =>
    simp only [next] at h
    split at h
    case isTrue hl =>
      cases h
      exact ⟨.stop hl.1 (post_of_idle (hok.worker w) hl.2),
        obeys_update hok.worker (void_obeys unregisterWorker_obeys), hok.reaper, hok.client⟩
    case isFalse => cases h
  | crash w =>
    simp only [next] at h
    split at h
    case isTrue hl =>
      cases h
      exact ⟨.crash hl, obeys_update hok.worker rfl, hok.reaper, hok.client⟩
    case isFalse => cases h
  | sweep n pages =>
    simp only [next] at h
    split at h
    case isTrue hi =>
      cases h
      have hn : s.pool.reaper n = .reaping := post_of_idle (hok.reaper n) hi
      have hr : ∀ i, (update s.reaper n (reapOnce cfg.staleAfter pages 0) i).Obeys
          sweepNext (fun m _ => m = .reaping) (update s.pool.reaper n .reaping i) :=
        obeys_update hok.reaper (reapOnce_obeys pages 0)
      have hu : update s.pool.reaper n .reaping = s.pool.reaper := by
        rw [← hn, update_eq_self]
      rw [hu] at hr
      exact ⟨.sweep hn, hok.worker, hr, hok.client⟩
    case isFalse => cases h
  | crashReaper n =>
    cases h
    exact ⟨.crashReaper, hok.worker, obeys_update hok.reaper rfl, hok.client⟩
  | upload n u limit => exact request_step hok rfl (void_obeys (upload_obeys u limit)) h
  | enqueue n job => exact request_step hok rfl (void_obeys enqueueJobAtomic_obeys) h
  | enqueueWithLimit n job limit count =>
    exact request_step hok rfl (void_obeys (enqueueJobAtomicWithLimit_obeys limit count)) h
  | cancel n j => exact request_step hok rfl (void_obeys cancelJob_obeys) h
  | retryDLQ n j => exact request_step hok rfl (void_obeys retryDLQJob_obeys) h
  | crashClient n =>
    cases h
    exact ⟨.crashClient, hok.worker, hok.reaper, obeys_update hok.client rfl⟩
  | expireLease j =>
    cases h
    exact ⟨.expireLease, hok.worker, hok.reaper, hok.client⟩

def Under (cfg : Config) (good : Pool → Action → Prop) (s : Fleet) (l : Label) : Prop :=
  ∀ a s', s.next cfg l = some (a, s') → good s.pool a

theorem machine_step (h : (machine cfg).step s l = some s') : ∃ a, s.next cfg l = some (a, s') := by
  obtain ⟨⟨a, t⟩, ht, rfl⟩ := map_eq_some_iff.mp h
  exact ⟨a, ht⟩

theorem ok_of_reach (hs : s.Ok cfg) (h : (machine cfg).Reach ok s t) : t.Ok cfg := by
  refine h.invariant hs fun u l u' hu _ hstep => ?_
  obtain ⟨a, ha⟩ := machine_step hstep
  exact (next_step hu ha).2

/-- An invariant of the pool, kept by every action that meets `good`, holds along every
run of the system whose steps all do. -/
theorem invariant_of_reach {I : Pool → Prop} (hs : s.Ok cfg) (h0 : I s.pool)
    (hstep : ∀ v a v', I v → good v a → Pool.Step cfg v a v' → I v')
    (h : (machine cfg).Reach (Under cfg good) s t) : I t.pool := by
  have key : t.Ok cfg ∧ I t.pool := by
    refine h.invariant (I := fun u => u.Ok cfg ∧ I u.pool) ⟨hs, h0⟩ ?_
    rintro u l u' ⟨hu, hi⟩ hgood hl
    obtain ⟨a, ha⟩ := machine_step hl
    obtain ⟨hp, hu'⟩ := next_step hu ha
    exact ⟨hu', hstep _ _ _ hi (hgood a u' ha) hp⟩
  exact key.2

def Quiet (s : Fleet) : Prop :=
  (∀ w, idle (s.worker w) = true) ∧ (∀ n, idle (s.reaper n) = true) ∧
    ∀ n, idle (s.client n) = true

theorem Quiet.resting {s : Fleet} (hq : s.Quiet) (hok : s.Ok cfg) (w : WorkerId) :
    (s.pool.worker w).resting = true := post_of_idle (hok.worker w) (hq.1 w)

theorem Quiet.reaping {s : Fleet} (hq : s.Quiet) (hok : s.Ok cfg) (n : Nat) :
    s.pool.reaper n = .reaping := post_of_idle (hok.reaper n) (hq.2.1 n)

end Fleet

end Morf.Queue
