import Morf.Queue.Tracking

/-! Attempts: in a smooth run without cancellation a job is in one place at a time, is scanned
at most as often as the retry limit says, and comes to rest completed or on the dead-letter
list. -/

namespace Morf.Queue

open Morf.Lib
open List Function Pool

variable {v v' : Pool} {p : Delivery} {q : Request} {max : Nat}

theorem Located.issued (h : Located cfg v j (some x)) : j ∈ v.issued.map (·.id) := by
  by_contra hj
  cases (h.unknown hj).1

theorem Located.eq_of_pos (h : Located cfg v j pl) (hx : 0 < v.holds j x) : pl = some x := by
  rw [h.only x] at hx
  by_contra hne
  rw [if_neg hne] at hx
  cases hx

def near (x : Spot) : Option Spot → Bool
  | none => true
  | some y => y = .queue ∨ y = .dead ∨ y = x

theorem Located.handled (h : Located cfg v j pl)
    (hother : ∀ y, y ≠ .queue → y ≠ .dead → y ≠ x → v'.holds j y = v.holds j y)
    (hi : j ∈ v'.issued.map (·.id)) (hpl : near x pl = true) (hpl' : near x pl' = true)
    (hq : v'.store.jobQueue.count j = if pl' = some .queue then 1 else 0)
    (hd : v'.store.dlq.count j = if pl' = some .dead then 1 else 0)
    (hx : v'.holds j x = if pl' = some x then 1 else 0) (hf : Fits cfg v' j pl') :
    Located cfg v' j pl' where
  only y := by
    by_cases hyq : y = .queue
    · rw [hyq]
      exact hq
    by_cases hyd : y = .dead
    · rw [hyd]
      exact hd
    by_cases hyx : y = x
    · rw [hyx]
      exact hx
    have hne : ∀ {pl}, near x pl = true → pl ≠ some y := by
      rintro _ hn rfl
      rcases of_decide_eq_true hn with hy | hy | hy
      · exact hyq hy
      · exact hyd hy
      · exact hyx hy
    rw [hother y hyq hyd hyx, h.only y, if_neg (hne hpl), if_neg (hne hpl')]
  unknown hj := absurd hi hj
  fits := hf

theorem others_update_worker (hw : v'.worker = Function.update v.worker w p)
    (hc : v'.client = v.client) (y : Spot) (hq : y ≠ .queue) (hd : y ≠ .dead)
    (hy : y ≠ .worker w) : v'.holds j y = v.holds j y := by
  cases y with
  | queue => exact absurd rfl hq
  | dead => exact absurd rfl hd
  | worker x =>
    have hx : x ≠ w := fun h => hy (h ▸ rfl)
    simp [holds, hw, hx]
  | client => simp only [holds, hc]

theorem others_update_client (hw : v'.worker = v.worker)
    (hc : v'.client = Function.update v.client k q) (y : Spot) (hq : y ≠ .queue) (hd : y ≠ .dead)
    (hy : y ≠ .client k) : v'.holds j y = v.holds j y := by
  cases y with
  | queue => exact absurd rfl hq
  | dead => exact absurd rfl hd
  | worker => simp only [holds, hw]
  | client x =>
    have hx : x ≠ k := fun h => hy (h ▸ rfl)
    simp [holds, hc, hx]

theorem update_aside {A B : Type} [DecidableEq A] {f : A → B} {a : A} {b : B} {P : B → Bool}
    (ha : P (f a) = false) (hb : P b = false) (x : A) :
    Function.update f a b x = f x ∨ P (f x) = false ∧ P (Function.update f a b x) = false := by
  by_cases hx : x = a
  · subst hx
    rw [update_self]
    exact .inr ⟨ha, hb⟩
  · exact .inl (update_of_ne hx ..)

theorem Located.deliver (h : Located cfg v j pl) (hv : Named v) (he : v.store.Exec c r v'.store)
    (hd : Delivery.Step cfg w (v.worker w) c r p) (hs : c.served r = true)
    (hw : v'.worker = Function.update v.worker w p)
    (hc : v'.client = v.client) (hi : v'.issued = v.issued)
    (hh : v'.hist = .worker w (v.worker w) c r :: v.hist) : ∃ pl', Located cfg v' j pl' := by
  have hid : ∀ {i job}, (v.worker w).copy = some (i, job) → job.id = i :=
    fun h => (hv.copy h).1
  have hn : scans j v'.hist = scans j v.hist + (Action.worker w (v.worker w) c r).attempts j := by
    rw [hh]
    rfl
  have hself : v'.worker w = p := by rw [hw, update_self]
  cases hb : (v.worker w).bears j with
  | false =>
    rcases hd.aside he hid hb with ⟨hp, ht, ha⟩ | ⟨rfl, ha, l, hl, hσ⟩
    · refine ⟨pl, h.beside (he.beside ht) ?_ (fun x => .inl (by rw [hc]))
        (by rw [hi]; exact id) (by rw [hn, ha]; rfl)⟩
      rw [hw]
      exact update_aside (P := Delivery.bears j) hb hp
    · -- the worker pops the job
      obtain rfl := h.eq_of_pos (x := .queue) (by simp [holds, hl])
      have hq : v.store.jobQueue.count j = 1 := h.only .queue
      have hdlq : v.store.dlq.count j = 0 := h.only .dead
      refine ⟨some (.worker w), h.handled (others_update_worker hw hc) (by rw [hi]; exact h.issued)
        rfl (by simp [near]) ?_ (by simpa [hσ] using hdlq)
        (by simp [holds, hself, Delivery.bears]) ?_⟩
      · simpa [hσ, hl] using hq
      · simp only [Fits, hn, ha, hself, Nat.add_zero]
        have hf : v.store.Waiting cfg.maxRetries (scans j v.hist) j := h.fits
        show v'.store.Waiting _ _ _
        rw [hσ]
        exact hf
  | true =>
    obtain rfl := h.eq_of_pos (x := .worker w) (by simp [holds, hb])
    have hq : v.store.jobQueue.count j = 0 := h.only .queue
    have hdlq : v.store.dlq.count j = 0 := h.only .dead
    have go : ∀ pl', near (.worker w) pl' = true →
        v'.store.jobQueue.count j = (if pl' = some .queue then 1 else 0) →
        v'.store.dlq.count j = (if pl' = some .dead then 1 else 0) →
        (p.bears j).toNat = (if pl' = some (.worker w) then 1 else 0) →
        Fits cfg v' j pl' → ∃ pl', Located cfg v' j pl' := by
      intro pl' hpl' hq' hd' hb' hf'
      exact ⟨pl', h.handled (others_update_worker hw hc) (by rw [hi]; exact h.issued)
        (by simp [near]) hpl' hq' hd' (by simpa only [holds, hself] using hb') hf'⟩
    rcases hd.carries he hid hs hb h.fits hn with
      ⟨hp, hf, hcq, hcd⟩ | ⟨hp, ⟨hf, hcq, hcd⟩ | ⟨hst, hm, hcq, hcd⟩ | ⟨hst, hm, hcq, hcd⟩⟩
    · refine go (some (.worker w)) (by simp [near]) (by simp [hcq, hq]) (by simp [hcd, hdlq])
        (by simp [hp]) ?_
      simpa only [Fits, hself] using hf
    · exact go (some .queue) rfl (by simp [hcq, hq]) (by simp [hcd, hdlq]) (by simp [hp]) hf
    · exact go (some .dead) rfl (by simp [hcq, hq]) (by simp [hcd, hdlq]) (by simp [hp]) ⟨hst, hm⟩
    · exact go none rfl (by simp [hcq, hq]) (by simp [hcd, hdlq]) (by simp [hp]) (.inr ⟨hst, hm⟩)

theorem Located.serve (h : Located cfg v j pl) (hv : Named v) (hmax : 0 < cfg.maxRetries)
    (he : v.store.Exec c r v'.store) (hs : Request.Step (v.client k) c r q)
    (hg : undisturbed v (.client k (v.client k) c r) = true) (hok : c.served r = true)
    (hw : v'.worker = v.worker) (hc : v'.client = Function.update v.client k q)
    (hi : v'.issued = v.issued) (hh : v'.hist = .client k (v.client k) c r :: v.hist) :
    ∃ pl', Located cfg v' j pl' := by
  have hn : scans j v'.hist =
      if (Action.client k (v.client k) c r).revives j then 0 else scans j v.hist := by
    rw [hh]
    rfl
  have hself : v'.client k = q := by rw [hc, update_self]
  cases hb : (v.client k).bears j with
  | false =>
    obtain ⟨hrev, ⟨hq, ht⟩ | ⟨rfl, hm, hσ⟩⟩ := hs.aside he hv hg hb
    · refine ⟨pl, h.beside (he.beside ht) (fun x => .inl (by rw [hw])) ?_
        (by rw [hi]; exact id) (by rw [hn, hrev]; rfl)⟩
      rw [hc]
      exact update_aside (P := Request.bears j) hb hq
    · -- `RetryDLQJob` takes the job from the dead-letter list
      obtain rfl := h.eq_of_pos (x := .dead) (count_pos_iff.mpr hm)
      have hq : v.store.jobQueue.count j = 0 := h.only .queue
      have hdlq : v.store.dlq.count j = 1 := h.only .dead
      refine ⟨some (.client k), h.handled (others_update_client hw hc) (by rw [hi]; exact h.issued)
        rfl (by simp [near]) (by simpa [hσ] using hq) (by simp [hσ, hdlq])
        (by simp [holds, hself, Request.bears]) ?_⟩
      have hf : v.store.status j = some .failed ∧ scans j v.hist ≤ cfg.maxRetries := h.fits
      simp only [Fits, hn, hrev, hself]
      show v'.store.status j = _ ∧ _
      rw [hσ]
      exact hf
  | true =>
    obtain rfl := h.eq_of_pos (x := .client k) (by simp [holds, hb])
    have hq : v.store.jobQueue.count j = 0 := h.only .queue
    have hdlq : v.store.dlq.count j = 0 := h.only .dead
    have go : ∀ pl', near (.client k) pl' = true →
        v'.store.jobQueue.count j = (if pl' = some .queue then 1 else 0) →
        v'.store.dlq.count j = (if pl' = some .dead then 1 else 0) →
        (q.bears j).toNat = (if pl' = some (.client k) then 1 else 0) →
        Fits cfg v' j pl' → ∃ pl', Located cfg v' j pl' := by
      intro pl' hpl' hq' hd' hb' hf'
      exact ⟨pl', h.handled (others_update_client hw hc) (by rw [hi]; exact h.issued)
        (by simp [near]) hpl' hq' hd' (by simpa only [holds, hself] using hb') hf'⟩
    rcases hs.carries he hv hok hmax hb h.fits hn with
      ⟨hp, hf, hcq, hcd⟩ | ⟨hp, hcd, ⟨hf, hcq⟩ | ⟨hnone, hzero, hcq⟩⟩
    · refine go (some (.client k)) (by simp [near]) (by simp [hcq, hq]) (by simp [hcd, hdlq])
        (by simp [hp]) ?_
      simpa only [Fits, hself] using hf
    · exact go (some .queue) rfl (by simp [hcq, hq]) (by simp [hcd, hdlq]) (by simp [hp]) hf
    · exact go none rfl (by simp [hcq, hq]) (by simp [hcd, hdlq]) (by simp [hp])
        (.inl ⟨hnone, hzero⟩)

theorem served_of_undisturbed (h : undisturbed v (.client k q c r) = true) : c.served r = true := by
  unfold undisturbed at h
  split at h
  · cases h
  · rename_i heq
    cases heq
  · rename_i heq
    cases heq
  · exact h

theorem Delivery.bears_of_resting (h : p.resting = true) : p.bears j = false := by
  cases p with
  | idle | kept | left => rfl
  | _ => cases h

theorem Located.turned (h : Located cfg v j pl) (hp : (v.worker w).bears j = false)
    (hp' : p.bears j = false) (hσ : v'.store = v.store)
    (hw : v'.worker = Function.update v.worker w p) (hc : v'.client = v.client)
    (hi : v'.issued = v.issued) (hn : scans j v'.hist = scans j v.hist) : Located cfg v' j pl := by
  refine h.beside (hσ ▸ .refl _) ?_ (fun x => .inl (by rw [hc])) (by rw [hi]; exact id) hn
  rw [hw]
  exact update_aside (P := Delivery.bears j) hp hp'

theorem Located.submit (h : Located cfg v j pl) (hk : v.client k = .done)
    (hg : undisturbed v (.submit k q) = true) (hq : q.opening = true) :
    ∃ pl', Located cfg { v with
      client := Function.update v.client k q
      issued := q.publishes ++ v.issued
      hist := .submit k q :: v.hist } j pl' := by
  cases hb : q.bears j with
  | false =>
    refine ⟨pl, h.beside (.refl _) (fun x => .inl rfl) (update_aside (P := Request.bears j) (by rw [hk]; rfl) hb)
      (fun hj => ?_) rfl⟩
    rw [map_append]
    exact mem_append_right _ hj
  | true =>
    cases q with
    | uploading job | enqueuing job =>
      obtain rfl : job.id = j := of_decide_eq_true hb
      obtain ⟨hfresh, hst⟩ := of_decide_eq_true hg
      obtain ⟨rfl, hnone, hzero⟩ := h.unknown hfresh
      have hjq : v.store.jobQueue.count job.id = 0 := h.only .queue
      have hdlq : v.store.dlq.count job.id = 0 := h.only .dead
      refine ⟨some (.client k), h.handled (others_update_client rfl rfl) ?_ rfl (by simp [near])
        (by simpa using hjq) (by simpa using hdlq) (by simp [holds, Request.bears]) ?_⟩
      · simp [Request.publishes]
      · simp only [Fits, update_self]
        exact ⟨hnone, hst, hzero⟩
    | cancelling | retrying => cases hb
    | _ => cases hq

theorem Located.step (h : Located cfg v j pl) (hv : Steady v) (hmax : 0 < cfg.maxRetries)
    (hs : Pool.Step cfg v a v') (hg : undisturbed v a = true) : ∃ pl', Located cfg v' j pl' := by
  cases hs with
  | worker hl he hd => exact h.deliver hv.named he hd hg rfl rfl rfl rfl
  | client he hs =>
    exact h.serve hv.named hmax he hs hg (served_of_undisturbed hg) rfl rfl rfl rfl
  | reaper he hs =>
    rename_i c r σ n p
    rw [hv.reaping n] at hs
    refine ⟨pl, h.beside ?_ (fun _ => .inl rfl) (fun _ => .inl rfl) id rfl⟩
    cases hs with
    | lookup hl =>
      rw [he.lookup hl]
      exact .refl _
    | _ => exact he.beside (by simp [Cmd.target])
  | start hl => exact ⟨pl, h.turned (by rw [hv.named.unborn _ hl]; rfl) rfl rfl rfl rfl rfl rfl⟩
  | turn hl hr | stop hl hr =>
    exact ⟨pl, h.turned (Delivery.bears_of_resting hr) rfl rfl rfl rfl rfl rfl⟩
  | submit hk hq => exact h.submit hk hg hq
  | beat =>
    exact ⟨pl, h.beside ⟨rfl, rfl, rfl, .inl rfl⟩ (fun _ => .inl rfl) (fun _ => .inl rfl) id rfl⟩
  | expireLease =>
    rename_i i
    have he : v.store.Exec (.remote (.delLease i)) (.ok ()) (v.store.apply (.delLease i)).2 :=
      ⟨.ok, rfl⟩
    exact ⟨pl, h.beside (he.beside (by simp [Cmd.target])) (fun _ => .inl rfl) (fun _ => .inl rfl) id rfl⟩
  | sweep => exact ⟨pl, h.beside (.refl _) (fun _ => .inl rfl) (fun _ => .inl rfl) id rfl⟩
  | crash | crashReaper | crashClient => cases hg

theorem Located.init : Located cfg {} j none where
  only x := by cases x <;> rfl
  unknown _ := ⟨rfl, rfl, rfl⟩
  fits := .inl ⟨rfl, rfl⟩

theorem smooth_of_undisturbed (h : undisturbed v a = true) : smooth v a = true := by
  cases a with
  | client => exact served_of_undisturbed h
  | submit => rfl
  | _ => exact h

theorem Delivery.Fits.le (h : p.Fits max n σ w) (hp : p.bears j = true) : n ≤ max := by
  cases p with
  | popped | requeued =>
    obtain ⟨_, -, -, -, h⟩ := h
    exact Nat.le_of_lt h
  | read => exact Nat.le_of_lt h.2
  | claimed => exact Nat.le_of_lt h.2.2
  | leased => exact Nat.le_of_lt h.2.2.2
  | scanning | rechecking | succeeding | failing | completing => exact h.2.2.2
  | committed | buried => exact h.2
  | _ => cases hp

theorem Request.Fits.le (h : q.Fits max n σ) (hq : q.bears j = true) : n ≤ max := by
  cases q with
  | uploading | stored | enqueuing =>
    obtain ⟨-, -, rfl⟩ := h
    exact Nat.zero_le _
  | removed | resubmitting => exact h.2
  | _ => cases hq

theorem Located.scans_le (h : Located cfg v j pl) : scans j v.hist ≤ cfg.maxRetries := by
  have hf := h.fits
  rcases pl with _ | _ | _ | w | k
  · rcases hf with ⟨-, hz⟩ | ⟨-, hle⟩
    · rw [hz]
      exact Nat.zero_le _
    · exact hle
  · obtain ⟨_, -, -, -, hlt⟩ := hf
    exact Nat.le_of_lt hlt
  · exact hf.2
  · exact hf.le (by simpa [holds] using h.only (.worker w))
  · exact hf.le (by simpa [holds] using h.only (.client k))

def Scheduled (v : Pool) (j : JobId) : Prop :=
  j ∈ v.store.jobQueue ∨ (∃ w, (v.worker w).entry = some j) ∨ ∃ n, (v.client n).bears j = true

theorem Delivery.entry_of_bears (h : p.bears j = true) : p.entry = some j := by
  cases p <;> first | exact congrArg some (of_decide_eq_true h) | cases h

theorem Fleet.located (hmax : 0 < cfg.maxRetries)
    (h : (Fleet.machine cfg).Reach (Fleet.Under cfg fun v a => undisturbed v a = true) {} s)
    (j : JobId) : Steady s.pool ∧ ∃ pl, Located cfg s.pool j pl :=
  Fleet.invariant_of_reach (I := fun v => Steady v ∧ ∃ pl, Located cfg v j pl) Fleet.ok_init
    ⟨.init, none, .init⟩
    (fun _ _ _ hv hg hs =>
      ⟨hv.1.step hs (smooth_of_undisturbed hg), hv.2.elim fun _ hl => hl.step hv.1 hmax hs hg⟩) h

/-- A job is scanned at most `maxRetries` times before it is revived, and once it is no longer
scheduled, it is completed and on no list, or it has failed and is on the dead-letter list once
and on no other. -/
theorem retries_end {s : Fleet} (hmax : 0 < cfg.maxRetries)
    (h : (Fleet.machine cfg).Reach (Fleet.Under cfg fun v a => undisturbed v a = true) {} s)
    (j : JobId) :
    scans j s.pool.hist ≤ cfg.maxRetries ∧
      ((s.pool.store.jobs j).isSome → ¬ Scheduled s.pool j →
        j ∉ s.pool.store.jobQueue ∧ (∀ w, j ∉ s.pool.store.processing w) ∧
          (s.pool.store.status j = some .completed ∧ j ∉ s.pool.store.dlq ∨
            s.pool.store.status j = some .failed ∧ s.pool.store.dlq.count j = 1)) := by
  obtain ⟨hv, pl, hl⟩ := Fleet.located hmax h j
  refine ⟨hl.scans_le, fun hj hns => ?_⟩
  have hq : j ∉ s.pool.store.jobQueue := fun hm => hns (.inl hm)
  have hw : ∀ w, j ∉ s.pool.store.processing w := by
    intro w hm
    rw [hv.listed w, Option.mem_toList] at hm
    exact hns (.inr (.inl ⟨w, hm⟩))
  refine ⟨hq, hw, ?_⟩
  have hf := hl.fits
  rcases pl with _ | _ | _ | w | k
  · rcases hf with ⟨hnone, -⟩ | ⟨hst, -⟩
    · simp [hnone] at hj
    · exact .inl ⟨hst, count_eq_zero.mp (hl.only .dead)⟩
  · exact absurd (count_pos_iff.mp (Nat.lt_of_lt_of_eq Nat.one_pos (hl.only .queue).symm)) hq
  · exact .inr ⟨hf.1, hl.only .dead⟩
  · have hb : (s.pool.worker w).bears j = true := by simpa [holds] using hl.only (.worker w)
    exact absurd (.inr (.inl ⟨w, Delivery.entry_of_bears hb⟩)) hns
  · have hb : (s.pool.client k).bears j = true := by simpa [holds] using hl.only (.client k)
    exact absurd (.inr (.inr ⟨k, hb⟩)) hns

theorem not_scheduled_of_quiet {s : Fleet} (hq : s.Quiet) (hok : s.Ok cfg) (hv : Steady s.pool)
    (hj : j ∉ s.pool.store.jobQueue) : ¬ Scheduled s.pool j := by
  rintro (hm | ⟨w, hw⟩ | ⟨n, hn⟩)
  · exact hj hm
  · have hr := hq.resting hok w
    have ha := hv.acked w
    generalize s.pool.worker w = p at hw hr ha
    cases p with
    | idle | left => cases hw
    | kept i => exact ha i rfl
    | _ => cases hr
  · have hd : s.pool.client n = .done := Fleet.post_of_idle (hok.client n) (hq.2.2 n)
    rw [hd] at hn
    cases hn

/-- A job fails in a way that is worth a retry, and then for good. -/
theorem retried_job_buried :
    ∃ s, (Fleet.machine {}).Reach (Fleet.Under {} fun v a => undisturbed v a = true) {} s ∧
      scans "job" s.pool.hist = 2 ∧ (scans "job" s.pool.hist ≤ 3 ∧
      ((s.pool.store.jobs "job").isSome ∧ ¬ Scheduled s.pool "job") ∧
        "job" ∉ s.pool.store.jobQueue ∧ (∀ w, "job" ∉ s.pool.store.processing w) ∧
          (s.pool.store.status "job" = some .completed ∧ "job" ∉ s.pool.store.dlq ∨
            s.pool.store.status "job" = some .failed ∧ s.pool.store.dlq.count "job" = 1)) := by
  let ls := retryRun ++ [.work "w" .ok, .turn "w", .work "w" .ok] ++ claimRun "w" ++
    [.work "w" (.stage (.fail { nonRetryable := true, msg := "corrupt package" } false)),
     .work "w" .ok, .work "w" .ok, .work "w" (.time 1)] ++ replicate 10 (.work "w" .ok)
  obtain ⟨s, hr, he, hp⟩ := Fleet.exists_run {} undisturbed (fun s =>
    s.restful ls && scans "job" s.pool.hist == 2 && (s.pool.store.jobs "job").isSome &&
      decide ("job" ∉ s.pool.store.jobQueue)) ls (by decide +kernel)
  simp only [Bool.and_eq_true, beq_iff_eq, decide_eq_true_eq] at hp
  obtain ⟨⟨⟨hrest, hscans⟩, hj⟩, hjq⟩ := hp
  have hmax : 0 < ({} : Config).maxRetries := by decide
  have hns := not_scheduled_of_quiet (Fleet.quiet_of_restful ls he hrest)
    (Fleet.ok_of_reach Fleet.ok_init hr) (Fleet.located hmax hr "job").1 hjq
  obtain ⟨hle, hend⟩ := retries_end hmax hr "job"
  exact ⟨s, hr, hscans, hle, ⟨hj, hns⟩, hend hj hns⟩

end Morf.Queue
