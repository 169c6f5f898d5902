import Morf.Detect.Findings
import Morf.Lib.Memo

/-! `verify/`: the status of each finding, asked of a provider's verifier behind one cache for
all of them. -/

namespace Morf.Verify

open Morf.Lib Morf.Detect
open List Option Text

inductive Status where
  | active
  | inactive
  | unknown
  deriving DecidableEq

/-- `verify` answers with `none` for a text that is no status. `verifyPair` is the method of the
AWS verifier; the other ones have none. `shares` says whether there is a method `shared`. -/
structure Verifier where
  verify : Text → Except String (Option Status)
  verifyPair : Option (Text → Text → Except String Status) := none
  shares : Bool := true

/-- `substring` is the field `match` of the source. -/
structure RegistryEntry where
  substring : Text
  verifier : Verifier

def lookup (registry : List RegistryEntry) (secretType : String) : Option Verifier :=
  let st := (trimSpace secretType.toList).map toLower
  if st = [] then none
  else (registry.find? fun e => Text.contains e.substring st).map RegistryEntry.verifier

inductive Provider where
  | github | gitlab | slack | stripe | google | twilio | sendgrid | npm | cloudflare | mailgun
  | digitalOcean | openai | anthropic | datadog | pagerduty | discordBot | telegramBot | mapbox
  | square | heroku | figma | notion | airtable
  deriving DecidableEq

/-- An access key alone cannot be verified. -/
def awsVerifier (verifyPair : Text → Text → Except String Status) : Verifier :=
  { verify := fun _ => .ok (some .unknown), verifyPair := some verifyPair }

def defaultRegistry (verify : Provider → Text → Except String (Option Status))
    (verifyPair : Text → Text → Except String Status) : List RegistryEntry :=
  let entry (substring : String) (p : Provider) : RegistryEntry :=
    ⟨substring.toList, { verify := verify p }⟩
  [entry "github" .github, entry "gitlab" .gitlab, entry "slack" .slack, entry "stripe" .stripe,
    entry "google" .google, entry "gcp" .google, entry "twilio" .twilio,
    entry "sendgrid" .sendgrid, entry "npm" .npm, entry "cloudflare" .cloudflare,
    entry "mailgun" .mailgun, entry "digitalocean" .digitalOcean,
    ⟨"aws".toList, awsVerifier verifyPair⟩,
    entry "openai" .openai, entry "anthropic" .anthropic, entry "datadog" .datadog,
    entry "pagerduty" .pagerduty, entry "discord" .discordBot, entry "telegram" .telegramBot,
    entry "mapbox" .mapbox, entry "square" .square, entry "heroku" .heroku, entry "figma" .figma,
    entry "notion" .notion, entry "airtable" .airtable]

def upperAlnum (c : Char) : Bool := ('0' ≤ c ∧ c ≤ '9') ∨ ('A' ≤ c ∧ c ≤ 'Z')

def accessKey (kinds : List String) (s : Text) : Bool :=
  s.length = 20 ∧ String.ofList (s.take 4) ∈ kinds ∧ (s.drop 4).all upperAlnum

def akiaPattern : Text → Bool :=
  accessKey ["AKIA", "ASIA", "AGPA", "AIDA", "AROA", "AIPA", "ANPA", "ANVA", "ASCA"]

def awsPairablePattern : Text → Bool := accessKey ["AKIA"]

def awsSecretPattern (s : Text) : Bool :=
  s.length = 40 ∧ s.all fun c => upperAlnum c ∨ ('a' ≤ c ∧ c ≤ 'z') ∨ c = '/' ∨ c = '+'

def awsMaxCandidates : Nat := 3

structure AwsCandidate where
  secret : Text
  sameFile : Bool
  lineDist : Nat
  deriving DecidableEq

variable {S : Type}

def collectFrom (akia : SecretModel S) (akiaIdx : Nat) :
    Nat → List Text → List (SecretModel S) → List AwsCandidate
  | _, _, [] => []
  | i, seen, s :: rest =>
    let val := trimSpace s.secretString
    if i = akiaIdx ∨ val = [] ∨ val ∈ seen ∨ awsSecretPattern val = false ∨ akiaPattern val then
      collectFrom akia akiaIdx (i + 1) seen rest
    else
      { secret := val
        sameFile := akia.fileLocation ≠ [] ∧ s.fileLocation = akia.fileLocation
        lineDist := (akia.lineNo - s.lineNo).natAbs } ::
        collectFrom akia akiaIdx (i + 1) (val :: seen) rest

def AwsCandidate.le (a b : AwsCandidate) : Bool :=
  if a.sameFile ≠ b.sameFile then a.sameFile else a.lineDist ≤ b.lineDist

def collectAWSSecretCandidates (secrets : List (SecretModel S)) (akia : SecretModel S)
    (akiaIdx : Nat) : List Text :=
  (((collectFrom akia akiaIdx 0 [] secrets).mergeSort AwsCandidate.le).take
    awsMaxCandidates).map AwsCandidate.secret

/-- `hash` is `hashSecret`. -/
structure Setup (H : Type) where
  registry : List RegistryEntry
  hash : Text → H

variable {H : Type} [DecidableEq H]

abbrev Cache (H : Type) := Memo H Status

namespace Setup

def shared (e : Setup H) : Bool := (e.registry.head?.map fun r => r.verifier.shares).getD false

def awsVerifyPair (e : Setup H) : Option (Text → Text → Except String Status) :=
  e.registry.findSome? fun r => r.verifier.verifyPair

def policy (delay : Nat → Nat) : Memo.Policy Status :=
  { lifetime := 5 * 60, keep := fun s => s ≠ .unknown, delay }

def ask (e : Setup H) (delay : Nat → Nat) (key : Text) (answer : Status) (m : Cache H) :
    Status × Cache H :=
  if e.shared then m.fetch (policy delay) (e.hash key) answer else (answer, m)

def pairAnswer (verifyPair : Text → Text → Except String Status) (val secretKey : Text) : Status :=
  match verifyPair val secretKey with
  | .ok s => s
  | .error _ => .unknown

def tryPairs (e : Setup H) (delay : Nat → Nat) (verifyPair : Text → Text → Except String Status)
    (val : Text) : List Text → (sawInactive sawUnknown : Bool) → Cache H → Status × Cache H
  | [], sawInactive, sawUnknown, m =>
    (if sawInactive && !sawUnknown then .inactive else .unknown, m)
  | secretKey :: rest, sawInactive, sawUnknown, m =>
    match e.ask delay (val ++ ':' :: secretKey) (pairAnswer verifyPair val secretKey) m with
    | (.active, m) => (.active, m)
    | (.inactive, m) => tryPairs e delay verifyPair val rest true sawUnknown m
    | (.unknown, m) => tryPairs e delay verifyPair val rest sawInactive true m

def pairable (f : SecretModel S) : Bool :=
  contains "aws".toList (f.secretType.toList.map toLower) &&
    awsPairablePattern (trimSpace f.secretString)

def handles (e : Setup H) (f : SecretModel S) : Bool := e.awsVerifyPair.isSome && pairable f

def prePassOne (e : Setup H) (delay : Nat → Nat)
    (verifyPair : Text → Text → Except String Status) (secrets : List (SecretModel S))
    (f : SecretModel S × Nat) (m : Cache H) : Option Status × Cache H :=
  if pairable f.1 then
    let r := e.tryPairs delay verifyPair (trimSpace f.1.secretString)
      (collectAWSSecretCandidates secrets f.1 f.2) false false m
    (some r.1, r.2)
  else (none, m)

def awsPrePass (e : Setup H) (delay : Nat → Nat) (secrets : List (SecretModel S)) (m : Cache H) :
    List (Option Status) × Cache H :=
  match e.awsVerifyPair with
  | none => (secrets.map fun _ => none, m)
  | some verifyPair => mapState (e.prePassOne delay verifyPair secrets) secrets.zipIdx m

def normalise : Except String (Option Status) → Status
  | .ok (some s) => s
  | .ok none => .unknown
  | .error _ => .unknown

def verifyOne (e : Setup H) (delay : Nat → Nat) (f : SecretModel S) (m : Cache H) :
    Status × Cache H :=
  match lookup e.registry f.secretType with
  | none => (.unknown, m)
  | some v =>
    if f.secretString = [] then (.unknown, m)
    else e.ask delay f.secretString (normalise (v.verify f.secretString)) m

def verifyNext (e : Setup H) (delay : Nat → Nat) (f : SecretModel S × Option Status)
    (m : Cache H) : Status × Cache H :=
  match f.2 with
  | some s => (s, m)
  | none => e.verifyOne delay f.1 m

def verifyWithRegistry (e : Setup H) (delay : Nat → Nat) (secrets : List (SecretModel S))
    (m : Cache H) : List Status × Cache H :=
  let handled := e.awsPrePass delay secrets m
  mapState (e.verifyNext delay) (secrets.zip handled.1) handled.2

def after (e : Setup H) (delay : Nat → Nat) : List (List (SecretModel S)) → Cache H
  | [] => Memo.empty
  | batch :: earlier => (e.verifyWithRegistry delay batch (after e delay earlier)).2

def ownStatus (e : Setup H) (f : SecretModel S) : Status :=
  match lookup e.registry f.secretType with
  | none => .unknown
  | some v => normalise (v.verify f.secretString)

variable {e : Setup H} {m : Cache H} {Inv : Cache H → Prop} {Q : SecretModel S → Status → Prop}

theorem mem_collectFrom (hc : c ∈ collectFrom akia k i seen secrets) :
    ∃ t ∈ secrets, trimSpace t.secretString = c.secret ∧ awsSecretPattern c.secret = true := by
  induction secrets generalizing i seen with
  | nil => simp [collectFrom] at hc
  | cons s rest ih =>
    rw [collectFrom] at hc
    split at hc
    · obtain ⟨t, ht, h⟩ := ih hc
      exact ⟨t, mem_cons_of_mem s ht, h⟩
    · rename_i hskip
      simp only [not_or] at hskip
      cases hc with
      | head => exact ⟨s, mem_cons_self, rfl, by simpa using hskip.2.2.2.1⟩
      | tail _ hc =>
        obtain ⟨t, ht, h⟩ := ih hc
        exact ⟨t, mem_cons_of_mem s ht, h⟩

theorem mem_candidates (hc : secretKey ∈ collectAWSSecretCandidates secrets akia i) :
    ∃ t ∈ secrets, trimSpace t.secretString = secretKey ∧
      awsSecretPattern secretKey = true := by
  obtain ⟨c, hmem, rfl⟩ := List.mem_map.mp hc
  exact mem_collectFrom (mem_mergeSort.mp (mem_of_mem_take hmem))

theorem tryPairs_inv {candidates : List Text} (hask : ∀ c ∈ candidates, ∀ m, Inv m →
      Inv (e.ask delay (val ++ ':' :: c) (pairAnswer verifyPair val c) m).2) (hm : Inv m) :
    Inv (e.tryPairs delay verifyPair val candidates sawInactive sawUnknown m).2 := by
  induction candidates generalizing sawInactive sawUnknown m with
  | nil => exact hm
  | cons c rest ih =>
    have hstep := hask c (by simp) m hm
    have hrest := fun d hd => hask d (mem_cons_of_mem c hd)
    simp only [tryPairs]
    split <;> rename_i heq <;> rw [heq] at hstep
    · exact hstep
    · exact ih hrest hstep
    · exact ih hrest hstep

def PairsKeep (e : Setup H) (delay : Nat → Nat) (secrets : List (SecretModel S))
    (Inv : Cache H → Prop) : Prop :=
  ∀ verifyPair, e.awsVerifyPair = some verifyPair → ∀ a ∈ secrets, pairable a = true →
    ∀ t ∈ secrets, awsSecretPattern (trimSpace t.secretString) = true → ∀ m, Inv m →
      Inv (e.ask delay (trimSpace a.secretString ++ ':' :: trimSpace t.secretString)
        (pairAnswer verifyPair (trimSpace a.secretString)
          (trimSpace t.secretString)) m).2

theorem awsPrePass_spec (hask : PairsKeep e delay secrets Inv) (hm : Inv m) :
    Forall₂ (fun f done => isSome done = e.handles f) secrets
      (e.awsPrePass delay secrets m).1 ∧ Inv (e.awsPrePass delay secrets m).2 := by
  cases hpair : e.awsVerifyPair with
  | none =>
    simp only [awsPrePass, hpair, handles]
    refine ⟨?_, hm⟩
    rw [forall₂_map_right_iff, forall₂_same]
    simp
  | some verifyPair =>
    simp only [awsPrePass, hpair, handles]
    have hrun := mapState_spec (Q := fun f done => isSome done = pairable f) Prod.fst
      (f := e.prePassOne delay verifyPair secrets) (l := secrets.zipIdx)
      (fun f hf m hm => ?_) hm
    · rwa [zipIdx_map_fst] at hrun
    · obtain ⟨f, i⟩ := f
      by_cases hp : pairable f = true
      · simp only [prePassOne, hp, if_true]
        refine ⟨rfl, tryPairs_inv (fun c hc m hm => ?_) hm⟩
        obtain ⟨t, ht, rfl, hsecret⟩ := mem_candidates hc
        exact hask verifyPair hpair f (fst_mem_of_mem_zipIdx hf) hp t ht hsecret m hm
      · simp only [prePassOne, hp]
        exact ⟨by simp, hm⟩

theorem verifyWithRegistry_spec (hask : PairsKeep e delay secrets Inv)
    (hone : ∀ f ∈ secrets, e.handles f = false → ∀ m, Inv m →
      Q f (e.verifyOne delay f m).1 ∧ Inv (e.verifyOne delay f m).2)
    (hm : Inv m) :
    Forall₂ (fun f s => e.handles f = false → Q f s) secrets
      (e.verifyWithRegistry delay secrets m).1 ∧ Inv (e.verifyWithRegistry delay secrets m).2 := by
  obtain ⟨hhandled, hinv⟩ := awsPrePass_spec hask hm
  obtain ⟨hlength, hhandled⟩ := forall₂_iff_zip.mp hhandled
  have hrun := mapState_spec (Q := fun f s => e.handles f = false → Q f s) Prod.fst
    (f := e.verifyNext delay) (l := secrets.zip (e.awsPrePass delay secrets m).1)
    (fun f hf m hm => ?_) hinv
  · rwa [map_fst_zip hlength.le] at hrun
  · obtain ⟨f, _ | s⟩ := f
    · have hleft : e.handles f = false := (hhandled hf).symm
      obtain ⟨hq, hm⟩ := hone f (of_mem_zip hf).1 hleft m hm
      exact ⟨fun _ => hq, hm⟩
    · have hdone : true = e.handles f := hhandled hf
      exact ⟨fun h => by simp [h] at hdone, hm⟩

inductive Asked (e : Setup H) (U : SecretModel S → Prop) : H → Status → Prop
  | single {g : SecretModel S} {v : Verifier} : U g → e.handles g = false →
      g.secretString ≠ [] → lookup e.registry g.secretType = some v →
      Asked e U (e.hash g.secretString) (normalise (v.verify g.secretString))
  | pair {a t : SecretModel S} {verifyPair : Text → Text → Except String Status} : U a → U t →
      e.awsVerifyPair = some verifyPair → pairable a = true →
      awsSecretPattern (trimSpace t.secretString) = true →
      Asked e U (e.hash (trimSpace a.secretString ++ ':' :: trimSpace t.secretString))
        (pairAnswer verifyPair (trimSpace a.secretString) (trimSpace t.secretString))

def KeysAgree (e : Setup H) (U : SecretModel S → Prop) : Prop :=
  ∀ f, U f → e.handles f = false → f.secretString ≠ [] →
    (lookup e.registry f.secretType).isSome = true →
    ∀ s, Asked e U (e.hash f.secretString) s → s ≠ .unknown → s = e.ownStatus f

/-- Whatever batches of findings from `U` came before, and at whatever times, each finding of a
batch that has a value and is not for the pre-pass gets the status that its own verifier gives. -/
def OwnStatus (e : Setup H) (U : SecretModel S → Prop) : Prop :=
  ∀ (delay : Nat → Nat) (earlier : List (List (SecretModel S))) (batch : List (SecretModel S)),
    (∀ b ∈ earlier, ∀ f ∈ b, U f) → (∀ f ∈ batch, U f) →
    List.Forall₂ (fun f s => e.handles f = false → f.secretString ≠ [] → s = e.ownStatus f) batch
      (e.verifyWithRegistry delay batch (e.after delay earlier)).1

/-- Only answers that were asked for are cached. -/
abbrev Earned (e : Setup H) (U : SecretModel S → Prop) : Cache H → Prop :=
  Memo.Holds fun key s => Asked e U key s ∧ s ≠ .unknown

theorem ask_earned (delay : Nat → Nat) (hask : Asked e U (e.hash key) answer) (hm : Earned e U m) :
    ((e.ask delay key answer m).1 = answer ∨ e.shared = true ∧
      Asked e U (e.hash key) (e.ask delay key answer m).1 ∧
        (e.ask delay key answer m).1 ≠ .unknown) ∧
      Earned e U (e.ask delay key answer m).2 := by
  by_cases hshared : e.shared = true
  · simp only [ask, hshared, if_true, true_and]
    exact hm.fetch fun hkeep => ⟨hask, by simpa [policy] using hkeep⟩
  · simp only [ask, hshared]
    exact ⟨.inl rfl, hm⟩

theorem pairsKeep_earned (hU : ∀ f ∈ secrets, U f) : PairsKeep e delay secrets (Earned e U) :=
  fun _ hpair a ha hpairable t ht hsecret _ hm =>
    (ask_earned delay (.pair (hU a ha) (hU t ht) hpair hpairable hsecret) hm).2

theorem verifyOne_earned (hf : U f) (hleft : e.handles f = false)
    (hagree : e.shared = true → KeysAgree e U) (hm : Earned e U m) :
    (f.secretString ≠ [] → (e.verifyOne delay f m).1 = e.ownStatus f) ∧
      Earned e U (e.verifyOne delay f m).2 := by
  cases hv : lookup e.registry f.secretType with
  | none =>
    simp only [verifyOne, ownStatus, hv]
    exact ⟨fun _ => trivial, hm⟩
  | some v =>
    by_cases hempty : f.secretString = []
    · simp only [verifyOne, hv, if_pos hempty]
      exact ⟨fun h => absurd hempty h, hm⟩
    · obtain ⟨hstatus, hm⟩ := ask_earned delay (.single hf hleft hempty hv) hm
      have hown : e.ownStatus f = normalise (v.verify f.secretString) := by
        simp only [ownStatus, hv]
      simp only [verifyOne, hv, if_neg hempty]
      refine ⟨fun _ => ?_, hm⟩
      obtain hstatus | ⟨hshared, hasked, hknown⟩ := hstatus
      · rw [hstatus, hown]
      · exact hagree hshared f hf hleft hempty (by simp [hv]) _ hasked hknown

theorem batch_earned (hagree : e.shared = true → KeysAgree e U) (hU : ∀ f ∈ secrets, U f)
    (hm : Earned e U m) :
    Forall₂ (fun f s => e.handles f = false → f.secretString ≠ [] → s = e.ownStatus f) secrets
      (e.verifyWithRegistry delay secrets m).1 ∧
      Earned e U (e.verifyWithRegistry delay secrets m).2 :=
  verifyWithRegistry_spec (pairsKeep_earned hU)
    (fun f hf hleft _ hm => verifyOne_earned (hU f hf) hleft hagree hm) hm

theorem after_earned (hagree : e.shared = true → KeysAgree e U) (hU : ∀ b ∈ earlier, ∀ f ∈ b, U f) :
    Earned e U (e.after delay earlier) := by
  induction earlier with
  | nil => exact Memo.holds_empty
  | cons batch earlier ih =>
    exact (batch_earned hagree (hU batch (by simp))
      (ih fun b hb => hU b (mem_cons_of_mem batch hb))).2

def still : Nat → Nat := fun _ => 0

theorem verify_single (hleft : e.handles f = false) :
    e.verifyWithRegistry delay [f] m =
      ([(e.verifyOne delay f m).1], (e.verifyOne delay f m).2) := by
  have hprepass : e.awsPrePass delay [f] m = ([none], m) := by
    cases hpair : e.awsVerifyPair with
    | none => simp [awsPrePass, hpair]
    | some verifyPair =>
      have hp : pairable f = false := by simpa [handles, hpair] using hleft
      simp [awsPrePass, hpair, mapState, prePassOne, hp]
  simp [verifyWithRegistry, hprepass, mapState, verifyNext]

theorem ask_live (hlive : Memo.Live key s m) : Memo.Live key s (e.ask still text answer m).2 := by
  rw [ask]
  split
  · exact hlive.fetch fun _ => rfl
  · exact hlive

theorem verifyOne_live (hlive : Memo.Live key s m) : Memo.Live key s (e.verifyOne still f m).2 := by
  rw [verifyOne]
  split
  · exact hlive
  · split
    · exact hlive
    · exact ask_live hlive

theorem ask_self (hshared : e.shared = true) (hlive : Memo.Live (e.hash text) s m) :
    (e.ask still text answer m).1 = s := by
  rw [ask, if_pos hshared]
  exact hlive.fetch_self fun _ => rfl

theorem live_ask (hshared : e.shared = true) (hanswer : answer ≠ .unknown)
    (hm : m.entries (e.hash text) = none) :
    Memo.Live (e.hash text) answer (e.ask still text answer m).2 := by
  rw [ask, if_pos hshared]
  exact Memo.live_fetch hm (by simpa [policy] using hanswer)

theorem awsSecretPattern_length (h : awsSecretPattern val = true) : val.length = 40 := by
  simp only [awsSecretPattern, decide_eq_true_eq] at h
  exact h.1

theorem accessKey_of_length (h : val.length = 40) : accessKey kinds val = false := by
  simp [accessKey, h]

theorem candidates_pair (hsecret : awsSecretPattern (trimSpace t.secretString) = true) :
    collectAWSSecretCandidates [a, t] a 0 = [trimSpace t.secretString] := by
  have hlength := awsSecretPattern_length hsecret
  have hne : trimSpace t.secretString ≠ [] := by
    intro h
    simp [h] at hlength
  have hakia : akiaPattern (trimSpace t.secretString) = false := accessKey_of_length hlength
  simp [collectAWSSecretCandidates, collectFrom, hne, hsecret, hakia, awsMaxCandidates]

theorem tryPairs_single :
    (e.tryPairs delay verifyPair val [secretKey] sawInactive sawUnknown m).2 =
      (e.ask delay (val ++ ':' :: secretKey) (pairAnswer verifyPair val secretKey) m).2 := by
  simp only [tryPairs]
  split <;> rename_i h <;> rw [h]

theorem live_pair (hshared : e.shared = true) (hpair : e.awsVerifyPair = some verifyPair)
    (ha : pairable a = true) (ht : awsSecretPattern (trimSpace t.secretString) = true)
    (hanswer : pairAnswer verifyPair (trimSpace a.secretString)
      (trimSpace t.secretString) ≠ .unknown) :
    Memo.Live (e.hash (trimSpace a.secretString ++ ':' :: trimSpace t.secretString))
      (pairAnswer verifyPair (trimSpace a.secretString) (trimSpace t.secretString))
      (e.after still [[a, t]]) := by
  have hpairable : pairable t = false := by
    simp [pairable, awsPairablePattern, accessKey_of_length (awsSecretPattern_length ht)]
  have hprepass : (e.awsPrePass still [a, t] Memo.empty).2 =
      (e.ask still (trimSpace a.secretString ++ ':' :: trimSpace t.secretString)
        (pairAnswer verifyPair (trimSpace a.secretString) (trimSpace t.secretString))
        Memo.empty).2 := by
    simp [awsPrePass, hpair, mapState, prePassOne, ha, hpairable, candidates_pair ht,
      tryPairs_single]
  -- the main loop asks about `t` at most, and no question takes the answer away
  refine (mapState_spec (Q := fun _ _ => True) id (fun f _ m hm => ⟨trivial, ?_⟩) ?_).2
  · rw [verifyNext]
    split
    · exact hm
    · exact verifyOne_live hm
  · rw [after, hprepass]
    exact live_ask hshared hanswer rfl

theorem live_of_asked (hshared : e.shared = true) (hasked : Asked e U key s) (hknown : s ≠ .unknown) :
    ∃ earlier : List (List (SecretModel S)), (∀ b ∈ earlier, ∀ f ∈ b, U f) ∧
      Memo.Live key s (e.after still earlier) := by
  cases hasked with
  | @single g v hg hleft hvalue hv =>
    refine ⟨[[g]], by simpa using hg, ?_⟩
    simp only [after, verify_single hleft, verifyOne, hv, if_neg hvalue]
    exact live_ask hshared hknown rfl
  | @pair a t verifyPair ha ht hpair hpairable hsecret =>
    exact ⟨[[a, t]], by simpa using ⟨ha, ht⟩, live_pair hshared hpair hpairable hsecret hknown⟩

theorem own_status_iff (e : Setup H) (U : SecretModel S → Prop) :
    OwnStatus e U ↔ (e.shared = true → KeysAgree e U) := by
  constructor
  · intro hown hshared f hf hleft hvalue hverifier s hasked hknown
    obtain ⟨v, hv⟩ := isSome_iff_exists.mp hverifier
    obtain ⟨earlier, hearlier, hlive⟩ := live_of_asked hshared hasked hknown
    have hbatch := hown still earlier [f] hearlier (by simpa using hf)
    rw [verify_single hleft] at hbatch
    simp only [forall₂_cons, Forall₂.nil, and_true] at hbatch
    rw [← hbatch hleft hvalue]
    simp only [verifyOne, hv, if_neg hvalue]
    exact (ask_self hshared hlive).symm
  · intro hagree delay earlier batch hearlier hbatch
    exact (batch_earned hagree hbatch (after_earned hagree hearlier)).1

/-- GitHub refuses every token and Slack accepts every one; the other providers do not answer. -/
def twoProviders : Setup Text :=
  { registry := defaultRegistry
      (fun p _ => match p with
        | .github => .ok (some .inactive)
        | .slack => .ok (some .active)
        | _ => .error "request failed")
      fun _ _ => .error "request failed"
    hash := id }

def tokenOf (secretType : String) : SecretModel Unit :=
  { type := secretType, lineNo := 1, fileLocation := [], secretType
    secretString := "tok".toList, secretConfidence := "high", masvsID := "" }

theorem shared_value_misreported :
    twoProviders.ownStatus (tokenOf "Slack Token") = .active ∧
      (twoProviders.verifyWithRegistry still [tokenOf "Slack Token"] Memo.empty).1 = [.active] ∧
      (twoProviders.verifyWithRegistry still [tokenOf "GitHub", tokenOf "Slack Token"]
        Memo.empty).1 = [.inactive, .inactive] ∧
      ¬ OwnStatus twoProviders fun f => f = tokenOf "GitHub" ∨ f = tokenOf "Slack Token" := by
  have hrun : (twoProviders.verifyWithRegistry still [tokenOf "GitHub", tokenOf "Slack Token"]
      Memo.empty).1 = [.inactive, .inactive] := by decide +kernel
  refine ⟨by decide +kernel, by decide +kernel, hrun, fun hown => ?_⟩
  have hbatch := hown still [] [tokenOf "GitHub", tokenOf "Slack Token"] (by simp) (by simp)
  rw [after, hrun] at hbatch
  simp only [forall₂_cons, Forall₂.nil, and_true] at hbatch
  exact absurd (hbatch.2 (by decide +kernel) (by decide +kernel)) (by decide +kernel)

end Setup
end Morf.Verify
