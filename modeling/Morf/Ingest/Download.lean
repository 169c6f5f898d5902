import Mathlib.Data.Vector.Defs
import Morf.Scan.Resolve
import Morf.Sbom.NativeLibs

/-! The download of an artifact: `copyCapped` of `ingest/common.go` and the `Fetch` of
`ingest/https.go`. -/

namespace Morf.Ingest

open Morf.Lib Morf.Storage
open List hiding Vector
open Function
open Morf.Sbom (Text)
open Morf.Scan (create remove copy)
open Morf.Sbom.NativeLibs (hexText)

/-- What the operating system answers to the calls on the temporary file. -/
structure TempFile where
  path : Path
  create : Option String := none
  write : Option String := none
  close : Option String := none

inductive FetchError
  | invalid (ref : Text) (cause : String)
  | plaintext
  | scheme (name : Text)
  | validation (cause : String)
  | request (cause : String)
  | status (code : Nat)
  | declared (length : Int) (maxBytes : Int64)
  | destination (cause : String)
  | creating (cause : String)
  | downloading (cause : String)
  | finalizing (cause : String)
  | tooLarge (maxBytes : Int64)
  | mismatch (want got : Text)

/-- `DefaultMaxBytes`, with `MORF_INGEST_MAX_BYTES` unset. -/
def defaultMaxBytes : Int64 := 500 * 1024 * 1024

def effective (maxBytes : Int64) : Int64 := if maxBytes ≤ 0 then defaultMaxBytes else maxBytes

def limited (src : Stream) (maxBytes : Int64) : Stream :=
  limitReader (effective maxBytes + 1).toInt src.fault src.chunks

def copyCapped (tmp : TempFile) (src : Stream) (maxBytes : Int64) (fs : Files) :
    Except FetchError Path × Files :=
  match tmp.create with
  | some e => (.error (.creating e), fs)
  | none =>
    let part := limited src maxBytes
    let written := copy tmp.path part.chunks (create tmp.path fs)
    match tmp.write.or part.fault with
    | some e => (.error (.downloading e), remove tmp.path written)
    | none =>
      match tmp.close with
      | some e => (.error (.finalizing e), remove tmp.path written)
      | none =>
        if (effective maxBytes).toInt < part.bytes.length then
          (.error (.tooLarge (effective maxBytes)), remove tmp.path written)
        else (.ok tmp.path, written)

structure TempFile.Works (tmp : TempFile) (fs : Files) : Prop where
  fresh : fs tmp.path = none
  create : tmp.create = none
  write : tmp.write = none
  close : tmp.close = none

section Copy

variable {tmp : TempFile} {src : Stream} {cap : Int64} {fs : Files}

theorem copy_elsewhere {p q : Path} (h : q ≠ p) (chunks : List Bytes) (fs : Files) :
    copy p chunks fs q = fs q := by
  induction chunks generalizing fs with
  | nil => rfl
  | cons c cs ih =>
    refine (ih (Scan.append p fs c)).trans ?_
    rcases hp : fs p with _ | (old | size) <;> simp [Scan.append, hp, h]

theorem remove_copy (h : fs tmp.path = none) (chunks : List Bytes) :
    remove tmp.path (copy tmp.path chunks (create tmp.path fs)) = fs := by
  funext q
  by_cases hq : q = tmp.path
  · subst hq
    exact (update_self ..).trans h.symm
  · rw [remove, update_of_ne hq, copy_elsewhere hq, create, update_of_ne hq]

theorem effective_of_pos (hcap : 0 < cap.toInt) : effective cap = cap :=
  if_neg fun hle => Int.not_le.mpr hcap (Int64.le_iff_toInt_le.mp hle)

/-- What a copy comes to when the calls on its file succeed. -/
theorem copyCapped_cases (src : Stream) (hcap : 0 < cap.toInt) (htmp : tmp.Works fs) :
    (∃ e, copyCapped tmp src cap fs = (.error e, fs) ∧ ((limited src cap).fault ≠ none ∨
      cap.toInt < (limited src cap).bytes.length)) ∨
    ∃ fs', copyCapped tmp src cap fs = (.ok tmp.path, fs') ∧ (limited src cap).fault = none ∧
      ((limited src cap).bytes.length : Int) ≤ cap.toInt ∧
      fs' tmp.path = some (.file (limited src cap).bytes) ∧ remove tmp.path fs' = fs := by
  simp only [copyCapped, htmp.create, htmp.write, htmp.close, effective_of_pos hcap, remove_copy htmp.fresh,
    Option.none_or]
  cases hfault : (limited src cap).fault with
  | some e => exact .inl ⟨_, rfl, .inl (Option.some_ne_none e)⟩
  | none =>
    dsimp only
    split
    · exact .inl ⟨_, rfl, .inr ‹_›⟩
    · exact .inr ⟨_, rfl, rfl, Int.not_lt.mp ‹_›, Scan.copy_create _ fs, remove_copy htmp.fresh _⟩

theorem limited_of_lt (hcap : 0 < cap.toInt) (h : cap.toInt < 2 ^ 63 - 1) (src : Stream) :
    (limited src cap).bytes = src.bytes.take (cap.toInt.toNat + 1) ∧
      (limited src cap).fault =
        if (src.bytes.length : Int) ≤ cap.toInt then src.fault else none := by
  have hlimit : (effective cap + 1).toInt = cap.toInt + 1 := by
    rw [effective_of_pos hcap, Int64.toInt_add, Int64.toInt_one, Int.bmod_eq_of_le] <;> omega
  obtain ⟨hcontent, hfault⟩ := limitReader_spec (cap.toInt + 1) src
  rw [limited, hlimit, hcontent, hfault]
  refine ⟨by congr 1; omega, ?_⟩
  simp only [Int.lt_add_one_iff]

theorem limited_eq_self (hcap : 0 < cap.toInt) (h : cap.toInt < 2 ^ 63 - 1)
    (hle : ((limited src cap).bytes.length : Int) ≤ cap.toInt) :
    (src.bytes.length : Int) ≤ cap.toInt ∧ (limited src cap).bytes = src.bytes ∧
      (limited src cap).fault = src.fault := by
  obtain ⟨hcontent, hfault⟩ := limited_of_lt hcap h src
  have hshort : (src.bytes.length : Int) ≤ cap.toInt := by
    rw [hcontent, length_take] at hle
    omega
  rw [hcontent, hfault, if_pos hshort]
  exact ⟨hshort, take_of_length_le (by omega), rfl⟩

/-- The cap is exact except for the largest one, with which nothing is read. -/
theorem cap_exact_iff (cap : Int64) (hcap : 0 < cap.toInt) (src : Stream) (hsrc : src.fault = none)
    (htmp : tmp.Works fs) :
    (((∃ p, (copyCapped tmp src cap fs).1 = .ok p) ↔ (src.bytes.length : Int) ≤ cap.toInt) ∧
      (∀ p, (copyCapped tmp src cap fs).1 = .ok p →
        (copyCapped tmp src cap fs).2 p = some (.file src.bytes)) ∧
      ∀ e, (copyCapped tmp src cap fs).1 = .error e → (copyCapped tmp src cap fs).2 = fs) ↔
    cap.toInt < 2 ^ 63 - 1 ∨ src.bytes = [] := by
  have hbound := cap.toInt_lt
  by_cases hlt : cap.toInt < 2 ^ 63 - 1
  · refine iff_of_true ?_ (.inl hlt)
    obtain ⟨hcontent, hfault⟩ := limited_of_lt hcap hlt src
    obtain ⟨e, hcopy, hwhy⟩ | ⟨fs', hcopy, hnone, hle, hfile, -⟩ := copyCapped_cases src hcap htmp
    · have hlong : ¬ (src.bytes.length : Int) ≤ cap.toInt := by
        intro hle
        rw [hfault, if_pos hle, hcontent, hsrc, length_take] at hwhy
        rcases hwhy with hwhy | hwhy
        · exact hwhy rfl
        · omega
      rw [hcopy]
      exact ⟨iff_of_false nofun hlong, nofun, fun _ _ => rfl⟩
    · obtain ⟨hshort, hbytes, -⟩ := limited_eq_self hcap hlt hle
      rw [hbytes] at hfile
      rw [hcopy]
      refine ⟨iff_of_true ⟨_, rfl⟩ hshort, fun p hp => ?_, nofun⟩
      cases hp
      exact hfile
  · -- the limit wraps around to a negative number
    have hlimited : limited src cap = ⟨[], none⟩ := by
      refine limitReader_nonpos ?_ ..
      rw [effective_of_pos hcap, Int64.toInt_add, Int64.toInt_one, Int.bmod_def]
      split <;> omega
    obtain ⟨e, -, hwhy⟩ | ⟨fs', hcopy, -, -, hfile, -⟩ := copyCapped_cases src hcap htmp
    · rw [hlimited] at hwhy
      rcases hwhy with hwhy | hwhy
      · exact (hwhy rfl).elim
      · exact absurd hwhy (by simp; omega)
    · rw [hlimited] at hfile
      rw [hcopy, or_iff_right hlt]
      constructor
      · rintro ⟨-, hstored, -⟩
        have := hfile.symm.trans (hstored _ rfl)
        exact (Entry.file.inj (Option.some.inj this)).symm
      · intro hempty
        refine ⟨iff_of_true ⟨_, rfl⟩ (by simp [hempty]; omega), fun p hp => ?_, nofun⟩
        cases hp
        rw [hempty]
        exact hfile

theorem three_bytes_copied : TempFile.Works { path := "t" } (fun _ => none) ∧
    ∃ p, (copyCapped { path := "t" } { chunks := [[1, 2], [3]] } 4 fun _ => none).1 = .ok p :=
  ⟨⟨rfl, rfl, rfl, rfl⟩, ((cap_exact_iff 4 (by decide) { chunks := [[1, 2], [3]] } rfl
    ⟨rfl, rfl, rfl, rfl⟩).mpr (.inl (by decide))).1.mpr (by decide)⟩

/-- With the largest cap the limit is negative, and the file stays empty. -/
theorem largest_cap_reads_nothing :
    (copyCapped { path := "t" } { chunks := [[1]] } Int64.maxValue fun _ => none).1 = .ok "t" ∧
    (copyCapped { path := "t" } { chunks := [[1]] } Int64.maxValue fun _ => none).2 "t" =
      some (.file []) :=
  ⟨rfl, rfl⟩

end Copy

section Fetch

/-- A parsed URL, with the query and the fragment decoded. -/
structure Url where
  scheme : Text
  rest : Text
  query : List (Text × Text) := []
  fragment : Text := []

structure Response where
  statusCode : Nat
  contentLength : Int
  body : Stream

structure Adapter where
  allowHTTP : Bool
  maxBytes : Int64

/-- What `Fetch` learns from outside: the parsed reference, the verdict on the URL, the server's
response and the destination directory. -/
structure Remote where
  parse : Text → Except String Url
  validateURL : Url → Option String
  send : Url → Except String Response
  resolveDestDir : Option String := none

def lower (s : Text) : Text := s.map Text.toLower

def extractSHA256 (u : Url) : Text × Url :=
  let frag := Text.trimSpace u.fragment
  let digest := if "sha256=".toList.isPrefixOf (lower frag) then lower (frag.drop 7) else []
  let v := Text.trimSpace ((u.query.lookup "sha256".toList).getD [])
  if v ≠ [] then
    (lower v, { u with query := u.query.filter (·.1 ≠ "sha256".toList), fragment := [] })
  else (digest, { u with fragment := [] })

/-- `strings.EqualFold` with a text of hex digits, which fold to nothing else than their cases. -/
def equalFold (s t : Text) : Bool := s.map Char.toLower == t.map Char.toLower

def checkScheme (a : Adapter) (parsed : Url) : Except FetchError Unit :=
  if lower parsed.scheme = "http".toList then reject (!a.allowHTTP) .plaintext
  else reject (lower parsed.scheme ≠ "https".toList) (.scheme parsed.scheme)

def fails (f : String → FetchError) : Option String → Except FetchError Unit
  | none => .ok ()
  | some e => .error (f e)

/-- The part of `Fetch` before the download: the digest to check and the response. -/
def requested (a : Adapter) (r : Remote) (ref : Text) : Except FetchError (Text × Response) := do
  let parsed ← (r.parse (Text.trimSpace ref)).mapError (.invalid ref)
  checkScheme a parsed
  fails .validation (r.validateURL parsed)
  let resp ← (r.send (extractSHA256 parsed).2).mapError .request
  reject (resp.statusCode < 200 ∨ 300 ≤ resp.statusCode) (.status resp.statusCode)
  reject (0 < resp.contentLength ∧ a.maxBytes.toInt < resp.contentLength)
    (.declared resp.contentLength a.maxBytes)
  fails .destination r.resolveDestDir
  return ((extractSHA256 parsed).1, resp)

/-- The hasher has seen what was read through it, which is the limited part of the body. -/
def fetch (sha256 : Bytes → Vector UInt8 32) (a : Adapter) (r : Remote) (tmp : TempFile) (ref : Text)
    (fs : Files) : Except FetchError Path × Files :=
  match requested a r ref with
  | .error e => (.error e, fs)
  | .ok (wantSHA, resp) =>
    match copyCapped tmp resp.body a.maxBytes fs with
    | (.error e, fs) => (.error e, fs)
    | (.ok localPath, fs) =>
      let got := hexText (sha256 (limited resp.body a.maxBytes).bytes)
      if wantSHA ≠ [] ∧ equalFold got wantSHA = false then
        (.error (.mismatch wantSHA got), remove localPath fs)
      else (.ok localPath, fs)

variable {a : Adapter} {r : Remote} {tmp : TempFile} {ref : Text} {fs : Files} {url : Url}

theorem requested_ok {want : Text} {resp : Response} (hurl : r.parse (Text.trimSpace ref) = .ok url)
    (h : requested a r ref = .ok (want, resp)) :
    want = (extractSHA256 url).1 ∧ r.send (extractSHA256 url).2 = .ok resp := by
  obtain ⟨parsed, hparsed, h⟩ := except_bind_ok.mp h
  obtain ⟨_, -, h⟩ := except_bind_ok.mp h
  obtain ⟨_, -, h⟩ := except_bind_ok.mp h
  obtain ⟨resp', hresp, h⟩ := except_bind_ok.mp h
  obtain ⟨_, -, h⟩ := except_bind_ok.mp h
  obtain ⟨_, -, h⟩ := except_bind_ok.mp h
  obtain ⟨_, -, h⟩ := except_bind_ok.mp h
  rw [hurl] at hparsed
  cases hparsed
  cases h
  exact ⟨rfl, Body.mapError_ok.mp hresp⟩

/-- A file that is returned is the whole body, has the requested digest and is within the cap; with
an error nothing is left. -/
theorem digest_enforced (sha256 : Bytes → Vector UInt8 32) (hcap : 0 < a.maxBytes.toInt)
    (hmax : a.maxBytes.toInt < 2 ^ 63 - 1) (hurl : r.parse (Text.trimSpace ref) = .ok url)
    (hwant : (extractSHA256 url).1 ≠ []) (htmp : tmp.Works fs) :
    (∀ p, (fetch sha256 a r tmp ref fs).1 = .ok p →
      ∃ resp, r.send (extractSHA256 url).2 = .ok resp ∧ resp.body.fault = none ∧
        (fetch sha256 a r tmp ref fs).2 p = some (.file resp.body.bytes) ∧
        equalFold (hexText (sha256 resp.body.bytes)) (extractSHA256 url).1 = true ∧
        (resp.body.bytes.length : Int) ≤ a.maxBytes.toInt) ∧
    ∀ e, (fetch sha256 a r tmp ref fs).1 = .error e → (fetch sha256 a r tmp ref fs).2 = fs := by
  unfold fetch
  cases hreq : requested a r ref with
  | error e => exact ⟨nofun, fun _ _ => rfl⟩
  | ok x =>
    obtain ⟨want, resp⟩ := x
    obtain ⟨rfl, hsend⟩ := requested_ok hurl hreq
    obtain ⟨e, hcopy, -⟩ | ⟨fs', hcopy, hnone, hle, hfile, hremove⟩ :=
      copyCapped_cases resp.body hcap htmp
    · simp only [hcopy]
      exact ⟨nofun, fun _ _ => trivial⟩
    · obtain ⟨hshort, hbytes, hfault⟩ := limited_eq_self hcap hmax hle
      rw [hbytes] at hfile
      rw [hfault] at hnone
      simp only [hcopy, hbytes]
      split
      · exact ⟨nofun, fun _ _ => hremove⟩
      · rename_i hfold
        refine ⟨fun p hp => ?_, nofun⟩
        cases hp
        refine ⟨resp, hsend, hnone, hfile, ?_, hshort⟩
        simpa [hwant] using hfold

def threeBytes : Remote where
  parse _ := .ok { scheme := "https".toList, rest := [], fragment := "sha256=00".toList }
  validateURL _ := none
  send _ := .ok ⟨200, -1, { chunks := [[1, 2], [3]] }⟩

theorem short_digest_enforced : (requested ⟨false, 4⟩ threeBytes []).toOption.isSome = true ∧
    ∀ sha256 e, (fetch sha256 ⟨false, 4⟩ threeBytes { path := "t" } [] fun _ => none).1 = .error e →
      (fetch sha256 ⟨false, 4⟩ threeBytes { path := "t" } [] fun _ => none).2 = fun _ => none :=
  ⟨by decide, fun sha256 =>
    (digest_enforced sha256 (by decide) (by decide) rfl (by decide) ⟨rfl, rfl, rfl, rfl⟩).2⟩

end Fetch

end Morf.Ingest
