import Morf.Lib.Path
import Morf.Lib.Text

/-! The artifact store of `storage/`: what a worker reads of it, the backend on a local
directory and the one on a remote object store. -/

namespace Morf.Storage

open Morf.Lib

abbrev Key := String
abbrev Path := String
abbrev Bytes := List UInt8

inductive Entry
  | file (bytes : Bytes)
  | dir (size : Nat)
  deriving DecidableEq

abbrev Files := Path → Option Entry

inductive Error
  | emptyKey
  | absoluteKey (key : Key)
  | parentSegment (key : Key)
  | notExist (key : Key)
  | other (text : String)
  deriving DecidableEq

/-- What a reader delivers: pieces of the content, then its end or a fault. -/
structure Stream where
  chunks : List Bytes
  fault : Option String := none

abbrev Stream.bytes (r : Stream) : Bytes := r.chunks.flatten

/-- `io.LimitReader`: it ends after `n` bytes and cuts the piece in which they end. -/
def limitReader (n : Int) (fault : Option String) : List Bytes → Stream
  | [] => ⟨[], if n ≤ 0 then none else fault⟩
  | chunk :: chunks =>
    if n ≤ 0 then ⟨[], none⟩
    else
      let rest := limitReader (n - chunk.length) fault chunks
      { rest with chunks := chunk.take n.toNat :: rest.chunks }

theorem limitReader_nonpos (h : n ≤ 0) (fault : Option String) (chunks : List Bytes) :
    limitReader n fault chunks = ⟨[], none⟩ := by
  cases chunks <;> simp [limitReader, h]

theorem limitReader_spec (n : Int) (r : Stream) :
    (limitReader n r.fault r.chunks).bytes = r.bytes.take n.toNat ∧
      (limitReader n r.fault r.chunks).fault = if r.bytes.length < n then r.fault else none := by
  obtain ⟨chunks, fault⟩ := r
  dsimp only [Stream.bytes]
  induction chunks generalizing n with
  | nil =>
    by_cases hn : n ≤ 0
    · simp [limitReader, hn, Int.not_lt.mpr hn]
    · simp [limitReader, hn, Int.not_le.mp hn]
  | cons chunk chunks ih =>
    obtain ⟨hcontent, hfault⟩ := ih (n - chunk.length)
    have hlength : ((chunk :: chunks).flatten.length : Int) = chunk.length + chunks.flatten.length := by
      simp
    rw [limitReader]
    split
    · rw [if_neg (by omega), Int.toNat_of_nonpos ‹_›]
      exact ⟨rfl, rfl⟩
    · dsimp only
      rw [List.flatten_cons, hcontent, hfault, hlength, List.flatten_cons, List.take_append]
      refine ⟨by congr 2; omega, ?_⟩
      congr 1
      simp only [eq_iff_iff]
      omega

/-- The part of the `Storage` interface that resolves an artifact. A local path is one that
names the very file `Open` reads. -/
structure Backend where
  stat : Files → Key → Except Error Int
  openObject : Files → Key → Except Error Stream
  localPath : Key → Option Path
  localPath_reads : ∀ {fs key p s}, localPath key = some p → openObject fs key = .ok s →
    s.fault = none → fs p = some (.file s.chunks.flatten)

def Backend.Stores (b : Backend) (fs : Files) (key : Key) (bytes : Bytes) : Prop :=
  ∃ s, b.openObject fs key = .ok s ∧ s.fault = none ∧ s.chunks.flatten = bytes

def sanitizeKey (key : Key) : Except Error String :=
  if key.toList.all Text.isSpace then .error .emptyKey
  else if key.toList.head? = some '/' then .error (.absoluteKey key)
  else
    let cleaned := Lib.Path.clean key.toList
    if ['.', '.'] ∈ cleaned.splitOn '/' then .error (.parentSegment key)
    else .ok (String.ofList cleaned)

namespace LocalStorage

def resolve (base : Path) (key : Key) : Except Error Path :=
  (sanitizeKey key).map fun rel => String.ofList (Lib.Path.join [base.toList, rel.toList])

def stat (base : Path) (ctxErr : Option String) (fs : Files) (key : Key) : Except Error Int := do
  if let some e := ctxErr then throw (.other e)
  let full ← resolve base key
  match fs full with
  | none => throw (.notExist key)
  | some (.file bytes) => pure bytes.length
  | some (.dir size) => pure size

def openObject (base : Path) (ctxErr : Option String) (fs : Files) (key : Key) :
    Except Error Stream := do
  if let some e := ctxErr then throw (.other e)
  let full ← resolve base key
  match fs full with
  | none => throw (.notExist key)
  | some (.file bytes) => pure { chunks := [bytes] }
  | some (.dir _) => pure { chunks := [], fault := some "is a directory" }

def localPath (base : Path) (key : Key) : Option Path :=
  (resolve base key).toOption

theorem localPath_reads (hp : localPath base key = some p)
    (ho : openObject base ctxErr fs key = .ok s) (hs : s.fault = none) :
    fs p = some (.file s.chunks.flatten) := by
  cases ctxErr with
  | some e => cases ho
  | none =>
    cases hr : resolve base key with
    | error e => simp [localPath, hr, Except.toOption] at hp
    | ok full =>
      obtain rfl : full = p := by simpa [localPath, hr, Except.toOption] using hp
      cases hf : fs full with
      | none => simp [openObject, hr, hf, bind, Except.bind, throw, throwThe, MonadExceptOf.throw] at ho
      | some e =>
        cases e <;> simp [openObject, hr, hf, bind, Except.bind, pure, Except.pure] at ho <;>
          subst ho <;> simp_all

end LocalStorage

def localStorage (base : Path) (ctxErr : Option String) : Backend where
  stat := LocalStorage.stat base ctxErr
  openObject := LocalStorage.openObject base ctxErr
  localPath := LocalStorage.localPath base
  localPath_reads := LocalStorage.localPath_reads

/-- `S3Storage`: the answers of the object store to `HEAD` and `GET` are arbitrary. -/
def s3Storage (head : Key → Except Error Int) (get : Key → Except Error Stream) : Backend where
  stat _ := head
  openObject _ := get
  localPath _ := none
  localPath_reads := nofun

end Morf.Storage
