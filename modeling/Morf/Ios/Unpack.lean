import Morf.Scan.ZipGuard

/-! `unzipTo` of `ios/unpack.go`, which unpacks an archive that `CheckAPKSafe` has let through. -/

namespace Morf.Ios

open Morf.Lib Morf.Lib.Path Morf.Scan
open List

structure IpaFile extends ZipEntry where
  isDir : Bool
  content : Except String (List UInt8)

/-- What is asked of the disk.  `mkdirParent` makes the directory that holds the target. -/
inductive DiskOp
  | mkdirAll (target : List Char)
  | mkdirParent (target : List Char)
  | create (target : List Char)
  | copy (target : List Char) (content : List UInt8)

def DiskOp.target : DiskOp → List Char
  | .mkdirAll target | .mkdirParent target | .create target | .copy target _ => target

inductive UnzipError
  | openZip (cause : String)
  | absolutePath (name : List Char)
  | escapesRoot (name : List Char)
  | openEntry (name : List Char) (cause : String)
  | disk (op : DiskOp) (cause : String)

def UnzipError.zipSlip : UnzipError → Bool
  | .absolutePath _ | .escapesRoot _ => true
  | _ => false

def entryTarget (cleanDst name : List Char) : Except UnzipError (List Char) := do
  reject (absoluteName name) (.absolutePath name)
  let target := Path.join [cleanDst, name]
  reject (target ≠ cleanDst && !(cleanDst ++ ['/']).isPrefixOf target) (.escapesRoot name)
  return target

/-- The operations of one entry, up to the error of reading it.  The entry is opened before its
file is created. -/
def entryOps (target : List Char) (f : IpaFile) : List DiskOp × Except UnzipError Unit :=
  if f.isDir then ([.mkdirAll target], .ok ())
  else
    match f.content with
    | .error cause => ([.mkdirParent target], .error (.openEntry f.name cause))
    | .ok content => ([.mkdirParent target, .create target, .copy target content], .ok ())

def perform (disk : DiskOp → Option String) :
    List DiskOp → List DiskOp × Except UnzipError Unit
  | [] => ([], .ok ())
  | op :: ops =>
    match disk op with
    | some cause => ([op], .error (.disk op cause))
    | none =>
      let (done, r) := perform disk ops
      (op :: done, r)

/-- The loop of `unzipTo`: the operations it has asked for, and how it ends. -/
def unzipEntries (disk : DiskOp → Option String) (cleanDst : List Char) :
    List IpaFile → List DiskOp × Except UnzipError Unit
  | [] => ([], .ok ())
  | f :: fs =>
    match entryTarget cleanDst f.name with
    | .error e => ([], .error e)
    | .ok target =>
      let (ops, read) := entryOps target f
      match perform disk ops with
      | (done, .error e) => (done, .error e)
      | (done, .ok ()) =>
        match read with
        | .error e => (done, .error e)
        | .ok () =>
          let (more, r) := unzipEntries disk cleanDst fs
          (done ++ more, r)

def unzipTo (disk : DiskOp → Option String) (archive : Except String (List IpaFile))
    (dst : List Char) : List DiskOp × Except UnzipError Unit :=
  match archive with
  | .error cause => ([], .error (.openZip cause))
  | .ok files => unzipEntries disk (clean dst) files

theorem stays_of_not_escapes (ha : absoluteName name = false) (he : escapes name = false) :
    ['.', '.'] ∉ remains name := by
  intro hd
  have hrel : name.head? ≠ some '/' := by
    intro h
    simp [absoluteName, h] at ha
  simp only [escapes, Bool.or_eq_false_iff, decide_eq_false_iff_not] at he
  rcases clean_escapes hrel hd with h | h
  · exact he.1.1 h
  · exact absurd (List.isPrefixOf_iff_prefix.mpr h) (Bool.eq_false_iff.mp he.1.2)

variable {root : List Char}

theorem entryTarget_ok (hr : root.head? = some '/') (hc : clean root = root)
    (hne : root ≠ ['/']) (ha : absoluteName name = false) (he : escapes name = false) :
    ∃ target, entryTarget root name = .ok target ∧ under root target = true := by
  have hu := join_under hr hc hne (stays_of_not_escapes ha he)
  refine ⟨_, ?_, hu⟩
  have hin : (decide (Path.join [root, name] ≠ root) &&
      !(root ++ ['/']).isPrefixOf (Path.join [root, name])) = false := by
    simp only [under, Bool.or_eq_true, beq_iff_eq] at hu
    rcases hu with hu | hu
    · simp [← hu]
    · simp [hu]
  simp only [entryTarget, ha, hin]
  rfl

theorem checkEntries_names (h : checkEntries L a b files = .ok r) :
    ∀ f ∈ files, absoluteName f.name = false ∧ escapes f.name = false := by
  induction files generalizing a b with
  | nil => nofun
  | cons f files ih =>
    obtain ⟨_, habs, h⟩ := except_bind_ok.mp h
    obtain ⟨_, hesc, h⟩ := except_bind_ok.mp h
    obtain ⟨-, -, h⟩ := except_bind_ok.mp h
    obtain ⟨-, -, h⟩ := except_bind_ok.mp h
    obtain ⟨-, -, h⟩ := except_bind_ok.mp h
    exact forall_mem_cons.mpr ⟨⟨reject_ok.mp habs, reject_ok.mp hesc⟩, ih h⟩

theorem checkAPKSafe_names (h : checkAPKSafe L (.ok files) = .ok ()) :
    ∀ f ∈ files, absoluteName f.name = false ∧ escapes f.name = false := by
  obtain ⟨files', hf, h⟩ := except_bind_ok.mp h
  cases hf
  obtain ⟨-, -, h⟩ := except_bind_ok.mp h
  obtain ⟨r, hr, -⟩ := except_bind_ok.mp h
  exact checkEntries_names hr

def Contained (root : List Char) (run : List DiskOp × Except UnzipError Unit) : Prop :=
  (∀ op ∈ run.1, under root op.target = true) ∧ ∀ e, run.2 = .error e → e.zipSlip = false

theorem perform_contained (h : ∀ op ∈ ops, under root op.target = true)
    (disk : DiskOp → Option String) : Contained root (perform disk ops) := by
  induction ops with
  | nil => exact ⟨nofun, nofun⟩
  | cons op ops ih =>
    obtain ⟨hop, h⟩ := forall_mem_cons.mp h
    rw [perform]
    cases disk op with
    | some cause =>
      refine ⟨forall_mem_cons.mpr ⟨hop, nofun⟩, ?_⟩
      rintro _ ⟨⟩
      rfl
    | none => exact ⟨forall_mem_cons.mpr ⟨hop, (ih h).1⟩, (ih h).2⟩

theorem entryOps_contained (h : under root target = true) (f : IpaFile) :
    Contained root (entryOps target f) := by
  unfold entryOps
  split
  · exact ⟨by simpa [DiskOp.target] using h, nofun⟩
  · split
    · refine ⟨by simpa [DiskOp.target] using h, ?_⟩
      rintro _ ⟨⟩
      rfl
    · exact ⟨by simpa [DiskOp.target] using h, nofun⟩

theorem unzipEntries_contained (h : ∀ f ∈ files, ∃ target, entryTarget root f.name = .ok target ∧
      under root target = true) (disk : DiskOp → Option String) :
    Contained root (unzipEntries disk root files) := by
  induction files with
  | nil => exact ⟨nofun, nofun⟩
  | cons f files ih =>
    obtain ⟨⟨target, ht, hu⟩, h⟩ := forall_mem_cons.mp h
    have hentry := entryOps_contained hu f
    have hdisk := perform_contained hentry.1 disk
    rw [unzipEntries, ht]
    dsimp only
    generalize perform disk (entryOps target f).1 = run at hdisk
    obtain ⟨done, _ | ⟨⟩⟩ := run
    · exact hdisk
    · dsimp only
      cases hread : (entryOps target f).2 with
      | error e => exact ⟨hdisk.1, fun e' he => hentry.2 e' (hread.trans he)⟩
      | ok =>
        refine ⟨fun op hop => ?_, (ih h).2⟩
        rcases mem_append.mp hop with hop | hop
        · exact hdisk.1 op hop
        · exact (ih h).1 op hop

/-- No entry of an archive that `CheckAPKSafe` accepts leaves the directory it is unpacked to. -/
theorem accepted_entries_stay_below {L : ZipLimits} {files : List IpaFile}
    (hr : root.head? = some '/') (hc : clean root = root) (hne : root ≠ ['/'])
    (hsafe : checkAPKSafe L (.ok (files.map IpaFile.toZipEntry)) = .ok ())
    (disk : DiskOp → Option String) :
    (∀ f ∈ files, ∃ target, entryTarget root f.name = .ok target ∧
      under root target = true) ∧
    (∀ op ∈ (unzipTo disk (.ok files) root).1, under root op.target = true) ∧
    ∀ e, (unzipTo disk (.ok files) root).2 = .error e → e.zipSlip = false := by
  have hnames := checkAPKSafe_names hsafe
  have htargets : ∀ f ∈ files, ∃ target, entryTarget root f.name = .ok target ∧
      under root target = true := fun f hf =>
    have hname := hnames f.toZipEntry (mem_map_of_mem hf)
    entryTarget_ok hr hc hne hname.1 hname.2
  have hrun := unzipEntries_contained htargets disk
  rw [unzipTo, hc]
  exact ⟨htargets, hrun⟩

def oddFile : IpaFile := ⟨⟨"a/./b//../c\\..\\d".toList, 10, 10⟩, false, .ok []⟩

theorem odd_name_stays_below :
    checkAPKSafe defaultLimits (.ok ([oddFile].map IpaFile.toZipEntry)) = .ok () ∧
    (∀ f ∈ [oddFile], ∃ target, entryTarget "/work/ipa".toList f.name = .ok target ∧
      under "/work/ipa".toList target = true) ∧
    Path.join ["/work/ipa".toList, oddFile.name] = "/work/ipa/a/c\\..\\d".toList := by
  have hsafe : checkAPKSafe defaultLimits (.ok ([oddFile].map IpaFile.toZipEntry)) = .ok () := by
    decide +kernel
  have hroot : clean "/work/ipa".toList = "/work/ipa".toList := by decide +kernel
  refine ⟨hsafe, ?_, by decide +kernel⟩
  exact (accepted_entries_stay_below (by decide) hroot (by decide) hsafe fun _ => none).1

end Morf.Ios
