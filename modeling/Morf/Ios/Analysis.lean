import Mathlib.Data.List.Sort
import Morf.Ios.MachO
import Morf.Lib.Path

/-! `ios/unpack.go`, `frameworks.go` and `analysis.go`: which files of an unpacked bundle reach
the corpus. -/

namespace Morf.Ios

open Morf.Lib
open List Option

abbrev Path := List Text

abbrev Disk := List (Path × Option Bytes)

namespace Disk

def read (d : Disk) (p : Path) : Option Bytes := (d.lookup p).join

def isDir (d : Disk) (p : Path) : Bool := d.lookup p == some none

def fileExists (d : Disk) (p : Path) : Bool := (d.read p).isSome

def readDir (d : Disk) (dir : Path) : Option (List (Text × Bool)) :=
  if d.isDir dir then
    some (d.filterMap fun e =>
      if e.1.dropLast = dir then e.1.getLast?.map (·, e.2.isNone) else none)
  else none

def walkDir (d : Disk) (dir : Path) : Disk := d.filter fun e => dir.isPrefixOf e.1

end Disk

def base (p : Path) : Text := p.getLast?.getD ['/']

def hasSuffix (s : Text) (suffix : String) : Bool := suffix.toList.isSuffixOf s

/-- `filepath.Join` with a name that may have slashes and dots of its own. -/
def join (dir : Path) (name : Text) : Path :=
  ((name.splitOn '/').foldl (Path.push true) dir.reverse).reverse

def collectDirsWithSuffix (d : Disk) (dir : Path) (suffix : String) : List Path :=
  ((d.readDir dir).getD []).filterMap fun e =>
    if e.2 && hasSuffix e.1 suffix then some (dir ++ [e.1]) else none

def collectFilesWithSuffix (d : Disk) (dir : Path) (suffix : String) : List Path :=
  ((d.walkDir dir).filter fun e => e.2.isSome && hasSuffix (base e.1) suffix).map Prod.fst

inductive Plist
  | string (s : Bytes)
  | dict (entries : List (Bytes × Plist))
  | array (items : List Plist)
  | other

mutual

def collectPlistStrings : Plist → List Bytes
  | .string s => if s = [] then [] else [s]
  | .dict entries => collectDictStrings entries
  | .array items => collectArrayStrings items
  | .other => []

def collectDictStrings : List (Bytes × Plist) → List Bytes
  | [] => []
  | (k, v) :: entries =>
    (if k = [] then [] else [k]) ++ collectPlistStrings v ++ collectDictStrings entries

def collectArrayStrings : List Plist → List Bytes
  | [] => []
  | v :: items => collectPlistStrings v ++ collectArrayStrings items

end

structure Tools extends Library where
  executableName : Bytes → Option Text
  unmarshal : Bytes → Option Plist
  order : MapOrder

def bundleExecutable (T : Tools) (d : Disk) (bundle : Path) : Option Path := do
  let data ← d.read (bundle ++ ["Info.plist".toList])
  let name ← T.executableName data
  if name ≠ [] ∧ d.fileExists (join bundle name) then some (join bundle name) else none

structure UnpackedIPA where
  appBundlePath : Path
  infoPlistPath : Option Path
  mainBinaryPath : Option Path
  appExtensions : List Path
  frameworks : List Path
  dylibs : List Path

def unpacked (T : Tools) (d : Disk) (appBundle : Path) : UnpackedIPA :=
  let infoPlist := appBundle ++ ["Info.plist".toList]
  { appBundlePath := appBundle
    infoPlistPath := if d.fileExists infoPlist then some infoPlist else none
    mainBinaryPath := bundleExecutable T d appBundle
    appExtensions := collectDirsWithSuffix d (appBundle ++ ["PlugIns".toList]) ".appex"
    frameworks := collectDirsWithSuffix d (appBundle ++ ["Frameworks".toList]) ".framework"
    dylibs := collectFilesWithSuffix d appBundle ".dylib" }

structure FrameworkInfo where
  name : Text
  path : Path
  binaryPath : Option Path

def trimSuffix (s : Text) (suffix : String) : Text :=
  if hasSuffix s suffix then s.take (s.length - suffix.length) else s

def frameworkBinary (fw : Path) : Path := join fw (trimSuffix (base fw) ".framework")

def enumerateFrameworks (d : Disk) (up : UnpackedIPA) : List FrameworkInfo :=
  up.frameworks.map (fun fw =>
    { name := base fw
      path := fw
      binaryPath := if d.fileExists (frameworkBinary fw) then some (frameworkBinary fw) else none })
  ++ up.dylibs.map fun dl => { name := base dl, path := dl, binaryPath := some dl }

section Coverage

variable (T : Tools) (d : Disk) (bundle : Path)

inductive AppBinary : Path → Prop
  | main {p : Path} : bundleExecutable T d bundle = some p → AppBinary p
  | framework {fw : Path} :
    fw ∈ collectDirsWithSuffix d (bundle ++ ["Frameworks".toList]) ".framework" →
    d.fileExists (frameworkBinary fw) = true → AppBinary (frameworkBinary fw)
  | dylib {p : Path} : p ∈ collectFilesWithSuffix d bundle ".dylib" → AppBinary p

def ExtensionBinary (p : Path) : Prop :=
  ∃ ext ∈ collectDirsWithSuffix d (bundle ++ ["PlugIns".toList]) ".appex",
    bundleExecutable T d ext = some p

def FileHasRun (p : Path) (run : Bytes) : Prop :=
  ∃ data arches arch f, d.read p = some data ∧ T.images data = some arches ∧
    (arch, some f) ∈ arches ∧ machoIsEncrypted f = false ∧ f.HasRun run

def Covered (corpus : List CorpusLine) : Prop :=
  ∀ p run, AppBinary T d bundle p ∨ ExtensionBinary T d bundle p → FileHasRun T d p run →
    run ∈ lineTexts corpus

variable {T d bundle}

end Coverage

def plainTools : Tools where
  openFat _ := .notFat
  openThin data := some ("AARCH64".toList,
    ⟨[], none, [some ⟨"__TEXT".toList, "__cstring".toList, true, some data⟩]⟩)
  executableName data := some (data.map fun b => Char.ofNat b.toNat)
  unmarshal data := some (.string data)
  order := ⟨id, fun _ => .refl _⟩

def shopBundle : Path := ["Payload".toList, "Shop.app".toList]

def unzipped (files : List (List String × Option String)) : Disk :=
  ([], none) :: (["Payload".toList], none) :: (shopBundle, none) ::
    files.map fun f => (shopBundle ++ f.1.map String.toList, f.2.map ascii)

end Morf.Ios
