import Mathlib.Algebra.GroupWithZero.Nat
import Mathlib.Data.List.Basic
import Mathlib.Data.UInt
import Morf.Lib.Deferred
import Morf.Lib.Path
import Morf.Lib.Text

/-! `CheckAPKSafe` of `utils/zipbomb.go`, the guard in front of the decompiler. -/

namespace Morf.Scan

open Morf.Lib

structure ZipEntry where
  name : List Char
  uncompressed : UInt64
  compressed : UInt64
  deriving DecidableEq

/-- The limits, which the environment may set to other positive values.  `ratioExceeds` is the
comparison of the quotient of two floating-point numbers with the limit on it. -/
structure ZipLimits where
  maxEntries : Int64
  maxTotal : Int64
  maxEntry : Int64
  ratioExceeds : Int64 → Int64 → Bool
  maxTotal_pos : 0 < maxTotal

inductive ZipError
  | unreadable (cause : String)
  | entryCount (n : Nat)
  | absolutePath (name : List Char)
  | parentSegment (name : List Char)
  | entrySize (name : List Char) (size : Int64)
  | entryRatio (name : List Char)
  | totalSize (size : Int64)
  | overallRatio
  deriving DecidableEq

def absoluteName (name : List Char) : Bool := name.head? = some '/' || name.head? = some '\\'

def escapes (name : List Char) : Bool :=
  let cleaned := Path.clean name
  cleaned = "..".toList || "../".toList.isPrefixOf cleaned || Text.contains "/../".toList cleaned

def ratioTooHigh (L : ZipLimits) (unc cmp : Int64) : Bool :=
  0 < cmp && 0 < unc && L.ratioExceeds unc cmp

def checkEntries (L : ZipLimits) : Int64 → Int64 → List ZipEntry → Except ZipError (Int64 × Int64)
  | totalUncomp, totalComp, [] => .ok (totalUncomp, totalComp)
  | totalUncomp, totalComp, f :: fs => do
    let unc := f.uncompressed.toInt64
    let cmp := f.compressed.toInt64
    reject (absoluteName f.name) (.absolutePath f.name)
    reject (escapes f.name) (.parentSegment f.name)
    reject (L.maxEntry < unc) (.entrySize f.name unc)
    reject (ratioTooHigh L unc cmp) (.entryRatio f.name)
    reject (L.maxTotal < totalUncomp + unc) (.totalSize (totalUncomp + unc))
    checkEntries L (totalUncomp + unc) (totalComp + cmp) fs

def checkAPKSafe (L : ZipLimits) (archive : Except String (List ZipEntry)) :
    Except ZipError Unit := do
  let files ← archive.mapError .unreadable
  reject (L.maxEntries < Int64.ofNat files.length) (.entryCount files.length)
  let (totalUncomp, totalComp) ← checkEntries L 0 0 files
  reject (ratioTooHigh L totalUncomp totalComp) .overallRatio

def declaredTotal (files : List ZipEntry) : Nat := (files.map (·.uncompressed.toNat)).sum

theorem toInt_toInt64 {x : UInt64} (h : x.toNat < 2 ^ 63) : x.toInt64.toInt = x.toNat := by
  rw [← Int64.toInt_ofNat_of_lt h, ← UInt64.toInt64_ofNat', UInt64.ofNat_toNat]

theorem toInt_add {b : Int64} (ha : 0 ≤ a.toInt) (hb : 0 ≤ b.toInt) (h : a.toInt + b.toInt < 2 ^ 63) :
    (a + b).toInt = a.toInt + b.toInt := by
  rw [Int64.toInt_add]
  exact Int.bmod_eq_of_le (by omega) (by omega)

theorem checkEntries_exact (h : checkEntries L a b files = .ok r) (ha : 0 ≤ a.toInt)
    (hsum : a.toInt + declaredTotal files < 2 ^ 63) (hle : a.toInt ≤ L.maxTotal.toInt) :
    (∀ f ∈ files, (f.uncompressed.toNat : Int) ≤ L.maxEntry.toInt) ∧
      a.toInt + declaredTotal files ≤ L.maxTotal.toInt := by
  induction files generalizing a b with
  | nil => exact ⟨nofun, by simpa [declaredTotal] using hle⟩
  | cons f files ih =>
    have htotal : declaredTotal (f :: files) = f.uncompressed.toNat + declaredTotal files := by
      simp [declaredTotal]
    rw [htotal] at hsum ⊢
    push_cast at hsum ⊢
    have hunc := toInt_toInt64 (x := f.uncompressed) (by omega)
    have hadd := toInt_add ha (b := f.uncompressed.toInt64) (by omega) (by omega)
    obtain ⟨-, -, h⟩ := except_bind_ok.mp h
    obtain ⟨-, -, h⟩ := except_bind_ok.mp h
    obtain ⟨_, hentry, h⟩ := except_bind_ok.mp h
    obtain ⟨-, -, h⟩ := except_bind_ok.mp h
    obtain ⟨_, hlimit, h⟩ := except_bind_ok.mp h
    simp only [reject_ok, decide_eq_false_iff_not, Int64.lt_iff_toInt_lt, Int.not_lt]
      at hentry hlimit
    obtain ⟨hall, hrest⟩ := ih h (by omega) (by omega) hlimit
    exact ⟨List.forall_mem_cons.mpr ⟨by omega, hall⟩, by omega⟩

/-- An accepted archive keeps the limits on its declared sizes exactly if these do not reach
the sign bit, neither alone nor together. -/
theorem accepted_sizes_bounded_iff {L : ZipLimits} {files : List ZipEntry}
    (h : checkAPKSafe L (.ok files) = .ok ()) :
    ((∀ f ∈ files, (f.uncompressed.toNat : Int) ≤ L.maxEntry.toInt) ∧
      (declaredTotal files : Int) ≤ L.maxTotal.toInt) ↔ declaredTotal files < 2 ^ 63 := by
  constructor
  · rintro ⟨-, hle⟩
    have := L.maxTotal.toInt_lt
    omega
  · intro hsum
    obtain ⟨files', hf, h⟩ := except_bind_ok.mp h
    cases hf
    obtain ⟨-, -, h⟩ := except_bind_ok.mp h
    obtain ⟨r, hr, -⟩ := except_bind_ok.mp h
    have hzero : (0 : Int64).toInt = 0 := rfl
    have hpos := Int64.lt_iff_toInt_lt.mp L.maxTotal_pos
    have := checkEntries_exact hr (by omega) (by omega) (by omega)
    simpa [hzero] using this

def defaultLimits : ZipLimits where
  maxEntries := 100000
  maxTotal := 4 * 1024 * 1024 * 1024
  maxEntry := 500 * 1024 * 1024
  ratioExceeds unc cmp := 200 * cmp.toInt < unc.toInt
  maxTotal_pos := by decide

def dexEntry : ZipEntry := ⟨"classes.dex".toList, 1000, 400⟩

theorem small_archive_bounded :
    checkAPKSafe defaultLimits (.ok [dexEntry]) = .ok () ∧
      (∀ f ∈ [dexEntry], (f.uncompressed.toNat : Int) ≤ defaultLimits.maxEntry.toInt) ∧
      (declaredTotal [dexEntry] : Int) ≤ defaultLimits.maxTotal.toInt := by
  have h : checkAPKSafe defaultLimits (.ok [dexEntry]) = .ok () := by decide +kernel
  exact ⟨h, (accepted_sizes_bounded_iff h).mpr (by decide)⟩

/-- An entry that declares `2 ^ 63` bytes counts as a negative size and is let through. -/
theorem huge_entry_accepted :
    checkAPKSafe defaultLimits (.ok [⟨"classes.dex".toList, 2 ^ 63, 1⟩]) = .ok () ∧
      defaultLimits.maxEntry.toInt < (2 ^ 63 : UInt64).toNat ∧
      defaultLimits.maxTotal.toInt < declaredTotal [⟨"classes.dex".toList, 2 ^ 63, 1⟩] := by
  refine ⟨?_, ?_, ?_⟩ <;> decide +kernel

end Morf.Scan
