import Mathlib.Data.List.Basic
import Morf.Lib.Text

/-! UTF-8 text as Go reads it. -/

namespace Morf.Lib

open List

def utf8 (s : List Char) : List UInt8 := s.flatMap String.utf8EncodeChar

/-- The runes of a string, with `skip` bytes before the next.  A byte that begins no rune is read as
the replacement character. -/
def runesFrom : (skip : Nat) → List UInt8 → List Char
  | _, [] => []
  | skip + 1, _ :: bs => runesFrom skip bs
  | 0, b :: bs =>
    match (b :: bs).toByteArray.utf8DecodeChar? 0 with
    | some c => c :: runesFrom (c.utf8Size - 1) bs
    | none => '�' :: runesFrom 0 bs

def runes : List UInt8 → List Char := runesFrom 0

@[simp] theorem utf8_nil : utf8 [] = [] := rfl

@[simp] theorem utf8_cons (c : Char) (s : List Char) :
    utf8 (c :: s) = String.utf8EncodeChar c ++ utf8 s := flatMap_cons

@[simp] theorem utf8_append (s t : List Char) : utf8 (s ++ t) = utf8 s ++ utf8 t :=
  flatMap_append

theorem decode_utf8EncodeChar (c : Char) (bs : List UInt8) :
    (String.utf8EncodeChar c ++ bs).toByteArray.utf8DecodeChar? 0 = some c := by
  rw [toByteArray_append]
  exact ByteArray.utf8DecodeChar?_utf8EncodeChar_append

theorem runesFrom_append (as bs : List UInt8) : runesFrom as.length (as ++ bs) = runesFrom 0 bs := by
  induction as with
  | nil => rfl
  | cons a as ih => exact ih

theorem runes_utf8 (s : List Char) : runes (utf8 s) = s := by
  induction s with
  | nil => rfl
  | cons c s ih =>
    obtain ⟨b, bs, hc⟩ := exists_cons_of_ne_nil (String.utf8EncodeChar_ne_nil (c := c))
    have hlen : bs.length = c.utf8Size - 1 := by
      rw [← String.length_utf8EncodeChar, hc, length_cons, Nat.add_sub_cancel]
    have hdec := decode_utf8EncodeChar c (utf8 s)
    rw [hc, cons_append] at hdec
    rw [utf8_cons, hc, cons_append, runes, runesFrom, hdec]
    dsimp only
    rw [← hlen, runesFrom_append]
    exact congrArg (c :: ·) ih

theorem utf8_prefix_iff : utf8 p <+: utf8 s ↔ p <+: s := by
  constructor
  · intro h
    induction p generalizing s with
    | nil => exact List.nil_prefix
    | cons c p ih =>
      obtain ⟨t, ht⟩ := h
      cases s with
      | nil => simp at ht
      | cons d s =>
        rw [utf8_cons, utf8_cons, append_assoc] at ht
        have hcd : some c = some d := by
          rw [← decode_utf8EncodeChar c (utf8 p ++ t), ht, decode_utf8EncodeChar]
        obtain rfl := Option.some.inj hcd
        exact cons_prefix_cons.mpr ⟨rfl, ih ⟨t, append_cancel_left ht⟩⟩
  · rintro ⟨t, rfl⟩
    rw [utf8_append]
    exact List.prefix_append ..

/-! A byte as the character with its number. -/

def octets (bytes : List UInt8) : List Char := bytes.map Char.ofUInt8

def isAscii (c : Char) : Bool := c.toNat < 128

theorem octets_append (as bs : List UInt8) : octets (as ++ bs) = octets as ++ octets bs :=
  map_append

theorem octets_drop (n : Nat) (bytes : List UInt8) :
    (octets bytes).drop n = octets (bytes.drop n) := map_drop.symm

theorem octets_utf8 (h : s.all isAscii = true) : octets (utf8 s) = s := by
  induction s with
  | nil => rfl
  | cons c s ih =>
    obtain ⟨hc, hs⟩ := Bool.and_eq_true_iff.mp h
    have hlt : c.toNat < 128 := of_decide_eq_true hc
    have hsize : c.utf8Size = 1 := by
      rw [Char.utf8Size_eq_one_iff, UInt32.le_iff_toNat_le]
      exact Nat.le_of_lt_succ hlt
    have hbyte : Char.ofUInt8 c.val.toUInt8 = c := by
      apply Char.ext
      apply UInt32.toNat_inj.mp
      exact Nat.mod_eq_of_lt (Nat.lt_trans hlt (by decide))
    rw [utf8_cons, octets_append, ih hs, String.utf8EncodeChar_eq_singleton hsize]
    exact congrArg (· :: s) hbyte

/-! The lines that a `bufio.Scanner` yields. -/

def fitsLine (line : List Char) : Bool := (utf8 line).length < 64 * 1024

def dropReturn (line : List Char) : List Char :=
  if line.getLast? = some '\r' then line.dropLast else line

def rawLines (text : List Char) : List (List Char) :=
  let parts := text.splitOn '\n'
  if parts.getLast? = some [] then parts.dropLast else parts

def scanLines (text : List Char) : List (List Char) :=
  ((rawLines text).takeWhile fitsLine).map dropReturn

structure IsLine (line : List Char) : Prop where
  newline : '\n' ∉ line
  ending : line.getLast? ≠ some '\r'
  fits : fitsLine line = true

instance : DecidablePred IsLine := fun line =>
  decidable_of_iff ('\n' ∉ line ∧ line.getLast? ≠ some '\r' ∧ fitsLine line = true)
    ⟨fun h => ⟨h.1, h.2.1, h.2.2⟩, fun h => ⟨h.newline, h.ending, h.fits⟩⟩

def printLines (lines : List (List Char)) : List Char := lines.flatMap (· ++ ['\n'])

theorem splitOn_flatMap_concat {α : Type} [DecidableEq α] {ending : α} {lines : List (List α)}
    (h : ∀ l ∈ lines, ending ∉ l) :
    (lines.flatMap (· ++ [ending])).splitOn ending = lines ++ [[]] := by
  induction lines with
  | nil => rfl
  | cons l ls ih =>
    rw [List.flatMap_cons, List.append_assoc, List.singleton_append,
      List.splitOn_append_cons_self_of_not_mem (h l List.mem_cons_self)]
    exact congrArg (l :: ·) (ih fun l' hl' => h l' (List.mem_cons_of_mem l hl'))

theorem scanLines_printLines (h : ∀ l ∈ lines, IsLine l) :
    scanLines (printLines lines) = lines := by
  have hraw : rawLines (printLines lines) = lines := by
    rw [rawLines, printLines, splitOn_flatMap_concat fun l hl => (h l hl).newline]
    simp
  have hreturn : ∀ l ∈ lines, dropReturn l = l := fun l hl => if_neg (h l hl).ending
  rw [scanLines, hraw, List.takeWhile_eq_self_iff.mpr fun l hl => (h l hl).fits]
  exact (List.map_congr_left hreturn).trans lines.map_id

end Morf.Lib
