import Morf.Lib.Pdf
import Morf.Lib.Utf8

/-! The PDF report of `utils/export.go`. -/

namespace Morf.Utils

open Morf.Lib Morf.Lib.Pdf
open List Option

def isPrintable (r : Char) : Bool := 0x20 ≤ r.toNat ∧ r.toNat ≤ 0x7e

def pdfEscapeRune (r : Char) : List Char :=
  if r = '(' ∨ r = ')' ∨ r = '\\' then ['\\', r] else if isPrintable r then [r] else []

def pdfEscapeString (s : List UInt8) : List Char := (runes s).flatMap pdfEscapeRune

def fontSizePt : Nat := 10

def leadingPt : Nat := 14

def startX : Nat := 72

def startY : Nat := 720

def decimal (n : Nat) : List Char := Nat.toDigits 10 n

def textSetup : List Char :=
  "BT\n/F1 ".toList ++ decimal fontSizePt ++ " Tf\n".toList ++ decimal leadingPt ++ " TL\n".toList ++
  decimal startX ++ [' '] ++ decimal startY ++ " Td\n".toList

def showLine (line : List UInt8) : List Char :=
  '(' :: pdfEscapeString line ++ ") Tj T*\n".toList

def pageContent (lines : List (List UInt8)) : List Char :=
  textSetup ++ lines.flatMap showLine ++ "ET\n".toList

def streamObject (content : List Char) : List Char :=
  "4 0 obj\n<< /Length ".toList ++ decimal (utf8 content).length ++ " >>\nstream\n".toList ++
  content ++ "endstream\nendobj\n".toList

def catalogObject : List Char := "1 0 obj\n<< /Type /Catalog /Pages 2 0 R >>\nendobj\n".toList

def pagesObject : List Char := "2 0 obj\n<< /Type /Pages /Kids [3 0 R] /Count 1 >>\nendobj\n".toList

def pageObject : List Char :=
  "3 0 obj\n".toList ++ "<< /Type /Page /Parent 2 0 R /MediaBox [0 0 612 792]".toList ++
  " /Contents 4 0 R /Resources << /Font << /F1 5 0 R >> >> >>\n".toList ++ "endobj\n".toList

def fontObject : List Char :=
  "5 0 obj\n".toList ++ "<< /Type /Font /Subtype /Type1 /BaseFont /Helvetica".toList ++
  " /Encoding /WinAnsiEncoding >>\n".toList ++ "endobj\n".toList

def pdfObjects (content : List Char) : List (List Char) :=
  [catalogObject, pagesObject, pageObject, streamObject content, fontObject]

def xrefEntry (offset : Nat) : List Char := Text.padded 10 offset ++ " 00000 n \n".toList

def xrefHead : List Char := "xref\n0 6\n".toList

def xrefTable (offsets : List Nat) : List Char :=
  xrefHead ++ "0000000000 65535 f \n".toList ++ offsets.flatMap xrefEntry

def startxref (xrefOffset : Nat) : List Char :=
  "startxref\n".toList ++ decimal xrefOffset ++ ['\n'] ++ "%%EOF\n".toList

def pdfTrailer (xrefOffset : Nat) : List Char :=
  "trailer\n<< /Size 6 /Root 1 0 R >>\n".toList ++ startxref xrefOffset

def buildMinimalPDF (lines : List (List UInt8)) : List UInt8 :=
  let file := ((pdfObjects (pageContent lines)).map utf8).foldl place (utf8 "%PDF-1.4\n".toList, [])
  file.1 ++ utf8 (xrefTable file.2) ++ utf8 (pdfTrailer file.1.length)

def shown (line : List UInt8) : List Char := (runes line).filter isPrintable

section Reading

open Reader

variable (strings : List (List Char)) (read : List Char)

theorem foldl_pdfEscapeRune (r : Char) :
    (pdfEscapeRune r).foldl step ⟨strings, .inside 0 read .none⟩ =
      ⟨strings, .inside 0 (read ++ [r].filter isPrintable) .none⟩ := by
  rw [pdfEscapeRune]
  split
  · rename_i h
    rcases h with rfl | rfl | rfl <;> rfl
  · rename_i h
    obtain ⟨hopen, hclose, hback⟩ := not_or.mp h |>.imp_right not_or.mp
    split
    · rename_i hr
      have hcr : r ≠ '\r' := by
        rintro rfl
        exact absurd hr (by decide)
      rw [filter_cons_of_pos hr, filter_nil]
      simp only [foldl_cons, foldl_nil, step, plain, if_neg hback, if_neg hopen,
        if_neg hclose, if_neg hcr]
    · rename_i hr
      rw [filter_cons_of_neg hr, filter_nil, append_nil]
      rfl

theorem foldl_pdfEscapeString (rs : List Char) :
    (rs.flatMap pdfEscapeRune).foldl step ⟨strings, .inside 0 read .none⟩ =
      ⟨strings, .inside 0 (read ++ rs.filter isPrintable) .none⟩ := by
  induction rs generalizing read with
  | nil => simp
  | cons r rs ih =>
    rw [flatMap_cons, foldl_append, foldl_pdfEscapeRune, ih, append_assoc,
      ← filter_append, singleton_append]

theorem foldl_showLine (line : List UInt8) :
    (showLine line).foldl step ⟨strings, .outside⟩ = ⟨strings ++ [shown line], .outside⟩ := by
  have hclose : ∀ read, step ⟨strings, .inside 0 read .none⟩ ')' = ⟨strings ++ [read], .outside⟩ :=
    fun _ => rfl
  have hrest : ") Tj T*\n".toList = ')' :: " Tj T*\n".toList := by decide
  rw [showLine, cons_append, foldl_cons, foldl_append, hrest, foldl_cons]
  rw [show step ⟨strings, .outside⟩ '(' = ⟨strings, .inside 0 [] .none⟩ from rfl, pdfEscapeString,
    foldl_pdfEscapeString, hclose, nil_append, foldl_operators (by decide)]
  rfl

theorem literals_pageContent (lines : List (List UInt8)) :
    literals (pageContent lines) = lines.map shown := by
  have hlines : ∀ strings, (lines.flatMap showLine).foldl step ⟨strings, .outside⟩ =
      ⟨strings ++ lines.map shown, .outside⟩ := by
    induction lines with
    | nil => intro strings; simp
    | cons line lines ih =>
      intro strings
      rw [flatMap_cons, foldl_append, foldl_showLine, ih, map_cons, append_assoc,
        singleton_append]
  rw [literals, pageContent, foldl_append, foldl_append, foldl_operators (by decide), hlines,
    foldl_operators (by decide), nil_append]

end Reading

theorem isAscii_of_isDigit (h : c.isDigit = true) : isAscii c = true := by
  simp only [Char.isDigit, Bool.and_eq_true, decide_eq_true_eq] at h
  have hle : c.toNat ≤ 57 := UInt32.le_iff_toNat_le.mp h.2
  exact decide_eq_true (by omega)

theorem ascii_decimal (n : Nat) : (decimal n).all isAscii = true :=
  List.all_eq_true.mpr fun _ hc =>
    isAscii_of_isDigit (Nat.isDigit_of_mem_toDigits (by decide) (by decide) hc)

theorem ascii_pdfEscapeRune (r : Char) : (pdfEscapeRune r).all isAscii = true := by
  rw [pdfEscapeRune]
  split
  · rename_i h
    rcases h with rfl | rfl | rfl <;> decide
  · split
    · rename_i h
      have hle : r.toNat ≤ 0x7e := (of_decide_eq_true h).2
      simp only [all_cons, all_nil, Bool.and_true]
      exact decide_eq_true (by omega)
    · rfl

theorem ascii_append {t : List Char} (hs : s.all isAscii = true) (ht : t.all isAscii = true) :
    (s ++ t).all isAscii = true := by
  rw [all_append, hs, ht]
  rfl

theorem ascii_flatMap {α : Type} {f : α → List Char} (h : ∀ x, (f x).all isAscii = true)
    (l : List α) : (l.flatMap f).all isAscii = true := by
  rw [all_flatMap]
  exact List.all_eq_true.mpr fun x _ => h x

theorem ascii_pageContent (lines : List (List UInt8)) :
    (pageContent lines).all isAscii = true := by
  have hline : ∀ line, (showLine line).all isAscii = true := fun line =>
    ascii_append (ascii_append (s := ['(']) (by decide) (ascii_flatMap ascii_pdfEscapeRune _))
      (by decide)
  exact ascii_append (ascii_append (by decide) (ascii_flatMap hline lines)) (by decide)

theorem ascii_streamObject (h : content.all isAscii = true) :
    (streamObject content).all isAscii = true :=
  ascii_append (ascii_append (ascii_append (ascii_append (by decide) (ascii_decimal _)) (by decide)) h)
    (by decide)

theorem ascii_pdfObjects (h : content.all isAscii = true) :
    ∀ object ∈ pdfObjects content, object.all isAscii = true := by
  have hpage : pageObject.all isAscii = true :=
    ascii_append (ascii_append (ascii_append (by decide) (by decide)) (by decide)) (by decide)
  have hfont : fontObject.all isAscii = true :=
    ascii_append (ascii_append (ascii_append (by decide) (by decide)) (by decide)) (by decide)
  simp only [pdfObjects, forall_mem_cons]
  exact ⟨by decide, by decide, hpage, ascii_streamObject h, hfont, forall_mem_nil _⟩

theorem ascii_xrefTable (offsets : List Nat) : (xrefTable offsets).all isAscii = true := by
  have hpadded : ∀ offset, (Text.padded 10 offset).all isAscii = true := fun _ =>
    List.all_eq_true.mpr fun _ hc => isAscii_of_isDigit (Text.isDigit_of_mem_padded hc)
  have hentry : ∀ offset, (xrefEntry offset).all isAscii = true := fun offset =>
    ascii_append (hpadded offset) (by decide)
  exact ascii_append (ascii_append (by decide) (by decide)) (ascii_flatMap hentry offsets)

theorem ascii_pdfTrailer (xrefOffset : Nat) : (pdfTrailer xrefOffset).all isAscii = true :=
  ascii_append (by decide)
    (ascii_append (ascii_append (ascii_append (by decide) (ascii_decimal xrefOffset)) (by decide))
      (by decide))

def entryOffset (file : List Char) (table k : Nat) : Option Nat :=
  Text.digits ((file.drop (table + xrefHead.length + 20 * k)).take 10)

structure ReadsAs (objects : List (List Char)) (table : Nat) (file : List Char) : Prop where
  start : startxref table <:+ file
  head : xrefHead <+: file.drop table
  numbered : ∀ (k : Nat) object, objects[k]? = some object →
    decimal (k + 1) ++ " 0 obj\n".toList <+: object
  found : ∀ (k : Nat) object, objects[k]? = some object →
    ∃ offset, entryOffset file table (k + 1) = some offset ∧ object <+: file.drop offset

theorem entryOffset_xrefTable (h : ∀ offset ∈ offsets, offset < 10 ^ 10) (body rest : List Char)
    (hk : offsets[k]? = some offset) :
    entryOffset (body ++ (xrefTable offsets ++ rest)) body.length (k + 1) = some offset := by
  have hlen : ∀ offset ∈ offsets, (Text.padded 10 offset).length = 10 := fun offset ho =>
    Text.length_padded (by decide) (h offset ho)
  have hwidth : ∀ e ∈ "0000000000 65535 f \n".toList :: offsets.map xrefEntry, e.length = 20 := by
    intro e he
    rcases mem_cons.mp he with rfl | he
    · rfl
    · obtain ⟨o, ho, rfl⟩ := List.mem_map.mp he
      rw [xrefEntry, length_append, hlen o ho]
      rfl
  have hentry := prefix_drop_flatten hwidth rest (k := k + 1) (e := xrefEntry offset)
    (by rw [getElem?_cons_succ, getElem?_map, hk]; rfl)
  obtain ⟨after, hafter⟩ := hentry
  have htable : xrefTable offsets ++ rest = xrefHead ++
      (("0000000000 65535 f \n".toList :: offsets.map xrefEntry).flatten ++ rest) := by
    rw [xrefTable, flatten_cons, flatMap_def, append_assoc, append_assoc,
      append_assoc]
  rw [entryOffset, Nat.add_assoc, drop_length_add_append, htable, drop_length_add_append,
    ← hafter, xrefEntry, append_assoc,
    take_left' (hlen offset (mem_of_getElem? hk)), Text.digits_padded]

theorem numbered_pdfObjects (content : List Char) (k : Nat) (object : List Char)
    (hk : (pdfObjects content)[k]? = some object) :
    decimal (k + 1) ++ " 0 obj\n".toList <+: object := by
  have hstream : decimal 4 ++ " 0 obj\n".toList <+: streamObject content := by
    have hopen : decimal 4 ++ " 0 obj\n".toList <+: "4 0 obj\n<< /Length ".toList := by decide
    exact hopen.trans ((((List.prefix_append ..).trans (List.prefix_append ..)).trans
      (List.prefix_append ..)).trans (List.prefix_append ..))
  rcases k with _ | _ | _ | _ | _ | k
  · obtain rfl := some.inj hk
    decide
  · obtain rfl := some.inj hk
    decide
  · obtain rfl := some.inj hk
    decide
  · obtain rfl := some.inj hk
    exact hstream
  · obtain rfl := some.inj hk
    decide
  · exact absurd hk (by simp [pdfObjects])

theorem buildMinimalPDF_reads {lines : List (List UInt8)}
    (h : (buildMinimalPDF lines).length < 10 ^ 10) :
    ∃ objects table stream, objects.length = 5 ∧
      ReadsAs objects table (octets (buildMinimalPDF lines)) ∧
      objects[3]? = some ("4 0 obj\n<< /Length ".toList ++ decimal stream.length ++
        " >>\nstream\n".toList ++ stream ++ "endstream\nendobj\n".toList) ∧
      literals stream = lines.map shown := by
  have hascii := ascii_pageContent lines
  have hobjects := ascii_pdfObjects hascii
  have hlength : (utf8 (pageContent lines)).length = (pageContent lines).length := by
    rw [← length_map, ← octets, octets_utf8 hascii]
  have hplaced := placed_foldl (utf8 "%PDF-1.4\n".toList) ((pdfObjects (pageContent lines)).map utf8)
  generalize hfile : ((pdfObjects (pageContent lines)).map utf8).foldl place
    (utf8 "%PDF-1.4\n".toList, []) = file at hplaced
  have hbuild : buildMinimalPDF lines =
      file.1 ++ (utf8 (xrefTable file.2) ++ utf8 (pdfTrailer file.1.length)) := by
    rw [buildMinimalPDF, hfile, append_assoc]
  have hoctets : octets (buildMinimalPDF lines) =
      octets file.1 ++ (xrefTable file.2 ++ pdfTrailer file.1.length) := by
    rw [hbuild, octets_append, octets_append, octets_utf8 (ascii_xrefTable _),
      octets_utf8 (ascii_pdfTrailer _)]
  have hbody : (octets file.1).length = file.1.length := length_map _
  have hsize : file.1.length ≤ (buildMinimalPDF lines).length := by
    rw [hbuild, length_append]
    omega
  refine ⟨pdfObjects (pageContent lines), file.1.length, pageContent lines, rfl,
    ⟨?_, ?_, numbered_pdfObjects _, ?_⟩, ?_, literals_pageContent lines⟩
  · rw [hoctets]
    exact (suffix_append ..).trans ((suffix_append ..).trans (suffix_append ..))
  · rw [hoctets, ← hbody, drop_left, xrefTable, append_assoc, append_assoc]
    exact List.prefix_append ..
  · intro k object hk
    obtain ⟨offset, hoffset, hle, hprefix⟩ := hplaced.found k (utf8 object)
      (by rw [getElem?_map, hk]; rfl)
    refine ⟨offset, ?_, ?_⟩
    · rw [hoctets, ← hbody]
      refine entryOffset_xrefTable (fun o ho => ?_) _ _ hoffset
      exact Nat.lt_of_le_of_lt ((hplaced.le ho).trans hsize) h
    · rw [octets_drop, hbuild, drop_append_of_le_length hle, octets_append]
      obtain ⟨rest, hrest⟩ := hprefix
      rw [← hrest, octets_append, octets_utf8 (hobjects object (mem_of_getElem? hk)),
        append_assoc]
      exact List.prefix_append ..
  · rw [← hlength]
    rfl

def markedLine : List UInt8 := utf8 "f(x)\\é".toList

theorem shown_markedLine : shown markedLine = "f(x)\\".toList := by
  rw [shown, markedLine, runes_utf8]
  decide

theorem markedLine_reads : ∃ objects table stream,
    ReadsAs objects table (octets (buildMinimalPDF [markedLine])) ∧
      objects[3]? = some ("4 0 obj\n<< /Length ".toList ++ decimal stream.length ++
        " >>\nstream\n".toList ++ stream ++ "endstream\nendobj\n".toList) ∧
      literals stream = ["f(x)\\".toList] := by
  have hsize : (buildMinimalPDF [markedLine]).length < 10 ^ 10 := by decide +kernel
  obtain ⟨objects, table, stream, -, hreads, hstream, hlit⟩ := buildMinimalPDF_reads hsize
  rw [map_singleton, shown_markedLine] at hlit
  exact ⟨objects, table, stream, hreads, hstream, hlit⟩

end Morf.Utils
