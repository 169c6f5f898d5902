import Mathlib.Data.List.Basic

/-! JSON texts: values, the indented text that Go's `json.MarshalIndent` writes for a value, and a
reader which accepts what `json.Unmarshal` accepts. -/

namespace Morf.Lib

open List Option

inductive Json
  | null
  | bool (b : Bool)
  | number (literal : List Char)
  | string (s : List Char)
  | array (items : List Json)
  | object (members : List (List Char × Json))

namespace Json

def hexDigit (n : Nat) : Char := "0123456789abcdef".toList.getD n '0'

def hexValue (c : Char) : Option Nat :=
  if '0' ≤ c ∧ c ≤ '9' then some (c.toNat - '0'.toNat)
  else if 'a' ≤ c ∧ c ≤ 'f' then some (c.toNat - 'a'.toNat + 10)
  else if 'A' ≤ c ∧ c ≤ 'F' then some (c.toNat - 'A'.toNat + 10)
  else none

def shortEscapes : List (Char × Char) :=
  [('"', '"'), ('\\', '\\'), ('\x08', 'b'), ('\x0c', 'f'), ('\n', 'n'), ('\r', 'r'), ('\t', 't')]

def unescape (e : Char) : Option Char :=
  if e = '/' then some '/' else (shortEscapes.find? (·.2 = e)).map (·.1)

/-- Characters that are written as `\u` and four digits. -/
def isCoded (c : Char) : Bool :=
  c.toNat < 0x20 || c = '<' || c = '>' || c = '&' || c.toNat = 0x2028 || c.toNat = 0x2029

def quoteChar (c : Char) : List Char :=
  match shortEscapes.find? (·.1 = c) with
  | some (_, e) => ['\\', e]
  | none =>
    if isCoded c then
      ['\\', 'u', hexDigit (c.toNat / 4096), hexDigit (c.toNat / 256 % 16),
        hexDigit (c.toNat / 16 % 16), hexDigit (c.toNat % 16)]
    else [c]

def quote (s : List Char) : List Char := '"' :: (s.flatMap quoteChar ++ ['"'])

def newline (depth : Nat) : List Char := '\n' :: List.replicate (2 * depth) ' '

mutual

def indent : Nat → Json → List Char
  | _, .null => ['n', 'u', 'l', 'l']
  | _, .bool true => ['t', 'r', 'u', 'e']
  | _, .bool false => ['f', 'a', 'l', 's', 'e']
  | _, .number literal => literal
  | _, .string s => quote s
  | _, .array [] => ['[', ']']
  | d, .array (x :: xs) =>
    '[' :: (newline (d + 1) ++ indent (d + 1) x ++ indentItems (d + 1) xs ++ newline d ++ [']'])
  | _, .object [] => ['{', '}']
  | d, .object ((k, v) :: ms) =>
    '{' :: (newline (d + 1) ++ quote k ++ [':', ' '] ++ indent (d + 1) v ++ indentMembers (d + 1) ms ++
      newline d ++ ['}'])

def indentItems : Nat → List Json → List Char
  | _, [] => []
  | d, x :: xs => ',' :: (newline d ++ indent d x ++ indentItems d xs)

def indentMembers : Nat → List (List Char × Json) → List Char
  | _, [] => []
  | d, (k, v) :: ms =>
    ',' :: (newline d ++ quote k ++ [':', ' '] ++ indent d v ++ indentMembers d ms)

end

/-- A piece of a string: a character, or the number of a `\u` escape. -/
inductive Piece
  | char (c : Char)
  | code (n : Nat)

def scanCode (a b c d : Char) : Option Nat := do
  return (← hexValue a) * 4096 + (← hexValue b) * 256 + (← hexValue c) * 16 + (← hexValue d)

def scanString : List Char → Option (List Piece × List Char)
  | [] => none
  | c :: t =>
    if c = '"' then some ([], t)
    else if c = '\\' then
      match t with
      | 'u' :: x :: y :: z :: w :: t => do
        let n ← scanCode x y z w
        let (ps, rest) ← scanString t
        return (.code n :: ps, rest)
      | e :: t => do
        let e ← unescape e
        let (ps, rest) ← scanString t
        return (.char e :: ps, rest)
      | [] => none
    else if c.toNat < 0x20 then none
    else do
      let (ps, rest) ← scanString t
      return (.char c :: ps, rest)

def isHigh (n : Nat) : Bool := 0xd800 ≤ n && n < 0xdc00

def isLow (n : Nat) : Bool := 0xdc00 ≤ n && n < 0xe000

def ofCode (n : Nat) : Char := if isHigh n || isLow n then '�' else Char.ofNat n

def decode : List Piece → List Char
  | [] => []
  | .char c :: ps => c :: decode ps
  | .code n :: .code m :: ps =>
    if isHigh n && isLow m then
      Char.ofNat ((n - 0xd800) * 0x400 + (m - 0xdc00) + 0x10000) :: decode ps
    else ofCode n :: decode (.code m :: ps)
  | .code n :: ps => ofCode n :: decode ps

def isBlank (c : Char) : Bool := c = ' ' || c = '\t' || c = '\n' || c = '\r'

def skip (t : List Char) : List Char := t.dropWhile isBlank

def isDigit (c : Char) : Bool := '0' ≤ c && c ≤ '9'

def scanDigits (t : List Char) : Option (List Char × List Char) :=
  if t.takeWhile isDigit = [] then none else some (t.takeWhile isDigit, t.dropWhile isDigit)

def scanInt : List Char → Option (List Char × List Char)
  | '0' :: t => some (['0'], t)
  | t => scanDigits t

def scanFraction : List Char → Option (List Char × List Char)
  | '.' :: t => (scanDigits t).map fun (ds, t) => ('.' :: ds, t)
  | t => some ([], t)

def scanExponent : List Char → Option (List Char × List Char)
  | e :: t =>
    if e = 'e' ∨ e = 'E' then
      match t with
      | s :: t =>
        if s = '+' ∨ s = '-' then (scanDigits t).map fun (ds, t) => (e :: s :: ds, t)
        else (scanDigits (s :: t)).map fun (ds, t) => (e :: ds, t)
      | [] => none
    else some ([], e :: t)
  | [] => some ([], [])

def scanUnsigned (t : List Char) : Option (List Char × List Char) := do
  let (i, t) ← scanInt t
  let (f, t) ← scanFraction t
  let (e, t) ← scanExponent t
  return (i ++ f ++ e, t)

def scanNumber : List Char → Option (List Char × List Char)
  | '-' :: t => (scanUnsigned t).map fun (ds, t) => ('-' :: ds, t)
  | t => scanUnsigned t

mutual

/-- The number bounds the depth of the recursion: the length of the text is always enough. -/
def scanValue : Nat → List Char → Option (Json × List Char)
  | 0, _ => none
  | n + 1, t =>
    match skip t with
    | 'n' :: 'u' :: 'l' :: 'l' :: t => some (.null, t)
    | 't' :: 'r' :: 'u' :: 'e' :: t => some (.bool true, t)
    | 'f' :: 'a' :: 'l' :: 's' :: 'e' :: t => some (.bool false, t)
    | '"' :: t => (scanString t).map fun (ps, t) => (.string (decode ps), t)
    | '[' :: t =>
      if (skip t).head? = some ']' then some (.array [], (skip t).tail)
      else do
        let (x, t) ← scanValue n t
        let (xs, t) ← scanItems n t
        return (.array (x :: xs), t)
    | '{' :: t =>
      if (skip t).head? = some '}' then some (.object [], (skip t).tail)
      else do
        let (m, t) ← scanMember n t
        let (ms, t) ← scanMembers n t
        return (.object (m :: ms), t)
    | t => (scanNumber t).map fun (literal, t) => (.number literal, t)

def scanItems : Nat → List Char → Option (List Json × List Char)
  | 0, _ => none
  | n + 1, t =>
    match skip t with
    | ']' :: t => some ([], t)
    | ',' :: t => do
      let (x, t) ← scanValue n t
      let (xs, t) ← scanItems n t
      return (x :: xs, t)
    | _ => none

def scanMember : Nat → List Char → Option ((List Char × Json) × List Char)
  | 0, _ => none
  | n + 1, t =>
    match skip t with
    | '"' :: t => do
      let (ps, t) ← scanString t
      match skip t with
      | ':' :: t => do
        let (v, t) ← scanValue n t
        return ((decode ps, v), t)
      | _ => none
    | _ => none

def scanMembers : Nat → List Char → Option (List (List Char × Json) × List Char)
  | 0, _ => none
  | n + 1, t =>
    match skip t with
    | '}' :: t => some ([], t)
    | ',' :: t => do
      let (m, t) ← scanMember n t
      let (ms, t) ← scanMembers n t
      return (m :: ms, t)
    | _ => none

end

def parse (t : List Char) : Option Json := do
  let (v, rest) ← scanValue (t.length + 1) t
  if skip rest = [] then some v else none

def pieceOf (c : Char) : Piece :=
  if (shortEscapes.find? (·.1 = c)).isNone && isCoded c then .code c.toNat else .char c

theorem hexValue_hexDigit (h : n < 16) : hexValue (hexDigit n) = some n := by
  have key : ∀ i : Fin 16, hexValue (hexDigit i) = some i.1 := by decide
  exact key ⟨n, h⟩

theorem scanCode_hexDigit (h : n < 65536) :
    scanCode (hexDigit (n / 4096)) (hexDigit (n / 256 % 16)) (hexDigit (n / 16 % 16))
      (hexDigit (n % 16)) = some n := by
  have h₁ : hexValue (hexDigit (n / 4096)) = some (n / 4096) := hexValue_hexDigit (by omega)
  have h₂ : hexValue (hexDigit (n / 256 % 16)) = some (n / 256 % 16) := hexValue_hexDigit (by omega)
  have h₃ : hexValue (hexDigit (n / 16 % 16)) = some (n / 16 % 16) := hexValue_hexDigit (by omega)
  have h₄ : hexValue (hexDigit (n % 16)) = some (n % 16) := hexValue_hexDigit (by omega)
  simp only [scanCode, h₁, h₂, h₃, h₄, Option.pure_def, bind_eq_bind, bind_some,
    some.injEq]
  omega

theorem unescape_shortEscapes : ∀ p ∈ shortEscapes, p.2 ≠ 'u' ∧ unescape p.2 = some p.1 := by
  decide

theorem isCoded_lt (h : isCoded c = true) : c.toNat < 0xd800 := by
  simp only [isCoded, Bool.or_eq_true, decide_eq_true_eq] at h
  rcases h with ((((h | rfl) | rfl) | rfl) | h) | h
  · omega
  · decide
  · decide
  · decide
  · omega
  · omega

theorem scanString_quoteChar (c : Char) (t : List Char) :
    scanString (quoteChar c ++ t) = (scanString t).map fun p => (pieceOf c :: p.1, p.2) := by
  unfold quoteChar pieceOf
  cases hf : shortEscapes.find? (·.1 = c) with
  | some p =>
    obtain ⟨c', e⟩ := p
    have hc : c' = c := by simpa using find?_some hf
    obtain ⟨hu, he⟩ := unescape_shortEscapes _ (mem_of_find?_eq_some hf)
    subst hc
    cases hs : scanString t <;> simp [scanString, hu, he, hs]
  | none =>
    by_cases hc : isCoded c = true
    · have hn := scanCode_hexDigit (Nat.lt_trans (isCoded_lt hc) (by decide))
      cases hs : scanString t <;> simp [scanString, hc, hn, hs]
    · have hq : c ≠ '"' := fun h => absurd hf (by rw [h]; decide)
      have hb : c ≠ '\\' := fun h => absurd hf (by rw [h]; decide)
      have hl : ¬ c.toNat < 0x20 := fun h => hc (by simp [isCoded, h])
      rw [if_neg hc, singleton_append, scanString.eq_def]
      cases hs : scanString t <;> simp [hc, hq, hb, hl, hs]

theorem scanString_quote (s t : List Char) :
    scanString (s.flatMap quoteChar ++ '"' :: t) = some (s.map pieceOf, t) := by
  induction s with
  | nil => rw [flatMap_nil, nil_append, scanString.eq_def]; rfl
  | cons c s ih => simp [append_assoc, scanString_quoteChar, ih]

theorem ofCode_toNat (h : c.toNat < 0xd800) : ofCode c.toNat = c := by
  have hn : (isHigh c.toNat || isLow c.toNat) = false := by
    simp only [isHigh, isLow, Bool.or_eq_false_iff, Bool.and_eq_false_iff, decide_eq_false_iff_not]
    omega
  simp [ofCode, hn]

theorem decode_pieceOf (c : Char) (ps : List Piece) :
    decode (pieceOf c :: ps) = c :: decode ps := by
  unfold pieceOf
  split
  case isTrue h =>
    have hlt : c.toNat < 0xd800 := isCoded_lt (by simpa using (Bool.and_eq_true_iff.mp h).2)
    have hh : isHigh c.toNat = false := by simp [isHigh]; omega
    match ps with
    | [] | .char _ :: _ => simp [decode, ofCode_toNat hlt]
    | .code m :: ps => simp [decode, hh, ofCode_toNat hlt]
  case isFalse => simp [decode]

theorem decode_map_pieceOf (s : List Char) : decode (s.map pieceOf) = s := by
  induction s with
  | nil => rfl
  | cons c s ih => rw [map_cons, decode_pieceOf, ih]

theorem skip_blank (hb : ∀ c ∈ b, isBlank c = true) (t : List Char) : skip (b ++ t) = skip t := by
  induction b with
  | nil => rfl
  | cons c b ih =>
    rw [cons_append, skip, dropWhile_cons, if_pos (hb c mem_cons_self)]
    exact ih fun x hx => hb x (mem_cons_of_mem c hx)

theorem skip_cons (h : isBlank c = false) (t : List Char) : skip (c :: t) = c :: t := by
  simp [skip, h]

mutual

def isPlain : Json → Bool
  | .null => true
  | .bool _ => true
  | .number _ => false
  | .string _ => true
  | .array xs => plainItems xs
  | .object ms => plainMembers ms

def plainItems : List Json → Bool
  | [] => true
  | x :: xs => isPlain x && plainItems xs

def plainMembers : List (List Char × Json) → Bool
  | [] => true
  | (_, v) :: ms => isPlain v && plainMembers ms

end

def inNumber (c : Char) : Bool := isDigit c || c = '.' || c = 'e' || c = 'E'

def Ends : List Char → Prop
  | [] => True
  | c :: _ => inNumber c = false

theorem Ends.not_digit (h : Ends (c :: t)) : isDigit c = false := by
  simp only [Ends, inNumber, Bool.or_eq_false_iff] at h
  exact h.1.1.1

theorem scanDigits_append (hr : Ends rest) (h : scanDigits t = some (x, t')) :
    scanDigits (t ++ rest) = some (x, t' ++ rest) := by
  unfold scanDigits at h ⊢
  split at h
  · cases h
  · rename_i hne
    cases h
    have htake : (t ++ rest).takeWhile isDigit = t.takeWhile isDigit ∧
        (t ++ rest).dropWhile isDigit = t.dropWhile isDigit ++ rest := by
      clear hne
      induction t with
      | nil =>
        cases rest with
        | nil => exact ⟨rfl, rfl⟩
        | cons c u => simp [hr.not_digit]
      | cons c t ih =>
        cases hc : isDigit c with
        | true => simpa [hc] using ih
        | false => simp [hc]
    rw [htake.1, htake.2, if_neg hne]

theorem scanInt_append (hr : Ends rest) (h : scanInt t = some (x, t')) :
    scanInt (t ++ rest) = some (x, t' ++ rest) := by
  unfold scanInt at h
  split at h
  · cases h
    rfl
  · rename_i hzero
    cases t with
    | nil => cases h
    | cons c t =>
      have hc : c ≠ '0' := fun hc => hzero t (by rw [hc])
      have := scanDigits_append hr h
      unfold scanInt
      split
      · rename_i heq
        exact absurd (cons.inj heq).1 hc
      · exact this

theorem scanFraction_append (hr : Ends rest) (h : scanFraction t = some (x, t')) :
    scanFraction (t ++ rest) = some (x, t' ++ rest) := by
  unfold scanFraction at h
  split at h
  · obtain ⟨⟨ds, u⟩, hds, hx⟩ := map_eq_some_iff.mp h
    cases hx
    rw [cons_append, scanFraction, scanDigits_append hr hds]
    rfl
  · rename_i hdot
    cases h
    unfold scanFraction
    split
    · rename_i u heq
      cases t with
      | nil =>
        rw [nil_append] at heq
        rw [heq] at hr
        cases hr
      | cons c t => exact absurd (by rw [(cons.inj heq).1]) (hdot t)
    · rfl

theorem scanExponent_append (hr : Ends rest) (h : scanExponent t = some (x, t')) :
    scanExponent (t ++ rest) = some (x, t' ++ rest) := by
  cases t with
  | nil =>
    cases h
    cases rest with
    | nil => rfl
    | cons c u =>
      have hc : ¬ (c = 'e' ∨ c = 'E') := by
        simp only [Ends, inNumber, Bool.or_eq_false_iff, decide_eq_false_iff_not] at hr
        rintro (rfl | rfl)
        · exact hr.1.2 rfl
        · exact hr.2 rfl
      rw [nil_append, scanExponent.eq_def]
      exact if_neg hc
  | cons c t =>
    rw [scanExponent.eq_def] at h
    rw [cons_append, scanExponent.eq_def]
    dsimp only at h ⊢
    split at h
    · rename_i hc
      rw [if_pos hc]
      cases t with
      | nil => cases h
      | cons s t =>
        simp only [cons_append] at h ⊢
        split at h
        · rename_i hs
          obtain ⟨⟨ds, u⟩, hds, hx⟩ := map_eq_some_iff.mp h
          cases hx
          rw [if_pos hs, scanDigits_append hr hds]
          rfl
        · rename_i hs
          obtain ⟨⟨ds, u⟩, hds, hx⟩ := map_eq_some_iff.mp h
          cases hx
          have := scanDigits_append hr hds
          rw [cons_append] at this
          rw [if_neg hs, this]
          rfl
    · rename_i hc
      cases h
      rw [if_neg hc]
      rfl

theorem scanUnsigned_append (hr : Ends rest) (h : scanUnsigned t = some (x, t')) :
    scanUnsigned (t ++ rest) = some (x, t' ++ rest) := by
  simp only [scanUnsigned, Option.pure_def, bind_eq_bind, bind_eq_some_iff] at h
  obtain ⟨⟨i, t₁⟩, hi, ⟨f, t₂⟩, hf, ⟨e, t₃⟩, he, hx⟩ := h
  cases hx
  simp only [scanUnsigned, scanInt_append hr hi, scanFraction_append hr hf,
    scanExponent_append hr he, Option.pure_def, bind_eq_bind, bind_some]

theorem head_digits (h : scanDigits t = some (x, t')) : ∃ c u, t = c :: u ∧ isDigit c = true := by
  cases t with
  | nil => cases h
  | cons c u =>
    refine ⟨c, u, rfl, ?_⟩
    by_contra hc
    simp [scanDigits, hc] at h

theorem head_unsigned (h : scanUnsigned t = some (x, t')) :
    ∃ c u, t = c :: u ∧ isDigit c = true := by
  simp only [scanUnsigned, Option.pure_def, bind_eq_bind, bind_eq_some_iff] at h
  obtain ⟨⟨i, t₁⟩, hi, -⟩ := h
  unfold scanInt at hi
  split at hi
  · exact ⟨_, _, rfl, by decide⟩
  · exact head_digits hi

theorem scanNumber_append (hr : Ends rest) (h : scanNumber t = some (x, t')) :
    scanNumber (t ++ rest) = some (x, t' ++ rest) := by
  unfold scanNumber at h
  split at h
  · obtain ⟨⟨ds, u⟩, hds, hx⟩ := map_eq_some_iff.mp h
    cases hx
    rw [cons_append, scanNumber, scanUnsigned_append hr hds]
    rfl
  · have := scanUnsigned_append hr h
    obtain ⟨c, u, rfl, hc⟩ := head_unsigned h
    unfold scanNumber
    split
    · rename_i heq
      rw [(cons.inj heq).1] at hc
      cases hc
    · exact this

theorem not_blank_of_number (hc : c = '-' ∨ isDigit c = true) : isBlank c = false := by
  rw [← Bool.not_eq_true]
  intro hb
  simp only [isBlank, Bool.or_eq_true, decide_eq_true_eq] at hb
  rcases hb with ((rfl | rfl) | rfl) | rfl <;> exact absurd hc (by decide)

theorem head_number (h : scanNumber t = some (x, t')) :
    ∃ c u, t = c :: u ∧ (c = '-' ∨ isDigit c = true) := by
  unfold scanNumber at h
  split at h
  · exact ⟨_, _, rfl, .inl rfl⟩
  · obtain ⟨c, u, rfl, hc⟩ := head_unsigned h
    exact ⟨c, u, rfl, .inr hc⟩

/-- Blanks between the parts of a text: at the start of a line and after a colon. -/
structure Layout where
  line : Nat → List Char
  gap : List Char
  blank_line : ∀ d, ∀ c ∈ line d, isBlank c = true
  blank_gap : ∀ c ∈ gap, isBlank c = true

def Layout.indented : Layout where
  line := newline
  gap := [' ']
  blank_line d c hc := by
    rcases List.mem_cons.mp hc with rfl | hc
    · rfl
    · rw [List.eq_of_mem_replicate hc]
      rfl
  blank_gap c hc := by
    rw [List.mem_singleton.mp hc]
    rfl

def Layout.compact : Layout := ⟨fun _ => [], [], by simp, by simp⟩

mutual

def write (l : Layout) : Nat → Json → List Char
  | _, .null => ['n', 'u', 'l', 'l']
  | _, .bool true => ['t', 'r', 'u', 'e']
  | _, .bool false => ['f', 'a', 'l', 's', 'e']
  | _, .number literal => literal
  | _, .string s => quote s
  | _, .array [] => ['[', ']']
  | d, .array (x :: xs) =>
    '[' :: (l.line (d + 1) ++ write l (d + 1) x ++ writeItems l (d + 1) xs ++ l.line d ++ [']'])
  | _, .object [] => ['{', '}']
  | d, .object ((k, v) :: ms) =>
    '{' :: (l.line (d + 1) ++ quote k ++ (':' :: l.gap) ++ write l (d + 1) v ++
      writeMembers l (d + 1) ms ++ l.line d ++ ['}'])

def writeItems (l : Layout) : Nat → List Json → List Char
  | _, [] => []
  | d, x :: xs => ',' :: (l.line d ++ write l d x ++ writeItems l d xs)

def writeMembers (l : Layout) : Nat → List (List Char × Json) → List Char
  | _, [] => []
  | d, (k, v) :: ms =>
    ',' :: (l.line d ++ quote k ++ (':' :: l.gap) ++ write l d v ++ writeMembers l d ms)

end

mutual

theorem indent_eq_write (d : Nat) : (v : Json) → indent d v = write .indented d v
  | .null | .bool true | .bool false | .number _ | .string _ | .array [] | .object [] => rfl
  | .array (x :: xs) => by
    rw [indent, write, indent_eq_write (d + 1) x, indentItems_eq_write (d + 1) xs]
    rfl
  | .object ((k, v) :: ms) => by
    rw [indent, write, indent_eq_write (d + 1) v, indentMembers_eq_write (d + 1) ms]
    rfl

theorem indentItems_eq_write (d : Nat) :
    (xs : List Json) → indentItems d xs = writeItems .indented d xs
  | [] => rfl
  | x :: xs => by
    rw [indentItems, writeItems, indent_eq_write d x, indentItems_eq_write d xs]
    rfl

theorem indentMembers_eq_write (d : Nat) :
    (ms : List (List Char × Json)) → indentMembers d ms = writeMembers .indented d ms
  | [] => rfl
  | (k, v) :: ms => by
    rw [indentMembers, writeMembers, indent_eq_write d v, indentMembers_eq_write d ms]
    rfl

end

mutual

def Literal : Json → Prop
  | .null | .bool _ | .string _ => True
  | .number literal => scanNumber literal = some (literal, [])
  | .array xs => LiteralItems xs
  | .object ms => LiteralMembers ms

def LiteralItems : List Json → Prop
  | [] => True
  | x :: xs => Literal x ∧ LiteralItems xs

def LiteralMembers : List (List Char × Json) → Prop
  | [] => True
  | (_, v) :: ms => Literal v ∧ LiteralMembers ms

end

mutual

theorem Literal.of_plain : (v : Json) → isPlain v = true → Literal v
  | .null, _ | .bool _, _ | .string _, _ => trivial
  | .number _, h => by cases h
  | .array xs, h => LiteralItems.of_plain xs h
  | .object ms, h => LiteralMembers.of_plain ms h

theorem LiteralItems.of_plain : (xs : List Json) → plainItems xs = true → LiteralItems xs
  | [], _ => trivial
  | x :: xs, h =>
    have h := Bool.and_eq_true_iff.mp h
    ⟨Literal.of_plain x h.1, LiteralItems.of_plain xs h.2⟩

theorem LiteralMembers.of_plain : (ms : List (List Char × Json)) → plainMembers ms = true →
    LiteralMembers ms
  | [], _ => trivial
  | (_, v) :: ms, h =>
    have h := Bool.and_eq_true_iff.mp h
    ⟨Literal.of_plain v h.1, LiteralMembers.of_plain ms h.2⟩

end

section

variable (l : Layout) (d n : Nat) (rest : List Char)

theorem ends_line (hc : inNumber c = false) : Ends (l.line d ++ c :: rest) := by
  cases h : l.line d with
  | nil => exact hc
  | cons b bs =>
    have hb : isBlank b = true := l.blank_line d b (by rw [h]; exact mem_cons_self)
    simp only [isBlank, Bool.or_eq_true, decide_eq_true_eq] at hb
    rcases hb with ((rfl | rfl) | rfl) | rfl <;> rfl

theorem ends_items (xs : List Json) : Ends (writeItems l d xs ++ (l.line n ++ ']' :: rest)) := by
  cases xs with
  | nil => exact ends_line l n rest (by decide)
  | cons => exact (by decide : inNumber ',' = false)

theorem ends_members (ms : List (List Char × Json)) :
    Ends (writeMembers l d ms ++ (l.line n ++ '}' :: rest)) := by
  cases ms with
  | nil => exact ends_line l n rest (by decide)
  | cons => exact (by decide : inNumber ',' = false)

theorem head_write (hv : Literal v) :
    ∃ c t, write l d v = c :: t ∧ isBlank c = false ∧ c ≠ ']' := by
  match v with
  | .null | .bool true | .bool false | .string _ | .array [] | .array (_ :: _) | .object []
  | .object ((_, _) :: _) => exact ⟨_, _, rfl, by decide, by decide⟩
  | .number t =>
    obtain ⟨c, u, rfl, hc⟩ := head_number hv
    refine ⟨c, u, rfl, not_blank_of_number hc, ?_⟩
    rintro rfl
    exact absurd hc (by decide)

end

theorem scanValue_of_skip (h : skip t = skip t') (n : Nat) : scanValue n t = scanValue n t' := by
  cases n with
  | zero => rfl
  | succ n => rw [scanValue, scanValue, h]

theorem scanMember_line (l : Layout) (n d : Nat) (t : List Char) :
    scanMember n (l.line d ++ t) = scanMember n t := by
  cases n with
  | zero => rfl
  | succ n => rw [scanMember, scanMember, skip_blank (l.blank_line d)]

theorem scanMember_quote (t : List Char) (hv : scanValue n (write l d v ++ t) = some (v, rest)) :
    scanMember (n + 1) (quote k ++ (':' :: l.gap) ++ write l d v ++ t) = some ((k, v), rest) := by
  have hk : skip (quote k ++ (':' :: l.gap) ++ write l d v ++ t) =
      '"' :: (k.flatMap quoteChar ++ '"' :: (':' :: (l.gap ++ (write l d v ++ t)))) := by
    simp [quote, skip_cons (c := '"') (by decide)]
  have hs := skip_blank l.blank_gap (write l d v ++ t)
  rw [scanMember, hk]
  simp [scanString_quote, skip_cons (c := ':') (by decide), scanValue_of_skip hs, hv,
    decode_map_pieceOf]

theorem length_quote (s : List Char) : 2 ≤ (quote s).length := by simp [quote]

theorem scanValue_number (hr : Ends rest) (hx : scanNumber x = some (x, [])) :
    scanValue (n + 1) (x ++ rest) = some (.number x, rest) := by
  have happ := scanNumber_append hr hx
  obtain ⟨c, u, rfl, hc⟩ := head_number hx
  rw [cons_append] at happ ⊢
  rw [scanValue, skip_cons (not_blank_of_number hc)]
  split
  case h_7 =>
    rw [happ]
    rfl
  -- no other value begins as a number does
  all_goals
    rename_i heq
    rw [(cons.inj heq).1] at hc
    exact absurd hc (by decide)

theorem scanValue_array (hne : (skip t).head? ≠ some ']') (hx : scanValue n t = some (x, t'))
    (hxs : scanItems n t' = some (xs, rest)) :
    scanValue (n + 1) ('[' :: t) = some (.array (x :: xs), rest) := by
  rw [scanValue, skip_cons (c := '[') (by decide)]
  simp only [if_neg hne, hx, hxs, Option.pure_def, bind_eq_bind, bind_some]

theorem scanValue_object (hne : (skip t).head? ≠ some '}') (hm : scanMember n t = some (m, t'))
    (hms : scanMembers n t' = some (ms, rest)) :
    scanValue (n + 1) ('{' :: t) = some (.object (m :: ms), rest) := by
  rw [scanValue, skip_cons (c := '{') (by decide)]
  simp only [if_neg hne, hm, hms, Option.pure_def, bind_eq_bind, bind_some]

theorem scanItems_comma (hx : scanValue n t = some (x, t')) (hxs : scanItems n t' = some (xs, rest)) :
    scanItems (n + 1) (',' :: t) = some (x :: xs, rest) := by
  rw [scanItems, skip_cons (c := ',') (by decide)]
  simp only [hx, hxs, Option.pure_def, bind_eq_bind, bind_some]

theorem scanMembers_comma (hm : scanMember n t = some (m, t'))
    (hms : scanMembers n t' = some (ms, rest)) :
    scanMembers (n + 1) (',' :: t) = some (m :: ms, rest) := by
  rw [scanMembers, skip_cons (c := ',') (by decide)]
  simp only [hm, hms, Option.pure_def, bind_eq_bind, bind_some]

mutual

theorem scanValue_write (l : Layout) (d n : Nat) {rest : List Char} (hr : Ends rest) :
    (v : Json) → Literal v → (write l d v).length ≤ n →
    scanValue n (write l d v ++ rest) = some (v, rest)
  | .null, _, hn | .bool true, _, hn | .bool false, _, hn | .array [], _, hn
  | .object [], _, hn => by
    obtain _ | n := n
    · simp [write] at hn
    · rfl
  | .number x, hv, hn => by
    obtain _ | n := n
    · obtain ⟨c, u, rfl, -⟩ := head_number hv
      simp [write] at hn
    · exact scanValue_number hr hv
  | .string s, _, hn => by
    obtain _ | n := n
    · simp [write, quote] at hn
    have h : skip (write l d (.string s) ++ rest) =
        '"' :: (s.flatMap quoteChar ++ '"' :: rest) := by
      simp [write, quote, skip_cons (c := '"') (by decide)]
    rw [scanValue, h]
    simp [scanString_quote, decode_map_pieceOf]
  | .array (x :: xs), hv, hn => by
    obtain _ | n := n
    · simp [write] at hn
    simp only [write, length_cons, length_append] at hn
    let tail := writeItems l (d + 1) xs ++ (l.line d ++ ']' :: rest)
    have h : write l d (.array (x :: xs)) ++ rest =
        '[' :: (l.line (d + 1) ++ (write l (d + 1) x ++ tail)) := by
      simp [tail, write]
    have hskip := skip_blank (l.blank_line (d + 1)) (write l (d + 1) x ++ tail)
    -- the first item does not look like the end of the array
    have hne : (skip (l.line (d + 1) ++ (write l (d + 1) x ++ tail))).head? ≠ some ']' := by
      obtain ⟨c, t, hc, hb, hne⟩ := head_write l (d + 1) hv.1
      rw [hskip, hc, cons_append, skip_cons hb, head?_cons]
      exact fun h => hne (some.inj h)
    have hx' : scanValue n (l.line (d + 1) ++ (write l (d + 1) x ++ tail)) = some (x, tail) := by
      rw [scanValue_of_skip hskip]
      exact scanValue_write l (d + 1) n (ends_items ..) x hv.1 (by omega)
    have hxs' : scanItems n tail = some (xs, rest) :=
      scanItems_write l (d + 1) n d hr xs hv.2 (by omega)
    rw [h]
    exact scanValue_array hne hx' hxs'
  | .object ((k, v) :: ms), hv, hn => by
    have hk := length_quote k
    simp only [write, length_cons, length_append] at hn
    obtain _ | n := n
    · omega
    obtain _ | n := n
    · omega
    let tail := writeMembers l (d + 1) ms ++ (l.line d ++ '}' :: rest)
    have h : write l d (.object ((k, v) :: ms)) ++ rest =
        '{' :: (l.line (d + 1) ++ (quote k ++ (':' :: l.gap) ++ write l (d + 1) v ++ tail)) := by
      simp [tail, write]
    have hne : (skip (l.line (d + 1) ++ (quote k ++ (':' :: l.gap) ++ write l (d + 1) v ++
        tail))).head? ≠ some '}' := by
      rw [skip_blank (l.blank_line (d + 1))]
      simp [quote, skip_cons (c := '"') (by decide)]
    have hm : scanMember (n + 1)
        (l.line (d + 1) ++ (quote k ++ (':' :: l.gap) ++ write l (d + 1) v ++ tail)) =
        some ((k, v), tail) := by
      rw [scanMember_line]
      exact scanMember_quote tail (scanValue_write l (d + 1) n (ends_members ..) v hv.1 (by omega))
    have hms' : scanMembers (n + 1) tail = some (ms, rest) :=
      scanMembers_write l (d + 1) (n + 1) d hr ms hv.2 (by omega)
    rw [h]
    exact scanValue_object hne hm hms'

theorem scanItems_write (l : Layout) (d n e : Nat) {rest : List Char} (hr : Ends rest) :
    (xs : List Json) → LiteralItems xs → (writeItems l d xs).length < n →
    scanItems n (writeItems l d xs ++ (l.line e ++ ']' :: rest)) = some (xs, rest)
  | [], _, hn => by
    obtain _ | n := n
    · omega
    rw [scanItems, writeItems, nil_append, skip_blank (l.blank_line e)]
    rfl
  | x :: xs, hv, hn => by
    obtain _ | n := n
    · omega
    simp only [writeItems, length_cons, length_append] at hn
    let tail := writeItems l d xs ++ (l.line e ++ ']' :: rest)
    have h : writeItems l d (x :: xs) ++ (l.line e ++ ']' :: rest) =
        ',' :: (l.line d ++ (write l d x ++ tail)) := by
      simp [tail, writeItems]
    have hx' : scanValue n (l.line d ++ (write l d x ++ tail)) = some (x, tail) := by
      rw [scanValue_of_skip (skip_blank (l.blank_line d) _)]
      exact scanValue_write l d n (ends_items ..) x hv.1 (by omega)
    have hxs' : scanItems n tail = some (xs, rest) := scanItems_write l d n e hr xs hv.2 (by omega)
    rw [h]
    exact scanItems_comma hx' hxs'

theorem scanMembers_write (l : Layout) (d n e : Nat) {rest : List Char} (hr : Ends rest) :
    (ms : List (List Char × Json)) → LiteralMembers ms → (writeMembers l d ms).length < n →
    scanMembers n (writeMembers l d ms ++ (l.line e ++ '}' :: rest)) = some (ms, rest)
  | [], _, hn => by
    obtain _ | n := n
    · omega
    rw [scanMembers, writeMembers, nil_append, skip_blank (l.blank_line e)]
    rfl
  | (k, v) :: ms, hv, hn => by
    have hk := length_quote k
    simp only [writeMembers, length_cons, length_append] at hn
    obtain _ | n := n
    · omega
    obtain _ | n := n
    · omega
    let tail := writeMembers l d ms ++ (l.line e ++ '}' :: rest)
    have h : writeMembers l d ((k, v) :: ms) ++ (l.line e ++ '}' :: rest) =
        ',' :: (l.line d ++ (quote k ++ (':' :: l.gap) ++ write l d v ++ tail)) := by
      simp [tail, writeMembers]
    have hm : scanMember (n + 1) (l.line d ++ (quote k ++ (':' :: l.gap) ++ write l d v ++ tail)) =
        some ((k, v), tail) := by
      rw [scanMember_line]
      exact scanMember_quote tail (scanValue_write l d n (ends_members ..) v hv.1 (by omega))
    have hms' : scanMembers (n + 1) tail = some (ms, rest) :=
      scanMembers_write l d (n + 1) e hr ms hv.2 (by omega)
    rw [h]
    exact scanMembers_comma hm hms'

end

theorem parse_write (l : Layout) (hv : Literal v) : parse (write l 0 v) = some v := by
  have hnil : Ends [] := trivial
  have h := scanValue_write l 0 ((write l 0 v).length + 1) hnil v hv (Nat.le_succ _)
  rw [append_nil] at h
  rw [parse, h]
  rfl

theorem parse_indent (hv : isPlain v = true) : parse (indent 0 v) = some v := by
  rw [indent_eq_write]
  exact parse_write .indented (.of_plain v hv)

end Json

end Morf.Lib
