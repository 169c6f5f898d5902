import Mathlib.Data.List.Induction

/-! What readers of PDF files do: they find objects by their places in the file, and the literal
strings of a content stream by the rules for escapes. -/

namespace Morf.Lib.Pdf

open List Option

inductive Escape
  | none
  | backslash
  | octal (digits value : Nat)
  | carriageReturn

inductive Mode
  | outside
  | comment
  | inside (depth : Nat) (read : List Char) (escape : Escape)

structure Reader where
  strings : List (List Char)
  mode : Mode

def namedEscapes : List (Char × Char) :=
  [('n', '\n'), ('r', '\r'), ('t', '\t'), ('b', '\x08'), ('f', '\x0c')]

def octalDigit (c : Char) : Option Nat := if '0' ≤ c ∧ c ≤ '7' then some (c.toNat - 48) else none

namespace Reader

variable (r : Reader) (depth : Nat) (read : List Char) (c : Char)

/-- Parentheses in pairs are part of the string, and the end of a line is a line feed. -/
def plain : Reader :=
  if c = '\\' then { r with mode := .inside depth read .backslash }
  else if c = '(' then { r with mode := .inside (depth + 1) (read ++ [c]) .none }
  else if c = ')' then
    match depth with
    | 0 => ⟨r.strings ++ [read], .outside⟩
    | depth + 1 => { r with mode := .inside depth (read ++ [c]) .none }
  else if c = '\r' then { r with mode := .inside depth (read ++ ['\n']) .carriageReturn }
  else { r with mode := .inside depth (read ++ [c]) .none }

/-- A line that ends after a backslash goes on, and a backslash before another character without a
meaning is dropped. -/
def escaped : Reader :=
  match octalDigit c with
  | some value => { r with mode := .inside depth read (.octal 1 value) }
  | none =>
    if c = '\n' then { r with mode := .inside depth read .none }
    else if c = '\r' then { r with mode := .inside depth read .carriageReturn }
    else
      let meant := ((namedEscapes.find? fun e => e.1 = c).map Prod.snd).getD c
      { r with mode := .inside depth (read ++ [meant]) .none }

def step : Reader :=
  match r.mode with
  | .outside =>
    if c = '(' then { r with mode := .inside 0 [] .none }
    else if c = '%' then { r with mode := .comment }
    else r
  | .comment => if c = '\n' ∨ c = '\r' then { r with mode := .outside } else r
  | .inside depth read .none => r.plain depth read c
  | .inside depth read .backslash => r.escaped depth read c
  | .inside depth read (.octal digits value) =>
    match octalDigit c with
    | some v =>
      if digits < 3 then { r with mode := .inside depth read (.octal (digits + 1) (8 * value + v)) }
      else r.plain depth (read ++ [Char.ofNat (value % 256)]) c
    | none => r.plain depth (read ++ [Char.ofNat (value % 256)]) c
  | .inside depth read .carriageReturn =>
    if c = '\n' then { r with mode := .inside depth read .none } else r.plain depth read c

end Reader

def literals (stream : List Char) : List (List Char) :=
  (stream.foldl Reader.step ⟨[], .outside⟩).strings

namespace Reader

def isOperator (c : Char) : Bool := c ≠ '(' ∧ c ≠ '%'

theorem foldl_operators {t : List Char} (h : t.all isOperator = true) (strings : List (List Char)) :
    t.foldl step ⟨strings, .outside⟩ = ⟨strings, .outside⟩ := by
  induction t with
  | nil => rfl
  | cons c t ih =>
    obtain ⟨hc, ht⟩ := Bool.and_eq_true_iff.mp h
    obtain ⟨hopen, hcomment⟩ := of_decide_eq_true hc
    have hstep : step ⟨strings, .outside⟩ c = ⟨strings, .outside⟩ := by
      simp only [step, if_neg hopen, if_neg hcomment]
    rw [foldl_cons, hstep, ih ht]

end Reader

section Places

variable {α : Type}

def place (file : List α × List Nat) (object : List α) : List α × List Nat :=
  (file.1 ++ object, file.2 ++ [file.1.length])

structure Placed (objects : List (List α)) (file : List α × List Nat) : Prop where
  length : file.2.length = objects.length
  found : ∀ (k : Nat) object, objects[k]? = some object → ∃ offset, file.2[k]? = some offset ∧
    offset ≤ file.1.length ∧ object <+: file.1.drop offset

theorem Placed.le (h : Placed objects file) (ho : offset ∈ file.2) : offset ≤ file.1.length := by
  obtain ⟨k, hk⟩ := mem_iff_getElem?.mp ho
  obtain ⟨hlt, -⟩ := List.getElem?_eq_some_iff.mp hk
  obtain ⟨offset', hoffset, hle, -⟩ := h.found k _ (getElem?_eq_getElem (h.length ▸ hlt))
  obtain rfl : offset = offset' := some.inj (hk.symm.trans hoffset)
  exact hle

theorem Placed.place (h : Placed objects file) (object : List α) :
    Placed (objects ++ [object]) (place file object) := by
  refine ⟨by simp [Pdf.place, h.length], fun k o hk => ?_⟩
  by_cases hlt : k < objects.length
  · rw [getElem?_append_left hlt] at hk
    obtain ⟨offset, hoffset, hle, hprefix⟩ := h.found k o hk
    refine ⟨offset, ?_, ?_, ?_⟩
    · rw [Pdf.place, getElem?_append_left (h.length ▸ hlt), hoffset]
    · rw [Pdf.place, length_append]
      omega
    · rw [Pdf.place, drop_append_of_le_length hle]
      exact hprefix.trans (List.prefix_append ..)
  · rw [getElem?_append_right (Nat.le_of_not_lt hlt)] at hk
    obtain ⟨hlast, -⟩ := List.getElem?_eq_some_iff.mp hk
    obtain rfl : k = objects.length := by
      rw [length_singleton] at hlast
      omega
    rw [Nat.sub_self] at hk
    obtain rfl : object = o := some.inj hk
    refine ⟨file.1.length, ?_, ?_, ?_⟩
    · rw [Pdf.place, ← h.length, getElem?_append_right Nat.le.refl, Nat.sub_self]
      rfl
    · rw [Pdf.place, length_append]
      omega
    · exact ⟨[], (append_nil object).trans drop_left.symm⟩

theorem placed_foldl (header : List α) (objects : List (List α)) :
    Placed objects (objects.foldl place (header, [])) := by
  induction objects using reverseRecOn with
  | nil => exact ⟨rfl, fun k o hk => by simp at hk⟩
  | append_singleton objects object ih =>
    rw [foldl_append, foldl_cons, foldl_nil]
    exact ih.place object

theorem prefix_drop_flatten {entries : List (List α)} (h : ∀ e ∈ entries, e.length = width)
    (rest : List α) (hk : entries[k]? = some e) :
    e <+: (entries.flatten ++ rest).drop (width * k) := by
  induction entries generalizing k with
  | nil => simp at hk
  | cons e' entries ih =>
    cases k with
    | zero =>
      obtain rfl : e' = e := some.inj hk
      rw [Nat.mul_zero, drop_zero, flatten_cons, append_assoc]
      exact List.prefix_append ..
    | succ k =>
      have hwidth : e'.length = width := h e' mem_cons_self
      rw [flatten_cons, append_assoc, Nat.mul_succ, Nat.add_comm, ← drop_drop,
        drop_left' hwidth]
      exact ih (fun x hx => h x (mem_cons_of_mem _ hx)) hk

end Places

end Morf.Lib.Pdf
