import Morf.Detect.Findings
import Morf.Lib.Lines

/-! `RunWithContextStream` of `utils/command.go`: the output of a child process is handed to a
callback line by line. -/

namespace Morf.Utils

open Morf.Lib.Lines
open Morf.Detect (maxLineBytes)
open List

variable {σ ε : Type}

def appendFragment (lineBuf frag : Bytes) : Bytes :=
  if lineBuf.length < maxLineBytes then lineBuf ++ frag.take (maxLineBytes - lineBuf.length)
  else lineBuf

def flushLine (onLine : σ → Bytes → Except ε σ) (lineBuf : Bytes) (s : σ) : Except ε σ :=
  if lineBuf = [] then .ok s else onLine s lineBuf

def readLoop (onLine : σ → Bytes → Except ε σ) (room : Nat → Room) (n : Nat)
    (rest lineBuf : Bytes) (s : σ) : σ × Option ε :=
  match h : readLine (room n) rest with
  | .eof =>
    match flushLine onLine lineBuf s with
    | .error e => (s, some e)
    | .ok s' => (s', none)
  | .part frag rest' => readLoop onLine room (n + 1) rest' (appendFragment lineBuf frag) s
  | .line frag rest' =>
    match flushLine onLine (appendFragment lineBuf frag) s with
    | .error e => (s, some e)
    | .ok s' => readLoop onLine room (n + 1) rest' [] s'
termination_by rest.length
decreasing_by
  · exact readLine_part_length h
  · exact readLine_line_length h

structure Child (ρ ω : Type) where
  stdout : Bytes
  readErr : Option ρ := none
  waitErr : Option ω := none

inductive StreamError (ε ρ ω : Type)
  | callback (e : ε)
  | read (e : ρ)
  | wait (e : ω)

def runWithContextStream (onLine : σ → Bytes → Except ε σ) (room : Nat → Room) (child : Child ρ ω)
    (s : σ) : σ × Option (StreamError ε ρ ω) :=
  match readLoop onLine room 0 child.stdout [] s with
  | (s', some e) => (s', some (.callback e))
  | (s', none) =>
    match child.waitErr with
    | some e => (s', some (.wait e))
    | none => (s', child.readErr.map .read)

section Loop

def deliver (ls : List Bytes) : List Bytes := (ls.filter (· ≠ [])).map (List.take maxLineBytes)

theorem deliver_cons (line : Bytes) (ls : List Bytes) :
    deliver (line :: ls) = deliver [line] ++ deliver ls := by
  rw [deliver, deliver, deliver, ← map_append, ← filter_append, singleton_append]

theorem appendFragment_take (acc frag : Bytes) :
    appendFragment (acc.take maxLineBytes) frag = (acc ++ frag).take maxLineBytes := by
  rw [appendFragment, take_append, length_take]
  split
  · rename_i hlt
    have hle : acc.length ≤ maxLineBytes := by omega
    rw [Nat.min_eq_right hle]
  · rename_i hge
    have hle : maxLineBytes ≤ acc.length := by omega
    rw [Nat.sub_eq_zero_of_le hle, take_zero, append_nil]

variable {onLine : σ → Bytes → Except ε σ}

theorem readLoop_eof (h : readLine (room n) rest = .eof)
    (hflush : flushLine onLine lineBuf s = .ok s') :
    readLoop onLine room n rest lineBuf s = (s', none) := by
  rw [readLoop]
  split <;> simp_all

theorem readLoop_part (h : readLine (room n) rest = .part frag rest') :
    readLoop onLine room n rest lineBuf s =
      readLoop onLine room (n + 1) rest' (appendFragment lineBuf frag) s := by
  rw [readLoop]
  split <;> simp_all

theorem readLoop_line (h : readLine (room n) rest = .line frag rest')
    (hflush : flushLine onLine (appendFragment lineBuf frag) s = .ok s') :
    readLoop onLine room n rest lineBuf s = readLoop onLine room (n + 1) rest' [] s' := by
  rw [readLoop]
  split <;> simp_all

variable (f : σ → Bytes → σ)

theorem flushLine_take (line : Bytes) (s : σ) :
    flushLine (fun s l => (.ok (f s l) : Except ε σ)) (line.take maxLineBytes) s =
      .ok ((deliver [line]).foldl f s) := by
  cases line with
  | nil => rfl
  | cons x xs =>
    have hne : (x :: xs).take maxLineBytes ≠ [] := cons_ne_nil _ _
    rw [flushLine, if_neg hne]
    rfl

/-- `acc` is what the loop has read of the current line.  If it ends in a carriage return, the
next byte is not a newline, so that the carriage return is a part of the line. -/
theorem readLoop_delivers (room : Nat → Room) (n : Nat) (rest acc : Bytes) (s : σ)
    (hacc : newline ∉ acc)
    (hreturn : acc.getLast? = some carriageReturn → rest.head? ≠ some newline) :
    readLoop (fun s l => (.ok (f s l) : Except ε σ)) room n rest (acc.take maxLineBytes) s =
      ((deliver (lines (acc ++ rest))).foldl f s, none) := by
  induction hlen : rest.length using Nat.strong_induction_on generalizing n rest acc s with
  | _ len ih =>
    rcases readLine_cases (room n) rest with ⟨rfl, hread⟩ | ⟨hne, hnot, hread⟩ |
      ⟨w, rest', hnot, rfl, hread⟩ | ⟨frag, rest', hne, hnot, rfl, hback, hread⟩
    · rw [readLoop_eof hread (flushLine_take f acc s), append_nil, lines_of_not_mem hacc]
    · -- the last line has no ending
      have hflush := flushLine_take (ε := ε) f (acc ++ rest) s
      rw [← appendFragment_take] at hflush
      have hend := ih 0 (hlen ▸ length_pos_iff.mpr hne) (n + 1) [] []
        ((deliver [acc ++ rest]).foldl f s) (by simp) (by simp) rfl
      rw [take_nil] at hend
      rw [readLoop_line hread hflush, hend, lines_of_not_mem (s := acc ++ rest) (by simp [hacc, hnot])]
      rfl
    · have hline : dropReturn (acc ++ w) = acc ++ dropReturn w :=
        dropReturn_append fun hw hlast => hreturn hlast (by rw [hw]; rfl)
      have hflush := flushLine_take (ε := ε) f (acc ++ dropReturn w) s
      rw [← appendFragment_take] at hflush
      have hnext := ih rest'.length (hlen ▸ readLine_line_length hread) (n + 1) rest' []
        ((deliver [acc ++ dropReturn w]).foldl f s) (by simp) (by simp) rfl
      rw [take_nil, nil_append] at hnext
      rw [readLoop_line hread hflush, hnext, ← append_assoc,
        lines_append (w := acc ++ w) (by simp [hacc, hnot]), hline, deliver_cons _ (lines rest'),
        foldl_append]
    · have hnext := ih rest'.length (hlen ▸ readLine_part_length hread) (n + 1) rest' (acc ++ frag) s
        (by simp [hacc, hnot]) (fun hlast => ?_) rfl
      · rw [readLoop_part hread, appendFragment_take, hnext, append_assoc]
      · rw [getLast?_append_of_ne_nil _ hne] at hlast
        rw [hback hlast]
        decide

end Loop

/-- The callback is called once for each line that is not empty, in order, with its first bytes,
however the reader divides the lines. -/
theorem stream_delivers_lines (f : σ → Bytes → σ) (room : Nat → Room) (child : Child ρ ω) (s : σ) :
    (runWithContextStream (fun s l => (.ok (f s l) : Except ε σ)) room child s).1 =
      (deliver (lines child.stdout)).foldl f s := by
  rw [runWithContextStream]
  have hloop := readLoop_delivers (ε := ε) f room 0 child.stdout [] s (by simp) (by simp)
  rw [take_nil, nil_append] at hloop
  rw [hloop]
  dsimp only
  split <;> rfl

end Morf.Utils
