import Mathlib.Data.List.Infix
import Mathlib.Data.List.TakeWhile

/-! Reading a stream of bytes line by line through a buffer, as Go's `bufio.Reader` does: a line
that does not fit is returned in parts. -/

namespace Morf.Lib.Lines

open List

abbrev Bytes := List UInt8

def newline : UInt8 := 10

def carriageReturn : UInt8 := 13

abbrev Room := {k : Nat // 2 ≤ k}

def dropReturn (w : Bytes) : Bytes := if w.getLast? = some carriageReturn then w.dropLast else w

/-- What a call returns, with the bytes that are left: a line or the last part of one, a part of
a line that goes on, or nothing at the end of the stream. -/
inductive Read
  | line (frag rest : Bytes)
  | part (frag rest : Bytes)
  | eof

/-- `bufio.Reader.ReadLine`.  A carriage return at the end of a full buffer is put back, for it may
belong to the ending of the line. -/
def readLine (room : Room) (rest : Bytes) : Read :=
  let buffered := rest.take room
  if newline ∈ buffered then
    let w := buffered.takeWhile (· ≠ newline)
    .line (dropReturn w) (rest.drop (w.length + 1))
  else if room ≤ rest.length then
    let frag := dropReturn buffered
    .part frag (rest.drop frag.length)
  else if rest = [] then .eof
  else .line rest []

def lines (s : Bytes) : List Bytes :=
  let ws := s.splitOn newline
  ws.dropLast.map dropReturn ++ [ws.getLast?.getD []]

theorem length_dropReturn (w : Bytes) : w.length ≤ (dropReturn w).length + 1 := by
  rw [dropReturn]
  split
  · rw [length_dropLast]
    omega
  · omega

theorem dropReturn_isPrefix (w : Bytes) : dropReturn w <+: w := by
  rw [dropReturn]
  split
  · exact List.dropLast_prefix w
  · exact prefix_rfl

theorem dropReturn_append {w : Bytes} (h : w = [] → v.getLast? ≠ some carriageReturn) :
    dropReturn (v ++ w) = v ++ dropReturn w := by
  cases w with
  | nil => simp [dropReturn, h rfl]
  | cons x xs =>
    have hlast : (v ++ x :: xs).getLast? = (x :: xs).getLast? := by
      rw [getLast?_append, getLast?_cons]
      rfl
    rw [dropReturn, dropReturn, hlast]
    split
    · exact dropLast_append_of_ne_nil (cons_ne_nil x xs)
    · rfl

theorem lines_of_not_mem (h : newline ∉ s) : lines s = [s] := by
  simp [lines, splitOn_eq_singleton h]

theorem lines_append (h : newline ∉ w) (s : Bytes) :
    lines (w ++ newline :: s) = dropReturn w :: lines s := by
  obtain ⟨v, vs, hs⟩ := exists_cons_of_ne_nil (splitOn_ne_nil newline s)
  rw [lines, lines, splitOn_append_cons_self_of_not_mem h, hs]
  rfl

/-- All that a call can return.  Only a part that is followed by a carriage return ends in one. -/
theorem readLine_cases (room : Room) (rest : Bytes) :
    (rest = [] ∧ readLine room rest = .eof) ∨
    (rest ≠ [] ∧ newline ∉ rest ∧ readLine room rest = .line rest []) ∨
    (∃ w rest', newline ∉ w ∧ rest = w ++ newline :: rest' ∧
      readLine room rest = .line (dropReturn w) rest') ∨
    ∃ frag rest', frag ≠ [] ∧ newline ∉ frag ∧ rest = frag ++ rest' ∧
      (frag.getLast? = some carriageReturn → rest'.head? = some carriageReturn) ∧
      readLine room rest = .part frag rest' := by
  by_cases hmem : newline ∈ rest.take room
  · obtain ⟨w, u, hw, hnot⟩ := eq_append_cons_of_mem hmem
    have hrest : rest = w ++ newline :: (u ++ rest.drop room) := by
      conv_lhs => rw [← take_append_drop room rest, hw]
      simp
    have htake : (rest.take room).takeWhile (· ≠ newline) = w := by
      have hne : ∀ x ∈ w, decide (x ≠ newline) = true := fun x hx => by
        simpa using fun he : x = newline => hnot (he ▸ hx)
      rw [hw, takeWhile_append_of_pos hne]
      simp
    have hdrop : rest.drop (w.length + 1) = u ++ rest.drop room := by
      conv_lhs => rw [hrest]
      simp
    refine .inr (.inr (.inl ⟨w, _, hnot, hrest, ?_⟩))
    simp only [readLine, hmem, if_true, htake, hdrop]
  · by_cases hroom : room ≤ rest.length
    · have hlength : (rest.take room).length = room := length_take_of_le hroom
      have hfrag : dropReturn (rest.take room) <+: rest :=
        (dropReturn_isPrefix _).trans (List.take_prefix _ _)
      refine .inr (.inr (.inr ⟨dropReturn (rest.take room), _, ?_, fun h => hmem ?_,
        (prefix_iff_eq_append.mp hfrag).symm, ?_, by simp only [readLine, hmem, hroom, if_true, if_false]⟩))
      · have := length_dropReturn (rest.take room)
        have := room.2
        exact ne_nil_of_length_pos (by omega)
      · exact (dropReturn_isPrefix _).subset h
      · intro hlast
        by_cases hreturn : (rest.take room).getLast? = some carriageReturn
        · -- it is the carriage return that was put back
          have hsplit := dropLast_append_getLast? _ hreturn
          have hrest : rest = (rest.take room).dropLast ++ carriageReturn :: rest.drop room := by
            conv_lhs => rw [← take_append_drop room rest, ← hsplit]
            simp
          rw [dropReturn, if_pos hreturn]
          generalize (rest.take room).dropLast = v at hrest
          rw [hrest, drop_left, head?_cons]
        · rw [dropReturn, if_neg hreturn] at hlast
          exact absurd hlast hreturn
    · by_cases hnil : rest = []
      · subst hnil
        exact .inl ⟨rfl, by simp only [readLine, hmem, hroom, if_true, if_false]⟩
      · have hnot : newline ∉ rest := by
          rwa [take_of_length_le (Nat.le_of_not_le hroom)] at hmem
        exact .inr (.inl ⟨hnil, hnot, by simp only [readLine, hmem, hroom, hnil, if_false]⟩)

theorem readLine_line_length (h : readLine room rest = .line frag rest') :
    rest'.length < rest.length := by
  rcases readLine_cases room rest with ⟨-, hread⟩ | ⟨hne, -, hread⟩ | ⟨w, u, -, hrest, hread⟩ |
    ⟨w, u, -, -, -, -, hread⟩
  · cases h.symm.trans hread
  · cases h.symm.trans hread
    exact length_pos_iff.mpr hne
  · cases h.symm.trans hread
    simp only [hrest, length_append, length_cons]
    omega
  · cases h.symm.trans hread

theorem readLine_part_length (h : readLine room rest = .part frag rest') :
    rest'.length < rest.length := by
  rcases readLine_cases room rest with ⟨-, hread⟩ | ⟨-, -, hread⟩ | ⟨w, u, -, -, hread⟩ |
    ⟨w, u, hne, -, hrest, -, hread⟩
  · cases h.symm.trans hread
  · cases h.symm.trans hread
  · cases h.symm.trans hread
  · cases h.symm.trans hread
    have := length_pos_iff.mpr hne
    simp only [hrest, length_append]
    omega

end Morf.Lib.Lines
