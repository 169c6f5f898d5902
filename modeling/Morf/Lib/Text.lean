import Mathlib.Algebra.Group.Int.Defs
import Mathlib.Algebra.Group.Nat.Defs
import Mathlib.Data.List.DropRight
import Mathlib.Data.List.TakeWhile

/-! Go's `strings` functions on lists of characters. -/

namespace Morf.Lib.Text

open List Option

-- found at once by every definition that looks a text up in a list
instance instLawfulBEqText : LawfulBEq (List Char) := inferInstance

variable {α : Type} [BEq α]

def contains (sub : List α) : List α → Bool
  | [] => sub.isPrefixOf []
  | x :: xs => sub.isPrefixOf (x :: xs) || contains sub xs

def cutAt (sep : List α) : List α → Option (List α × List α)
  | [] => if sep.isPrefixOf [] then some ([], []) else none
  | x :: xs =>
    if sep.isPrefixOf (x :: xs) then some ([], (x :: xs).drop sep.length)
    else (cutAt sep xs).map fun p => (x :: p.1, p.2)

theorem cutAt_append [LawfulBEq α] (ha : a ∉ sep) (hv : ¬ a :: sep <:+: v) (w : List α) :
    cutAt (a :: sep) (v ++ (a :: sep) ++ w) = some (v, w) := by
  induction v with
  | nil =>
    have here : (a :: sep).isPrefixOf (a :: (sep ++ w)) = true :=
      List.isPrefixOf_iff_prefix.mpr ⟨w, rfl⟩
    simp only [nil_append, cons_append, cutAt, if_pos here, length_cons,
      drop_succ_cons, drop_left]
  | cons x v ih =>
    have later : ¬ a :: sep <+: x :: (v ++ (a :: sep) ++ w) := by
      intro h
      obtain ⟨rfl, here⟩ := cons_prefix_cons.mp h
      have there : v ++ [a] <+: v ++ (a :: sep) ++ w := ⟨sep ++ w, by simp⟩
      rcases prefix_or_prefix_of_prefix here there with inside | across
      · rcases prefix_concat_iff.mp inside with rfl | inside
        · simp at ha
        · exact hv ((prefix_cons_inj a).mpr inside).isInfix
      · exact ha (across.subset (by simp))
    have rest := ih fun h => hv (h.trans (suffix_cons x v).isInfix)
    rw [cons_append, cons_append, cutAt,
      if_neg (mt List.isPrefixOf_iff_prefix.mp later), rest]
    rfl

def isSpace (c : Char) : Bool :=
  let n := c.toNat
  (9 ≤ n && n ≤ 13) || (0x2000 ≤ n && n ≤ 0x200a) ||
    n ∈ [0x20, 0x85, 0xa0, 0x1680, 0x2028, 0x2029, 0x202f, 0x205f, 0x3000]

theorem isSpace_of_visible (h : 33 ≤ c.toNat) (h' : c.toNat ≤ 126) : isSpace c = false := by
  simp only [isSpace, mem_cons, not_mem_nil, or_false, Bool.or_eq_false_iff,
    Bool.and_eq_false_iff, decide_eq_false_iff_not]
  omega

def trimSpace (s : List Char) : List Char :=
  ((s.dropWhile isSpace).reverse.dropWhile isSpace).reverse

/-- `strings.ToLower`, exact where the result is an ASCII letter. -/
def toLower (c : Char) : Char :=
  if c.toNat = 0x212a then 'k' else if c.toNat = 0x130 then 'i' else c.toLower

def replace (old new : Char) (s : List Char) : List Char := s.map fun c => if c = old then new else c

/-- `strings.SplitN(s, sep, 2)`; `none` if there is no separator. -/
def cut (sep : Char) (s : List Char) : Option (List Char × List Char) :=
  if sep ∈ s then some (s.takeWhile (· ≠ sep), (s.dropWhile (· ≠ sep)).drop 1) else none

def afterLast (sep : Char) (s : List Char) : List Char :=
  (s.reverse.takeWhile (· ≠ sep)).reverse

def fields (s : List Char) : List (List Char) := (s.splitOnP isSpace).filter (· ≠ [])

def digits (s : List Char) : Option Nat :=
  if s ≠ [] ∧ s.all Char.isDigit then some (s.foldl (fun n c => 10 * n + (c.toNat - 48)) 0) else none

/-- `strconv.Atoi` on a 64-bit machine. -/
def atoi (s : List Char) : Option Int :=
  let n? : Option Int := match s with
    | '-' :: ds => (digits ds).map fun n => -n
    | '+' :: ds => (digits ds).map fun n => n
    | ds => (digits ds).map fun n => n
  n?.filter fun n => -2 ^ 63 ≤ n ∧ n < 2 ^ 63

theorem length_trimSpace_le (s : List Char) : (trimSpace s).length ≤ s.length := by
  have h₁ := (dropWhile_suffix isSpace (l := (s.dropWhile isSpace).reverse)).length_le
  have h₂ := (dropWhile_suffix isSpace (l := s)).length_le
  rw [length_reverse] at h₁
  rw [trimSpace, length_reverse]
  omega

def trimRight (s : List Char) : List Char := (s.reverse.dropWhile isSpace).reverse

theorem dropWhile_isSpace {v : List Char} (hs : ∀ x ∈ v, isSpace x = false) :
    v.dropWhile isSpace = v := by
  cases v with
  | nil => rfl
  | cons x xs => simp [hs x (by simp)]

theorem trimSpace_append (hv : v ≠ []) (hs : ∀ x ∈ v, isSpace x = false) (z : List Char) :
    trimSpace (v ++ z) = v ++ trimRight z := by
  have hleft : (v ++ z).dropWhile isSpace = v ++ z := by
    obtain ⟨x, xs, rfl⟩ := exists_cons_of_ne_nil hv
    simp [hs x (by simp)]
  have hright : v.reverse.dropWhile isSpace = v.reverse :=
    dropWhile_isSpace fun x hx => hs x (mem_reverse.mp hx)
  rw [trimSpace, hleft, reverse_append, dropWhile_append, hright]
  split
  · rename_i hempty
    simp [trimRight, List.isEmpty_iff.mp hempty]
  · simp [trimRight]

theorem forall_of_all [DecidablePred p] {s : List Char} (h : (s.all fun x => decide (p x)) = true) :
    ∀ x ∈ s, p x := by
  simpa using h

theorem forall_head {p : Char → Prop} {s : List Char} (hs : s.head? = some x) (hx : p x) :
    ∀ y ∈ s.head?, p y := by
  intro y hy
  obtain rfl : x = y := some.inj (hs.symm.trans hy)
  exact hx

theorem trimSpace_eq_self (hs : ∀ x ∈ v, isSpace x = false) : trimSpace v = v := by
  rw [trimSpace, dropWhile_isSpace hs,
    dropWhile_isSpace fun x hx => hs x (mem_reverse.mp hx), reverse_reverse]

theorem afterLast_subset : afterLast sep s ⊆ s := fun _ hx =>
  mem_reverse.mp ((List.takeWhile_prefix _).subset (mem_reverse.mp hx))

theorem not_mem_afterLast : sep ∉ afterLast sep s := fun h => by
  simpa using mem_takeWhile_imp (mem_reverse.mp h)

theorem afterLast_of_not_mem (h : sep ∉ s) : afterLast sep s = s := by
  have hall : s.reverse.takeWhile (· ≠ sep) = s.reverse :=
    takeWhile_eq_self_iff.mpr fun x hx => by
      simpa using fun he : x = sep => h (he ▸ mem_reverse.mp hx)
  rw [afterLast, hall, reverse_reverse]

theorem afterLast_afterLast : afterLast sep (afterLast sep s) = afterLast sep s :=
  afterLast_of_not_mem not_mem_afterLast

theorem afterLast_append (hv : sep ∉ v) (w : List Char) : afterLast sep (w ++ sep :: v) = v := by
  have hne : ∀ x ∈ v.reverse, decide (x ≠ sep) = true := fun x hx => by
    simpa using fun h : x = sep => hv (h ▸ mem_reverse.mp hx)
  rw [afterLast, reverse_append, reverse_cons, append_assoc,
    takeWhile_append_of_pos hne]
  simp

theorem takeWhile_ne_append (hv : sep ∉ v) (w : List Char) :
    (v ++ sep :: w).takeWhile (· ≠ sep) = v := by
  have hne : ∀ x ∈ v, decide (x ≠ sep) = true := fun x hx => by
    simpa using fun h : x = sep => hv (h ▸ hx)
  rw [takeWhile_append_of_pos hne]
  simp

theorem eq_of_append_cons {sep : Char} (hv : sep ∉ v) (hv' : sep ∉ v')
    (h : v ++ sep :: w = v' ++ sep :: w') : v = v' := by
  rw [← takeWhile_ne_append hv w, h, takeWhile_ne_append hv']

theorem cut_append (hv : sep ∉ v) (z : List Char) :
    cut sep (v ++ z) = (cut sep z).map fun p => (v ++ p.1, p.2) := by
  have hne : ∀ x ∈ v, decide (x ≠ sep) = true := fun x hx => by
    simpa using fun h : x = sep => hv (h ▸ hx)
  rw [cut, cut, takeWhile_append_of_pos hne, dropWhile_append_of_pos hne]
  by_cases hz : sep ∈ z <;> simp [hv, hz]

theorem digits_toDigits (n : Nat) : digits (Nat.toDigits 10 n) = some n := by
  have hall : (Nat.toDigits 10 n).all Char.isDigit = true := List.all_eq_true.mpr fun x hx =>
    Nat.isDigit_of_mem_toDigits (by decide) (by decide) hx
  rw [digits, if_pos ⟨Nat.toDigits_ne_nil, hall⟩]
  exact congrArg some Nat.ofDigitChars_ten_toDigits

theorem digits_sign (hx : x.isDigit = false) (s : List Char) : digits (x :: s) = none := by
  simp [digits, hx]

theorem atoi_of_digits (h : digits s = some n) :
    atoi s = if (n : Int) < 2 ^ 63 then some ↑n else none := by
  unfold atoi
  split
  · rw [digits_sign (by decide)] at h
    cases h
  · rw [digits_sign (by decide)] at h
    cases h
  · simp [h, filter_some]

theorem lt_of_atoi (h : atoi s = some z) : z < 2 ^ 63 := by
  have hrange := (filter_eq_some_iff.mp h).2
  exact (of_decide_eq_true hrange).2

theorem cut_eq_some (h : cut sep s = some (v, w)) : sep ∉ v ∧ s = v ++ sep :: w := by
  rw [cut] at h
  split at h
  · rename_i hmem
    obtain ⟨rfl, rfl⟩ := Prod.mk.inj (some.inj h)
    refine ⟨fun hsep => by simpa using mem_takeWhile_imp hsep, ?_⟩
    have hdrop : s.dropWhile (· ≠ sep) = sep :: (s.dropWhile (· ≠ sep)).drop 1 := by
      have hne : s.dropWhile (· ≠ sep) ≠ [] := fun hnil => by
        simpa using dropWhile_eq_nil_iff.mp hnil sep hmem
      obtain ⟨x, xs, hx⟩ := exists_cons_of_ne_nil hne
      have hhead := head?_dropWhile_not (· ≠ sep) s
      rw [hx] at hhead ⊢
      rw [show x = sep by simpa using hhead, drop_one, tail_cons]
    rw [← hdrop, takeWhile_append_dropWhile]
  · cases h

theorem trimRight_isPrefix (s : List Char) : trimRight s <+: s :=
  List.rdropWhile_prefix isSpace s

theorem trimSpace_isInfix (s : List Char) : trimSpace s <:+: s :=
  (trimRight_isPrefix _).isInfix.trans (dropWhile_suffix isSpace).isInfix

theorem afterLast_suffix (sep : Char) (s : List Char) : afterLast sep s <:+ s := by
  rw [afterLast, ← List.reverse_prefix, reverse_reverse]
  exact List.takeWhile_prefix _

theorem trimRight_append (hx : isSpace x = false) (v z : List Char) :
    trimRight (v ++ x :: z) = v ++ x :: trimRight z := by
  have hsplit : (v ++ x :: z).reverse = z.reverse ++ x :: v.reverse := by simp
  rw [trimRight, hsplit, dropWhile_append]
  split
  · rename_i hempty
    simp [trimRight, List.isEmpty_iff.mp hempty, hx]
  · simp [trimRight]

theorem trimSpace_eq_trimRight (hs : ∀ x ∈ s.head?, isSpace x = false) :
    trimSpace s = trimRight s := by
  cases s with
  | nil => rfl
  | cons x xs => rw [trimSpace, dropWhile_cons_of_neg (by simp [hs x rfl]), trimRight]

theorem trimSpace_skip (hw : ∀ x ∈ w, isSpace x = true) (s : List Char) :
    trimSpace (w ++ s) = trimSpace s := by
  rw [trimSpace, trimSpace, dropWhile_append_of_pos hw]

theorem trimSpace_cons (hx : isSpace x = false) (s : List Char) :
    trimSpace (x :: s) = x :: trimRight s :=
  (trimSpace_eq_trimRight (by simp [hx])).trans (trimRight_append hx [] s)

theorem trimRight_concat (hy : isSpace y = false) (s : List Char) :
    trimRight (s ++ [y]) = s ++ [y] :=
  trimRight_append hy s []

theorem head_trimSpace : ∀ x ∈ (trimSpace s).head?, isSpace x = false := by
  intro x hx
  obtain ⟨t, ht⟩ := trimRight_isPrefix (s.dropWhile isSpace)
  have hhead : x ∈ (s.dropWhile isSpace).head? := by
    rw [← ht]
    rw [head?_append]
    exact or_eq_some_iff.mpr (.inl hx)
  have hnot := head?_dropWhile_not isSpace s
  rw [hhead] at hnot
  exact hnot

theorem trimRight_trimRight (s : List Char) : trimRight (trimRight s) = trimRight s :=
  rdropWhile_idempotent isSpace s

theorem trimSpace_trimRight (s : List Char) : trimSpace (trimRight s) = trimSpace s := by
  induction s with
  | nil => rfl
  | cons x xs ih =>
    cases hx : isSpace x with
    | false =>
      have htrim : trimRight (x :: xs) = x :: trimRight xs := trimRight_append hx [] xs
      rw [htrim, trimSpace_eq_trimRight (by simp [hx]), trimSpace_eq_trimRight (by simp [hx]),
        ← htrim, trimRight_trimRight]
    | true =>
      have hskip : ∀ s, trimSpace (x :: s) = trimSpace s := fun s => by simp [trimSpace, hx]
      have htrim : trimRight (x :: xs) = [] ∧ trimRight xs = [] ∨
          trimRight (x :: xs) = x :: trimRight xs := by
        rw [trimRight, trimRight, reverse_cons, dropWhile_append]
        split
        · rename_i hempty
          exact .inl (by simp [hx, List.isEmpty_iff.mp hempty])
        · exact .inr (by simp)
      rw [hskip xs, ← ih]
      rcases htrim with ⟨hall, hxs⟩ | hcons
      · rw [hall, hxs]
      · rw [hcons, hskip]

/-! Decimal numbers of a fixed width. -/

def padded (width n : Nat) : List Char :=
  List.replicate (width - (Nat.toDigits 10 n).length) '0' ++ Nat.toDigits 10 n

theorem length_padded (hw : 0 < width) (h : n < 10 ^ width) : (padded width n).length = width := by
  have hle : (Nat.toDigits 10 n).length ≤ width :=
    (Nat.length_toDigits_le_iff (by decide) hw).mpr h
  rw [padded, List.length_append, List.length_replicate]
  omega

theorem isDigit_of_mem_padded (h : c ∈ padded width n) : c.isDigit = true := by
  rcases List.mem_append.mp h with h | h
  · rw [List.eq_of_mem_replicate h]
    rfl
  · exact Nat.isDigit_of_mem_toDigits (by decide) (by decide) h

theorem digits_padded (width n : Nat) : digits (padded width n) = some n := by
  have hne : padded width n ≠ [] := by
    simp [padded, Nat.toDigits_ne_nil]
  have hvalue : Nat.ofDigitChars 10 (padded width n) 0 = n := by
    rw [padded, Nat.ofDigitChars_append, Nat.ofDigitChars_replicate_zero, Nat.mul_zero,
      Nat.ofDigitChars_ten_toDigits]
  rw [digits, if_pos ⟨hne, List.all_eq_true.mpr fun c hc => isDigit_of_mem_padded hc⟩]
  exact congrArg some hvalue

end Morf.Lib.Text
