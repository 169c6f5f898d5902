import Mathlib.Data.List.Forall2
import Morf.Lib.Marshal

/-! How `json.Unmarshal` fills the variables of a program: a member of an object goes to the field
with its name, in upper or lower case, and a null leaves the field as it is. -/

namespace Morf.Lib.Json

open List Option

/-- Two characters outside of ASCII are the other case of a letter. -/
def foldRune (c : Char) : Char :=
  if c = 'ſ' then 'S' else if c = 'K' then 'K' else c.toUpper

def sameName (k name : List Char) : Bool := k.map foldRune = name.map foldRune

def received (name : String) (ms : Members) : List Json :=
  (ms.filter fun m => sameName m.1 name.toList).map Prod.snd

def structFrom : List Json → Option Members
  | [] => some []
  | .null :: vs => structFrom vs
  | .object ms :: vs => (structFrom vs).map (ms ++ ·)
  | _ :: _ => none

section Scalar

variable {α : Type}

def scalarFrom (read : Json → Option α) (a : α) : List Json → Option α
  | [] => some a
  | .null :: vs => scalarFrom read a vs
  | v :: vs => do scalarFrom read (← read v) vs

/-- A null makes a slice nil. -/
def sliceFrom (read : Json → Option α) (xs : List α) : List Json → Option (List α)
  | [] => some xs
  | .null :: vs => sliceFrom read [] vs
  | .array items :: vs => do sliceFrom read (← items.mapM read) vs
  | _ :: _ => none

end Scalar

def textFrom : List Json → Option (List Char) := scalarFrom asString []

def asInt : Json → Option Int
  | .number x => Text.atoi x
  | _ => none

def intFrom : List Json → Option Int := scalarFrom asInt 0

def mapFrom (map : Members) : List Json → Option Members
  | [] => some map
  | .null :: vs => mapFrom [] vs
  | .object ms :: vs => mapFrom (map ++ ms) vs
  | _ :: _ => none

def lookup (k : String) (map : Members) : Option Json :=
  ((map.filter fun m => decide (m.1 = k.toList)).map Prod.snd).getLast?

variable {ms map : Members}

@[simp] theorem structFrom_object (ms : Members) : structFrom [.object ms] = some ms := by
  rw [structFrom, structFrom, map_some, append_nil]

theorem received_cons_of_same (h : sameName k name.toList = true) (v : Json) (ms : Members) :
    received name ((k, v) :: ms) = v :: received name ms := by
  rw [received, filter_cons_of_pos (by exact h)]
  rfl

theorem received_cons_of_other (h : sameName k name.toList = false) (v : Json) (ms : Members) :
    received name ((k, v) :: ms) = received name ms := by
  rw [received, filter_cons_of_neg (by simp [h])]
  rfl

theorem received_put_of_other (h : sameName k name.toList = false) (v : Json) (ms : Members) :
    received name (put k v ms) = received name ms := by
  induction ms with
  | nil => exact received_cons_of_other h v []
  | cons m ms ih =>
    rw [put]
    split
    case isTrue hk =>
      obtain ⟨k', v'⟩ := m
      cases hk
      rw [received_cons_of_other h, received_cons_of_other h]
    case isFalse =>
      split
      case isTrue => exact received_cons_of_other h v _
      case isFalse =>
        cases hm : sameName m.1 name.toList with
        | true => rw [received_cons_of_same hm, received_cons_of_same hm, ih]
        | false => rw [received_cons_of_other hm, received_cons_of_other hm, ih]

theorem received_adjust_of_other (h : sameName k name.toList = false) (f : Json → Json)
    (ms : Members) : received name (adjust k f ms) = received name ms := by
  rw [adjust]
  split
  · exact received_put_of_other h _ ms
  · rfl

theorem received_values (name : String) (ms : Members) :
    Forall₂ (fun v w => w = v ∨ w = f v) (received name ms)
      (received name (Traversal.map (.values (List Char) Json p) f ms)) := by
  induction ms with
  | nil => exact .nil
  | cons m ms ih =>
    obtain ⟨k, v⟩ := m
    have hcons : ∃ w, Traversal.map (.values (List Char) Json p) f ((k, v) :: ms) =
        (k, w) :: Traversal.map (.values (List Char) Json p) f ms ∧ (w = v ∨ w = f v) := by
      cases hp : p k with
      | true => exact ⟨f v, Traversal.values_map_cons_of_pos hp, .inr rfl⟩
      | false => exact ⟨v, Traversal.values_map_cons_of_neg hp, .inl rfl⟩
    obtain ⟨w, hcons, hw⟩ := hcons
    rw [hcons]
    cases hk : sameName k name.toList with
    | true =>
      rw [received_cons_of_same hk, received_cons_of_same hk]
      exact .cons hw ih
    | false =>
      rw [received_cons_of_other hk, received_cons_of_other hk]
      exact ih

theorem received_adjust_string (hms : Sorted ms) (f : List Char → List Char)
    (h : ∃ t, received name ms = [.string t]) :
    ∃ t, received name (adjust k (onString f) ms) = [.string t] := by
  obtain ⟨t, ht⟩ := h
  have hvalues := received_values name (p := fun k' => decide (k' = k)) (f := onString f) ms
  rw [← adjust_eq_map hms, ht] at hvalues
  generalize received name (adjust k (onString f) ms) = ws at hvalues
  cases hvalues with
  | cons hw hws =>
    cases hws
    rcases hw with rfl | rfl
    · exact ⟨t, rfl⟩
    · exact ⟨f t, rfl⟩

theorem literalItems_iff : LiteralItems xs ↔ ∀ x ∈ xs, Literal x := by
  induction xs with
  | nil => simp [LiteralItems]
  | cons x xs ih => simp [LiteralItems, ih]

theorem literalMembers_iff : LiteralMembers ms ↔ ∀ m ∈ ms, Literal m.2 := by
  induction ms with
  | nil => simp [LiteralMembers]
  | cons m ms ih => simp [LiteralMembers, ih]

def integer (n : Int) : List Char :=
  if n < 0 then '-' :: Nat.toDigits 10 n.natAbs else Nat.toDigits 10 n.natAbs

theorem head_toDigits (h : 0 < n) : ∃ c ds, Nat.toDigits 10 n = c :: ds ∧ c ≠ '0' := by
  induction n using Nat.strong_induction_on with
  | _ n ih =>
    by_cases hn : n < 10
    · refine ⟨_, [], Nat.toDigits_of_lt_base hn, ?_⟩
      have hdigit : ∀ i : Fin 10, 0 < i.1 → Nat.digitChar i.1 ≠ '0' := by decide
      exact hdigit ⟨n, hn⟩ h
    · obtain ⟨c, ds, hds, hc⟩ := ih (n / 10) (Nat.div_lt_self h (by decide)) (by omega)
      refine ⟨c, ds ++ [(n % 10).digitChar], ?_, hc⟩
      rw [Nat.toDigits_of_base_le (by decide) (not_lt.mp hn), hds]
      rfl

theorem scanUnsigned_toDigits (n : Nat) :
    scanUnsigned (Nat.toDigits 10 n) = some (Nat.toDigits 10 n, []) := by
  have hdigit : ∀ c ∈ Nat.toDigits 10 n, isDigit c = true := fun c hc =>
    Nat.isDigit_of_mem_toDigits (by decide) (by decide) hc
  have hint : scanInt (Nat.toDigits 10 n) = some (Nat.toDigits 10 n, []) := by
    rcases Nat.eq_zero_or_pos n with rfl | hn
    · rfl
    · obtain ⟨c, ds, hds, hc⟩ := head_toDigits hn
      rw [hds] at hdigit ⊢
      rw [scanInt, scanDigits, takeWhile_eq_self_iff.mpr hdigit,
        dropWhile_eq_nil_iff.mpr hdigit, if_neg (cons_ne_nil c ds)]
      exact fun t h => hc (cons.inj h).1
  rw [scanUnsigned, hint]
  simp [scanFraction, scanExponent]

theorem scanNumber_integer (n : Int) : scanNumber (integer n) = some (integer n, []) := by
  rw [integer]
  split
  · rw [scanNumber, scanUnsigned_toDigits]
    rfl
  · rw [scanNumber, scanUnsigned_toDigits]
    intro t h
    have hmem : '-' ∈ Nat.toDigits 10 n.natAbs := h ▸ mem_cons_self
    exact absurd (Nat.isDigit_of_mem_toDigits (by decide) (by decide) hmem) (by decide)

end Morf.Lib.Json
