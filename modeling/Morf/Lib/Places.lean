import Mathlib.Data.List.Nodup
import Morf.Lib.Regex

/-! The places at which a search for all matches reports a match, and what becomes of the
matches of several expressions when one search for their union takes the place of theirs. -/

namespace Morf.Lib.Regex

open List Function Option Prod

theorem map_snd_after (c : Cursor) (next : Cursor → List Found) (l : List Found) :
    (l.flatMap (after c next)).map snd =
      (l.map snd).flatMap fun w => ((next (c.skip w)).map snd).map (w ++ ·) := by
  simp [after, map_flatMap, flatMap_map, comp_def]

theorem map_snd_loop (greedy : Bool) (h : ∀ c, (step c).map snd = (step' c).map snd)
    (n : Nat) (c : Cursor) :
    (loop step greedy n c).map snd = (loop step' greedy n c).map snd := by
  induction n generalizing c with
  | zero => rfl
  | succ n ih =>
    have hmore : ∀ s : Cursor → List Found,
        ((s c).flatMap fun f => if f.2 = [] then [f] else after c (loop s greedy n) f).map snd =
          ((s c).map snd).flatMap fun w =>
            if w = [] then [w] else ((loop s greedy n (c.skip w)).map snd).map (w ++ ·) := by
      intro s
      rw [map_flatMap, flatMap_map]
      refine flatMap_congr fun f _ => ?_
      split <;> simp [after, comp_def]
    have hmore' := (hmore step).trans (by simp only [h, ih] : _ = _) |>.trans (hmore step').symm
    cases greedy with
    | true => simp only [loop, if_true, map_append, hmore']
    | false => simp only [loop, Bool.false_eq_true, if_false, map_cons, hmore']

theorem map_snd_run (r : Regex) (g g' : Nat) (c : Cursor) :
    (r.run g c).map snd = (r.run g' c).map snd := by
  induction r generalizing g g' c with
  | empty | set | anchor => rfl
  | seq r s ihr ihs =>
    simp only [run, map_snd_after, ihr g g' c, fun w => ihs (g + r.groups) (g' + r.groups) (c.skip w)]
  | alt r s ihr ihs =>
    simp only [run, map_append, ihr g g' c, ihs (g + r.groups) (g' + r.groups) c]
  | star greedy r ih => exact map_snd_loop greedy (ih g g') _ c
  | group r ih =>
    simp only [run, List.map_map]
    exact ih (g + 1) (g' + 1) c

theorem run_eq_nil {r : Regex} (h : r.run g c = []) (g' : Nat) : r.run g' c = [] := by
  have := r.map_snd_run g' g c
  rwa [h, map_nil, map_eq_nil_iff] at this

theorem head_run {r : Regex} {span : List Char} (h : (r.run g c).head? = some (gs, span)) (g' : Nat) :
    ∃ gs', (r.run g' c).head? = some (gs', span) := by
  have hhead := congrArg head? (r.map_snd_run g' g c)
  simp only [head?_map, h, map_some, map_eq_some_iff] at hhead
  obtain ⟨f, hf, rfl⟩ := hhead
  exact ⟨f.1, hf⟩

section Places

def place (text : List Char) (p : Nat) : Cursor := (Cursor.start text).skip (text.take p)

def attempt (r : Regex) (ended : Bool) (c : Cursor) : Option Found :=
  ((r.run 1 c).head?).filter fun f => !(f.2.isEmpty && ended)

abbrev Progress := Nat × Bool

def reportIn (r : Regex) (text : List Char) (p : Nat) (s : Progress) : Option Found :=
  if s.1 = 0 ∧ p ≤ text.length then r.attempt s.2 (place text p) else none

def width (o : Option Found) : Nat := (o.map fun f => f.2.length).getD 0

def progress (r : Regex) (text : List Char) : Nat → Progress
  | 0 => (0, false)
  | p + 1 =>
    let s := progress r text p
    let left := if s.1 = 0 then width (r.reportIn text p s) else s.1
    (left - 1, left = 1)

def reportAt (r : Regex) (text : List Char) (p : Nat) : Option Found :=
  r.reportIn text p (r.progress text p)

variable {r : Regex} {text : List Char} {p : Nat}

theorem place_rest (text : List Char) (p : Nat) : (place text p).rest = text.drop p := by
  simp only [place, Cursor.start, Cursor.skip_rest, length_take]
  rcases Nat.le_total p text.length with h | h
  · rw [Nat.min_eq_left h]
  · rw [Nat.min_eq_right h, drop_length, drop_eq_nil_of_le h]

theorem place_skip (hw : w <+: (place text p).rest) :
    (place text p).skip w = place text (p + w.length) := by
  rw [place_rest] at hw
  have htake : text.take p ++ w = text.take (p + w.length) := by
    obtain ⟨t, ht⟩ := hw
    rw [take_add, ← ht, take_left]
  rw [place, place, Cursor.skip_skip, htake]

theorem attempt_eq_some :
    r.attempt ended c = some f ↔ (r.run 1 c).head? = some f ∧ (f.2 = [] → ended = false) := by
  rw [attempt, filter_eq_some_iff]
  cases ended <;> simp

theorem reportAt_eq_some : r.reportAt text p = some f ↔
    ((r.progress text p).1 = 0 ∧ p ≤ text.length) ∧
      (r.run 1 (place text p)).head? = some f ∧ (f.2 = [] → (r.progress text p).2 = false) := by
  rw [reportAt, reportIn]
  split
  · rename_i h
    simp [h, attempt_eq_some]
  · rename_i h
    simp [h]

def Pending (r : Regex) (text : List Char) (p k : Nat) : Prop :=
  ∃ q < p, ∃ f, r.reportAt text q = some f ∧ q + f.2.length = p + k

theorem pending_succ : Pending r text (p + 1) k ↔
    Pending r text p (k + 1) ∨ ∃ f, r.reportAt text p = some f ∧ f.2.length = k + 1 := by
  constructor
  · rintro ⟨q, hq, f, hf, hk⟩
    rcases Nat.lt_succ_iff_lt_or_eq.mp hq with hq | rfl
    · exact .inl ⟨q, hq, f, hf, by omega⟩
    · exact .inr ⟨f, hf, by omega⟩
  · rintro (⟨q, hq, f, hf, hk⟩ | ⟨f, hf, hk⟩)
    · exact ⟨q, by omega, f, hf, by omega⟩
    · exact ⟨p, by omega, f, hf, by omega⟩

theorem progress_spec (r : Regex) (text : List Char) (p : Nat) :
    (∀ k, (r.progress text p).1 = k + 1 ↔ Pending r text p (k + 1)) ∧
      ((r.progress text p).2 = true ↔ Pending r text p 0) := by
  induction p with
  | zero => simp [progress, Pending]
  | succ p ih =>
    have hleft : ∀ k, (if (r.progress text p).1 = 0 then width (r.reportAt text p)
        else (r.progress text p).1) = k + 1 ↔ Pending r text (p + 1) k := by
      intro k
      rw [pending_succ, ← ih.1 k]
      by_cases h : (r.progress text p).1 = 0
      · cases ho : r.reportAt text p <;> simp [h, width]
      · have hnone : r.reportAt text p = none := by simp [reportAt, reportIn, h]
        simp [h, hnone]
    refine ⟨fun k => ?_, ?_⟩
    · have hsub : ∀ m : Nat, m - 1 = k + 1 ↔ m = k + 1 + 1 := by omega
      rw [← hleft (k + 1)]
      exact hsub _
    · rw [← hleft 0]
      exact decide_eq_true_iff

theorem progress_eq_zero : (r.progress text p).1 = 0 ↔ ∀ k, ¬ Pending r text p (k + 1) := by
  constructor
  · intro h k hk
    simp [((r.progress_spec text p).1 k).mpr hk] at h
  · intro h
    cases hk : (r.progress text p).1 with
    | zero => rfl
    | succ k => exact absurd (((r.progress_spec text p).1 k).mp hk) (h k)

theorem progress_eq_false : (r.progress text p).2 = false ↔ ¬ Pending r text p 0 := by
  rw [← (r.progress_spec text p).2, Bool.not_eq_true]

def Reports (r : Regex) (text : List Char) (p : Nat) (span : List Char) : Prop :=
  ∃ gs, r.reportAt text p = some (gs, span)

theorem reports_iff {span : List Char} : r.Reports text p span ↔
    p ≤ text.length ∧ (∃ gs, r.MatchesAt (place text p) gs span) ∧
      ∀ q < p, ∀ w, r.Reports text q w → q + w.length ≤ p ∧ (span = [] → q + w.length ≠ p) := by
  constructor
  · rintro ⟨gs, h⟩
    obtain ⟨⟨hinside, hp⟩, hrun, hended⟩ := reportAt_eq_some.mp h
    refine ⟨hp, ⟨gs, hrun⟩, fun q hq w ⟨gs', hw⟩ => ⟨?_, fun hspan hend => ?_⟩⟩
    · by_contra hlong
      exact progress_eq_zero.mp hinside (q + w.length - p - 1)
        ⟨q, hq, (gs', w), hw, show q + w.length = _ by omega⟩
    · exact progress_eq_false.mp (hended hspan) ⟨q, hq, (gs', w), hw, hend⟩
  · rintro ⟨hp, ⟨gs, hrun⟩, hearlier⟩
    refine ⟨gs, reportAt_eq_some.mpr
      ⟨⟨progress_eq_zero.mpr ?_, hp⟩, hrun, fun hspan => progress_eq_false.mpr ?_⟩⟩
    · rintro k ⟨q, hq, f, hf, hk⟩
      have hle := (hearlier q hq f.2 ⟨f.1, hf⟩).1
      omega
    · rintro ⟨q, hq, f, hf, hend⟩
      exact (hearlier q hq f.2 ⟨f.1, hf⟩).2 hspan hend

theorem place_succ (h : (place text p).rest = x :: xs) : place text (p + 1) = ⟨some x, xs⟩ := by
  have hskip := @place_skip text p [x] (by simp [h])
  rw [length_singleton] at hskip
  rw [← hskip, Cursor.skip, h]
  rfl

theorem rest_eq_nil (hp : p ≤ text.length) : (place text p).rest = [] ↔ p = text.length := by
  rw [place_rest, drop_eq_nil_iff]
  omega

theorem find_eq (c : Cursor) : r.find c =
    match (r.run 1 c).head? with
    | some f => some ⟨[], f.1, f.2⟩
    | none =>
      match c.rest with
      | [] => none
      | x :: xs => (r.find ⟨some x, xs⟩).map fun m => { m with skipped := x :: m.skipped } := by
  rw [find, findFrom.eq_def]
  rfl

theorem find_place (hp : p ≤ text.length) :
    (r.find (place text p) = none ∧
      ∀ q, p ≤ q → q ≤ text.length → (r.run 1 (place text q)).head? = none) ∨
    ∃ m, r.find (place text p) = some m ∧ m.skipped <+: (place text p).rest ∧
      r.MatchesAt (place text (p + m.skipped.length)) m.groups m.span ∧
      ∀ q, p ≤ q → q < p + m.skipped.length → (r.run 1 (place text q)).head? = none := by
  induction hd : text.length - p generalizing p with
  | zero =>
    obtain rfl : p = text.length := by omega
    have hrest := (rest_eq_nil hp).mpr rfl
    rw [find_eq]
    cases hrun : (r.run 1 (place text text.length)).head? with
    | some f => exact .inr ⟨⟨[], f.1, f.2⟩, rfl, List.nil_prefix, hrun, by simp; omega⟩
    | none =>
      refine .inl ⟨by simp [hrest], fun q hq hq' => ?_⟩
      rwa [Nat.le_antisymm hq' hq]
  | succ d ih =>
    rw [find_eq]
    cases hrun : (r.run 1 (place text p)).head? with
    | some f => exact .inr ⟨⟨[], f.1, f.2⟩, rfl, List.nil_prefix, hrun, by simp; omega⟩
    | none =>
      cases hrest : (place text p).rest with
      | nil =>
        have := (rest_eq_nil hp).mp hrest
        omega
      | cons x xs =>
        have hplace := place_succ hrest
        rcases ih (p := p + 1) (by omega) (by omega) with
          ⟨hfind, hnone⟩ | ⟨m, hfind, hm, hmatch, hnone⟩
        · rw [hplace] at hfind
          refine .inl ⟨by simp [hfind], fun q hq hq' => ?_⟩
          rcases Nat.eq_or_lt_of_le hq with rfl | hq
          · exact hrun
          · exact hnone q hq hq'
        · rw [hplace] at hfind hm
          refine .inr ⟨{ m with skipped := x :: m.skipped }, by simp only [hfind, map_some],
            ?_, ?_, fun q hq hq' => ?_⟩
          · exact cons_prefix_cons.mpr ⟨rfl, hm⟩
          · rw [show p + (x :: m.skipped).length = p + 1 + m.skipped.length by simp; omega]
            exact hmatch
          · rcases Nat.eq_or_lt_of_le hq with rfl | hq
            · exact hrun
            · exact hnone q hq (by simp at hq'; omega)

theorem reportAt_eq_none (h : (r.run 1 (place text p)).head? = none) :
    r.reportAt text p = none := by
  cases hf : r.reportAt text p with
  | none => rfl
  | some f =>
    rw [(reportAt_eq_some.mp hf).2.1] at h
    cases h

theorem progress_succ (h : (r.progress text p).1 = 0) (hw : width (r.reportAt text p) = 0) :
    r.progress text (p + 1) = (0, false) := by
  rw [reportAt] at hw
  simp [progress, h, hw]

theorem progress_skip (h : (r.progress text p).1 = 0)
    (hnone : ∀ q, p ≤ q → q < p + (n + 1) → (r.run 1 (place text q)).head? = none) :
    r.progress text (p + (n + 1)) = (0, false) := by
  induction n with
  | zero =>
    exact progress_succ h (by simp [width, reportAt_eq_none (hnone p (by omega) (by omega))])
  | succ n ih =>
    have hn := ih fun q hq hq' => hnone q hq (by omega)
    refine progress_succ (p := p + (n + 1)) (by rw [hn]) ?_
    simp [width, reportAt_eq_none (hnone (p + (n + 1)) (by omega) (by omega))]

theorem reportAt_inside (hf : r.reportAt text p = some f) (hq : p < q) (hq' : q < p + f.2.length) :
    r.reportAt text q = none := by
  have hpending : Pending r text q (p + f.2.length - q - 1 + 1) := ⟨p, hq, f, hf, by omega⟩
  have hinside := ((r.progress_spec text q).1 _).mpr hpending
  simp [reportAt, reportIn, hinside]

theorem progress_end (hf : r.reportAt text p = some f) (hne : f.2 ≠ []) :
    r.progress text (p + f.2.length) = (0, true) := by
  have hpos : 0 < f.2.length := length_pos_iff.mpr hne
  have hend : (r.progress text (p + f.2.length)).2 = true :=
    (r.progress_spec text _).2.mpr ⟨p, by omega, f, hf, rfl⟩
  have hzero : (r.progress text (p + f.2.length)).1 = 0 := by
    refine progress_eq_zero.mpr fun k ⟨q, hq, f', hf', hk⟩ => ?_
    rcases Nat.lt_trichotomy q p with hlt | rfl | hgt
    · have hle := ((reports_iff.mp ⟨f.1, hf⟩).2.2 q hlt f'.2 ⟨f'.1, hf'⟩).1
      omega
    · cases hf.symm.trans hf'
      omega
    · rw [reportAt_inside hf hgt hq] at hf'
      cases hf'
  exact Prod.ext hzero hend

def reportsFrom (r : Regex) (text : List Char) (p : Nat) : List Found :=
  (List.range' p (text.length + 1 - p)).filterMap (r.reportAt text)

theorem reportsFrom_succ (hp : p ≤ text.length) :
    r.reportsFrom text p = (r.reportAt text p).toList ++ r.reportsFrom text (p + 1) := by
  have hlength : text.length + 1 - p = (text.length + 1 - (p + 1)) + 1 := by omega
  rw [reportsFrom, hlength, range'_succ, filterMap_cons]
  cases r.reportAt text p <;> rfl

theorem reportsFrom_end : r.reportsFrom text (text.length + 1) = [] := by
  simp [reportsFrom]

theorem reportsFrom_skip (hn : p + n ≤ text.length + 1)
    (hnone : ∀ q, p ≤ q → q < p + n → r.reportAt text q = none) :
    r.reportsFrom text p = r.reportsFrom text (p + n) := by
  induction n with
  | zero => rfl
  | succ n ih =>
    rw [ih (by omega) fun q hq hq' => hnone q hq (by omega), reportsFrom_succ (by omega),
      hnone (p + n) (by omega) (by omega)]
    rfl

def Match.found (m : Match) : Found := (m.groups, m.span)

theorem later_eq (hp : p ≤ text.length) (hnext : p < text.length →
      (r.findAllFrom n false (place text (p + 1))).map Match.found = r.reportsFrom text (p + 1)) :
    (if (place text p).rest = [] then []
      else r.findAllFrom n false ((place text p).skip ((place text p).rest.take 1))).map Match.found =
      r.reportsFrom text (p + 1) := by
  split
  · rename_i hrest
    rw [(rest_eq_nil hp).mp hrest, reportsFrom_end, map_nil]
  · rename_i hrest
    obtain ⟨x, xs, hx⟩ := exists_cons_of_ne_nil hrest
    have hlt : p < text.length :=
      Nat.lt_of_le_of_ne hp fun h => hrest ((rest_eq_nil hp).mpr h)
    rw [place_skip (List.take_prefix 1 _), hx]
    exact hnext hlt

/-- The search from a place, with the fuel `n`, lists the reports from there on.  If an empty
match has just been reported at the place itself, the reports after it are left. -/
def Lists (r : Regex) (text : List Char) (n p : Nat) : Prop :=
  (∀ ended, r.progress text p = (0, ended) →
    (r.findAllFrom n ended (place text p)).map Match.found = r.reportsFrom text p) ∧
  (∀ gs, r.reportAt text p = some (gs, []) →
    (r.findAllFrom n true (place text p)).map Match.found = r.reportsFrom text (p + 1))

theorem Lists.after_report (h : ∀ p, p ≤ text.length → text.length - p < n → Lists r text n p)
    (hf : r.reportAt text p = some f) (hn : text.length - (p + f.2.length) < n) :
    (r.findAllFrom n true (place text (p + f.2.length))).map Match.found =
      r.reportsFrom text (p + 1) := by
  obtain ⟨⟨-, hp⟩, hmatch, -⟩ := reportAt_eq_some.mp hf
  by_cases hspan : f.2 = []
  · rw [hspan] at hn ⊢
    exact (h p hp hn).2 f.1 (by rw [hf, ← hspan])
  · have hpos : 0 < f.2.length := length_pos_iff.mpr hspan
    have hle : p + f.2.length ≤ text.length := by
      have := (r.run_prefix 1 _ f (mem_of_head? hmatch)).length_le
      rw [place_rest, length_drop] at this
      omega
    rw [reportsFrom_skip (p := p + 1) (n := f.2.length - 1) (by omega)
      fun q hq hq' => reportAt_inside hf (by omega) (by omega),
      show p + 1 + (f.2.length - 1) = p + f.2.length by omega]
    exact (h _ hle hn).1 true (progress_end hf hspan)

theorem reportAt_of_empty {m : Match} (hp : p ≤ text.length)
    (hprogress : r.progress text p = (0, ended)) (hspan : m.span = [])
    (hmatch : (r.run 1 (place text p)).head? = some m.found) :
    r.reportAt text p = if ended then none else some m.found := by
  rw [reportAt, hprogress, reportIn, if_pos ⟨rfl, hp⟩, attempt, hmatch]
  cases ended <;> simp [Match.found, hspan]

theorem progress_after_empty {m : Match} (hprogress : r.progress text p = (0, ended))
    (hspan : m.span = []) (hreport : r.reportAt text p = if ended then none else some m.found) :
    r.progress text (p + 1) = (0, false) := by
  refine progress_succ (by rw [hprogress]) ?_
  rw [hreport]
  cases ended <;> simp [width, Match.found, hspan]

theorem reportAt_of_skipped {m : Match} (hstart : (r.progress text p).1 = 0)
    (hk : k = m.skipped.length) (hempty : m.skipped ++ m.span ≠ []) (hlength : p + k ≤ text.length)
    (hnone : ∀ q, p ≤ q → q < p + k → (r.run 1 (place text q)).head? = none)
    (hmatch : (r.run 1 (place text (p + k))).head? = some m.found) :
    r.reportAt text (p + k) = some m.found := by
  cases k with
  | zero =>
    refine reportAt_eq_some.mpr ⟨⟨hstart, hlength⟩, hmatch, fun hspan => absurd ?_ hempty⟩
    rw [length_eq_zero_iff.mp hk.symm, show m.span = [] from hspan, append_nil]
  | succ k =>
    refine reportAt_eq_some.mpr ⟨⟨?_, hlength⟩, hmatch, fun _ => ?_⟩
    · rw [progress_skip hstart hnone]
    · rw [progress_skip hstart hnone]

theorem lists_of_fuel (n : Nat) : ∀ p, p ≤ text.length → text.length - p < n →
    Lists r text n p := by
  induction n with
  | zero => intro p hp hn; omega
  | succ n ih =>
    intro p hp hn
    refine ⟨fun ended hprogress => ?_, fun gs hreport => ?_⟩
    · have hstart : (r.progress text p).1 = 0 := by rw [hprogress]
      rw [findAllFrom]
      rcases find_place (r := r) hp with ⟨hfind, hnone⟩ | ⟨m, hfind, hskipped, hmatch, hnone⟩
      · -- nothing is found
        rw [hfind, reportsFrom_skip (n := text.length + 1 - p) (by omega)
          fun q hq hq' => reportAt_eq_none (hnone q hq (by omega))]
        rw [show p + (text.length + 1 - p) = text.length + 1 by omega, reportsFrom_end]
        rfl
      · have hlength : p + m.skipped.length ≤ text.length := by
          have := hskipped.length_le
          rw [place_rest, length_drop] at this
          omega
        rw [hfind]
        dsimp only
        split
        · rename_i hempty
          obtain ⟨hskip, hspan⟩ := append_eq_nil_iff.mp hempty
          rw [hskip, length_nil, Nat.add_zero] at hmatch
          have hreport := reportAt_of_empty hp hprogress hspan hmatch
          have hnext := progress_after_empty hprogress hspan hreport
          have hlater := later_eq hp fun hlt => (ih (p + 1) hlt (by omega)).1 false hnext
          rw [reportsFrom_succ hp, hreport]
          cases ended with
          | true => simpa using hlater
          | false => simpa using hlater
        · rename_i hempty
          have hreport := reportAt_of_skipped hstart rfl hempty hlength hnone hmatch
          rw [reportsFrom_skip (n := m.skipped.length) (by omega)
            fun q hq hq' => reportAt_eq_none (hnone q hq hq'), reportsFrom_succ hlength, hreport,
            map_cons, ← Cursor.skip_skip, place_skip hskipped, place_skip hmatch.prefix]
          refine congrArg (m.found :: ·) (Lists.after_report ih hreport ?_)
          have hspan := hmatch.prefix.length_le
          rw [place_rest, length_drop] at hspan
          have hpos : 0 < m.skipped.length + m.span.length := by
            rw [← length_append]
            exact length_pos_iff.mpr hempty
          simp only [Match.found]
          omega
    · have hmatch := (reportAt_eq_some.mp hreport).2.1
      have hfind : r.find (place text p) = some ⟨[], gs, []⟩ := by rw [find_eq, hmatch]
      have hnext : r.progress text (p + 1) = (0, false) :=
        progress_succ (reportAt_eq_some.mp hreport).1.1 (by simp [width, hreport])
      rw [findAllFrom, hfind]
      exact later_eq hp fun hlt => (ih (p + 1) hlt (by omega)).1 false hnext

theorem findAll_eq (r : Regex) (text : List Char) :
    (r.findAll text).map Match.found = r.reportsFrom text 0 :=
  (lists_of_fuel (text.length + 2) 0 (Nat.zero_le _) (by omega)).1 false rfl

theorem mem_reportsFrom : f ∈ r.reportsFrom text 0 ↔ ∃ p, r.reportAt text p = some f := by
  simp only [reportsFrom, mem_filterMap, mem_range'_1]
  constructor
  · rintro ⟨p, -, hf⟩
    exact ⟨p, hf⟩
  · rintro ⟨p, hf⟩
    have hp := (reportAt_eq_some.mp hf).1.2
    exact ⟨p, by omega, hf⟩

end Places

section Union

variable {ι : Type} {rs : List (ι × Regex)}

def firstAt (rs : List (ι × Regex)) (c : Cursor) : Option (ι × Regex) :=
  rs.find? fun q => !(q.2.run 1 c).isEmpty

theorem union_ne_nil (hq : q ∈ rs) (hrun : q.2.run 1 c ≠ []) (g : Nat) :
    (union rs).run g c ≠ [] := by
  induction rs generalizing g with
  | nil => cases hq
  | cons p rs ih =>
    have hcons : (union (p :: rs)).run g c =
        ((p.2.run (g + 1) c).map fun f => (g :: f.1, f.2)) ++
          (union rs).run (g + (Regex.group p.2).groups) c := rfl
    rw [hcons, ne_eq, append_eq_nil_iff, not_and_or]
    cases hq with
    | head => exact .inl fun h => hrun (run_eq_nil (map_eq_nil_iff.mp h) 1)
    | tail _ hq => exact .inr (ih hq _)

theorem union_first {span : List Char} (h : (union rs).MatchesAt c gs span) :
    ∃ i r, firstAt rs c = some (i, r) ∧ (∃ gs', r.MatchesAt c gs' span) ∧
      owner (labels rs) gs = some i := by
  obtain ⟨rs₁, i, r, rs₂, g, gs', rfl, hr, hrs₁, howner⟩ := union_owner h
  obtain ⟨gs₁, hr₁⟩ := head_run hr 1
  refine ⟨i, r, find?_eq_some_iff_append.mpr ⟨?_, rs₁, rs₂, rfl, fun q hq => ?_⟩,
    ⟨gs₁, hr₁⟩, howner⟩
  · cases hrun : r.run 1 c with
    | nil => simp [hrun] at hr₁
    | cons => rfl
  · obtain ⟨g', hq⟩ := hrs₁ q hq
    simp [run_eq_nil hq 1]

theorem union_matchesAt {span : List Char} (hfirst : firstAt rs c = some (i, r))
    (hr : r.MatchesAt c gs span) : ∃ gs', (union rs).MatchesAt c gs' span := by
  have hmem : (i, r) ∈ rs := mem_of_find?_eq_some hfirst
  have hrun : r.run 1 c ≠ [] := ne_nil_of_mem (mem_of_head? hr)
  obtain ⟨f, fs, hf⟩ := exists_cons_of_ne_nil (union_ne_nil hmem hrun 1)
  have hhead : (union rs).MatchesAt c f.1 f.2 := by rw [MatchesAt, hf]; rfl
  obtain ⟨i', r', hfirst', ⟨gs', hr'⟩, -⟩ := union_first hhead
  obtain ⟨rfl, rfl⟩ := mk.inj (some.inj (hfirst.symm.trans hfirst'))
  obtain ⟨-, hspan⟩ := mk.inj (some.inj (hr.symm.trans hr'))
  exact ⟨f.1, hspan ▸ hhead⟩

def ReportsAs (rs : List (ι × Regex)) (text : List Char) (p : Nat) (i : ι) (span : List Char) :
    Prop :=
  ∃ gs, (union rs).reportAt text p = some (gs, span) ∧ owner (labels rs) gs = some i

theorem reportsAs_iff {span : List Char} : ReportsAs rs text p i span ↔
    (union rs).Reports text p span ∧ ∃ r, firstAt rs (place text p) = some (i, r) := by
  constructor
  · rintro ⟨gs, hgs, howner⟩
    obtain ⟨i', r, hfirst, -, howner'⟩ := union_first (reportAt_eq_some.mp hgs).2.1
    obtain rfl := some.inj (howner.symm.trans howner')
    exact ⟨⟨gs, hgs⟩, r, hfirst⟩
  · rintro ⟨⟨gs, hgs⟩, r, hfirst⟩
    obtain ⟨i', r', hfirst', -, howner⟩ := union_first (reportAt_eq_some.mp hgs).2.1
    obtain ⟨rfl, -⟩ := mk.inj (some.inj (hfirst.symm.trans hfirst'))
    exact ⟨gs, hgs, howner⟩

/-- Where an expression reports a match, it is the first of the list that matches at all, and no
match that an expression reports earlier reaches beyond the place (or up to it, if the match
is empty). -/
def Unshadowed (rs : List (ι × Regex)) (text : List Char) : Prop :=
  ∀ i r, (i, r) ∈ rs → ∀ p span, r.Reports text p span →
    firstAt rs (place text p) = some (i, r) ∧
    ∀ q ∈ rs, ∀ p' < p, ∀ w, q.2.Reports text p' w →
      p' + w.length ≤ p ∧ (span = [] → p' + w.length ≠ p)

theorem Unshadowed.union_reports (h : Unshadowed rs text) (p : Nat) (span : List Char) :
    (union rs).Reports text p span ↔ ∃ q ∈ rs, q.2.Reports text p span := by
  -- the earlier reports of the union and of the expressions are the same ones
  induction p using Nat.strong_induction_on generalizing span with
  | _ p ih =>
    constructor
    · intro hunion
      obtain ⟨hp, ⟨gs, hmatch⟩, hearlier⟩ := reports_iff.mp hunion
      obtain ⟨i, r, hfirst, hr, -⟩ := union_first hmatch
      have hmem : (i, r) ∈ rs := mem_of_find?_eq_some hfirst
      exact ⟨(i, r), hmem, reports_iff.mpr ⟨hp, hr, fun p' hp' w hw =>
        hearlier p' hp' w ((ih p' hp' w).mpr ⟨(i, r), hmem, hw⟩)⟩⟩
    · rintro ⟨⟨i, r⟩, hmem, hr⟩
      obtain ⟨hfirst, hearlier⟩ := h i r hmem p span hr
      obtain ⟨hp, ⟨gs, hmatch⟩, -⟩ := reports_iff.mp hr
      refine reports_iff.mpr ⟨hp, union_matchesAt hfirst hmatch, fun p' hp' w hw => ?_⟩
      obtain ⟨q, hq, hw⟩ := (ih p' hp' w).mp hw
      exact hearlier q hq p' hp' w hw

theorem union_recall_iff (hlabels : (rs.map fst).Nodup) :
    (∀ i r, (i, r) ∈ rs → ∀ p span, r.Reports text p span → ReportsAs rs text p i span) ↔
      Unshadowed rs text := by
  constructor
  · intro hrecall i r hmem p span hr
    obtain ⟨hunion, r', hfirst⟩ := reportsAs_iff.mp (hrecall i r hmem p span hr)
    obtain rfl : r' = r := by
      have hmem' : (i, r') ∈ rs := mem_of_find?_eq_some hfirst
      have := inj_on_of_nodup_map hlabels hmem' hmem rfl
      exact (mk.inj this).2
    refine ⟨hfirst, fun q hq p' hp' w hw => ?_⟩
    obtain ⟨hearlier, -⟩ := reportsAs_iff.mp (hrecall q.1 q.2 hq p' w hw)
    exact (reports_iff.mp hunion).2.2 p' hp' w hearlier
  · intro h i r hmem p span hr
    exact reportsAs_iff.mpr
      ⟨(h.union_reports p span).mpr ⟨(i, r), hmem, hr⟩, r, (h i r hmem p span hr).1⟩

theorem unshadowed_singleton (q : ι × Regex) : Unshadowed [q] text := by
  rintro i r hmem p span hr
  obtain rfl := mem_singleton.mp hmem
  obtain ⟨-, ⟨gs, hmatch⟩, hearlier⟩ := reports_iff.mp hr
  refine ⟨?_, fun q hq => mem_singleton.mp hq ▸ hearlier⟩
  have hrun : r.run 1 (place text p) ≠ [] := ne_nil_of_mem (mem_of_head? hmatch)
  simp [firstAt, hrun]

end Union

end Morf.Lib.Regex
