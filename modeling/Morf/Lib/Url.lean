import Morf.Lib.Text

/-! URLs as Go's `net/url` reads them: the scheme, and the host inside of the authority.  Escapes
are checked and stay as they are written. -/

namespace Morf.Lib.Url

open List Option

/-- `strings.LastIndex`: what stands before the last separator. -/
def beforeLast (sep : Char) (s : List Char) : List Char :=
  ((s.reverse.dropWhile (· ≠ sep)).drop 1).reverse

def isHex (c : Char) : Bool :=
  c.isDigit || ('a' ≤ c && c ≤ 'f') || ('A' ≤ c && c ≤ 'F')

def validEscapes : List Char → Bool
  | [] => true
  | c :: t =>
    if c = '%' then
      match t with
      | a :: b :: t => isHex a && isHex b && validEscapes t
      | _ => false
    else validEscapes t

def isControl (c : Char) : Bool := c.toNat < 0x20 || c.toNat = 0x7f

def isSchemeChar (c : Char) : Bool := c.isAlphanum || c = '+' || c = '-' || c = '.'

def getScheme (s : List Char) : Option (List Char × List Char) :=
  match s.takeWhile isSchemeChar, s.dropWhile isSchemeChar with
  | [], ':' :: _ => none
  | c :: name, ':' :: rest => if c.isAlpha then some (c :: name, rest) else some ([], s)
  | _, _ => some ([], s)

def isHostChar (c : Char) : Bool :=
  0x80 ≤ c.toNat || c.isAlphanum || c ∈ "-_.~!$&'()*+,;=:[]<>\"".toList

/-- In a host only characters outside of ASCII and the percent sign itself are escaped. -/
def validHost : List Char → Bool
  | [] => true
  | c :: t =>
    if c = '%' then
      match t with
      | a :: b :: t =>
        isHex a && isHex b && ('8' ≤ a || (a = '2' && b = '5')) && validHost t
      | _ => false
    else isHostChar c && validHost t

def validUserinfo (s : List Char) : Bool :=
  s.all (fun c => c.isAlphanum || c ∈ "-._:~!$&'()*+,;=%@".toList) && validEscapes s

def validOptionalPort : List Char → Bool
  | [] => true
  | c :: t => c = ':' && t.all Char.isDigit

/-- How a host with brackets is read.  Which addresses may stand in them differs between releases;
after them there is at most a port. -/
structure Literals where
  read : List Char → Option (List Char)
  port : ∀ {h name}, read h = some name →
    ∃ front tail, h = front ++ ']' :: tail ∧ validOptionalPort tail = true

variable (L : Literals)

def parseHost (h : List Char) : Option (List Char) :=
  if '[' ∈ h then L.read h
  else if ':' ∈ h then
    if (Text.afterLast ':' h).all Char.isDigit && validHost h then some (beforeLast ':' h) else none
  else if validHost h then some h else none

def isDelimiter (c : Char) : Bool := c = '/' || c = '?' || c = '#'

structure Authority where
  host : List Char
  hostname : List Char

def readAuthority (t : List Char) : Option Authority :=
  let authority := t.takeWhile (!isDelimiter ·)
  let rest := t.dropWhile (!isDelimiter ·)
  let path := rest.takeWhile fun c => c ≠ '?' && c ≠ '#'
  let fragment := (rest.dropWhile (· ≠ '#')).drop 1
  if (t.takeWhile (· ≠ '#')).any isControl || !validEscapes path || !validEscapes fragment then none
  else if '@' ∈ authority && !validUserinfo (beforeLast '@' authority) then none
  else
    let host := Text.afterLast '@' authority
    (parseHost L host).map fun hostname => ⟨host, hostname⟩

structure Parsed where
  scheme : List Char
  authority : Authority

/-- `url.Parse`.  A text without an authority gets an empty host, and is not looked at further. -/
def parse (s : List Char) : Option Parsed :=
  match getScheme s with
  | none => none
  | some (scheme, '/' :: '/' :: t) =>
    if scheme = [] && t.head? = some '/' then some ⟨[], [], []⟩
    else (readAuthority L t).map fun authority => ⟨scheme.map Char.toLower, authority⟩
  | some (scheme, _) => some ⟨scheme.map Char.toLower, [], []⟩

def hasHost (a : Authority) : Bool := a.host ≠ [] && a.host ≠ [':']

def requestHost (s : List Char) : Option (List Char) :=
  match parse L s with
  | none => none
  | some u =>
    if (u.scheme = "http".toList || u.scheme = "https".toList) && hasHost u.authority then
      some u.authority.hostname
    else none

structure Harmless (s : List Char) : Prop where
  head : ∀ c ∈ s.head?, isHex c = false
  plain : ∀ c ∈ s, c ≠ '%' ∧ c ≠ '?' ∧ c ≠ '#' ∧ isControl c = false

variable {L} {s : List Char}

theorem validEscapes_cons_of_ne (h : c ≠ '%') (t : List Char) :
    validEscapes (c :: t) = validEscapes t := by
  rw [validEscapes.eq_def]
  exact if_neg h

theorem validEscapes_percent (a b : Char) (t : List Char) :
    validEscapes ('%' :: a :: b :: t) = (isHex a && isHex b && validEscapes t) := rfl

theorem validEscapes_of_plain (h : ∀ c ∈ s, c ≠ '%') : validEscapes s = true := by
  induction s with
  | nil => rfl
  | cons c s ih =>
    obtain ⟨hc, hs⟩ := forall_mem_cons.mp h
    rw [validEscapes_cons_of_ne hc, ih hs]

theorem validEscapes_append (hs : Harmless s) (p : List Char) :
    validEscapes (p ++ s) = validEscapes p := by
  fun_induction validEscapes p with
  | case1 => exact validEscapes_of_plain fun c hc => (hs.plain c hc).1
  | case2 a b t ih => rw [cons_append, cons_append, cons_append,
      validEscapes_percent, ih]
  | case3 t hshort =>
    -- an escape that is cut off is not completed by what follows
    match t, s, hs with
    | [], [], _ | [_], [], _ | [], [_], _ => rfl
    | [], x :: y :: s, hs => 
      have hx : isHex x = false := hs.head x rfl
      simp [validEscapes_percent, hx]
    | [a], x :: s, hs =>
      have hx : isHex x = false := hs.head x rfl
      simp [validEscapes_percent, hx]
    | a :: b :: t, _, _ => exact absurd rfl (hshort a b t)
  | case4 c t hc ih => rw [cons_append, validEscapes_cons_of_ne hc, ih]

theorem dropWhile_delimiter_append
    (h : (∃ c ∈ t, isDelimiter c = true) ∨ ∀ c ∈ s.head?, isDelimiter c = true) :
    (t ++ s).takeWhile (!isDelimiter ·) = t.takeWhile (!isDelimiter ·) ∧
      (t ++ s).dropWhile (!isDelimiter ·) = t.dropWhile (!isDelimiter ·) ++ s := by
  induction t with
  | nil =>
    cases s with
    | nil => exact ⟨rfl, rfl⟩
    | cons c s =>
      have hc : isDelimiter c = true := by
        rcases h with ⟨c', hc', -⟩ | h
        · cases hc'
        · exact h c rfl
      simp [hc]
  | cons c t ih =>
    cases hc : isDelimiter c with
    | true => simp [hc]
    | false =>
      have htail : (∃ c ∈ t, isDelimiter c = true) ∨ ∀ c ∈ s.head?, isDelimiter c = true := by
        refine h.imp_left ?_
        rintro ⟨c', hc', hd⟩
        rcases mem_cons.mp hc' with rfl | hmem
        · rw [hc] at hd
          cases hd
        · exact ⟨c', hmem, hd⟩
      obtain ⟨htake, hdrop⟩ := ih htail
      simp [hc, htake, hdrop]

theorem takeWhile_eq_of_length (h : (s.takeWhile p).length = s.length) : s.takeWhile p = s :=
  IsPrefix.eq_of_length ( List.takeWhile_prefix p) h

theorem validEscapes_path (hs : Harmless s) (rest : List Char) :
    validEscapes ((rest ++ s).takeWhile fun c => c ≠ '?' && c ≠ '#') =
      validEscapes (rest.takeWhile fun c => c ≠ '?' && c ≠ '#') := by
  have hall : s.takeWhile (fun c => c ≠ '?' && c ≠ '#') = s :=
    takeWhile_eq_self_iff.mpr fun c hc => by
      obtain ⟨-, hq, hf, -⟩ := hs.plain c hc
      simp [hq, hf]
  rw [takeWhile_append]
  split
  case isTrue h =>
    rw [hall, validEscapes_append hs, takeWhile_eq_of_length h]
  case isFalse => rfl

theorem validEscapes_fragment (hs : Harmless s) (rest : List Char) :
    validEscapes (((rest ++ s).dropWhile (· ≠ '#')).drop 1) =
      validEscapes ((rest.dropWhile (· ≠ '#')).drop 1) := by
  have hall : s.dropWhile (· ≠ '#') = [] :=
    dropWhile_eq_nil_iff.mpr fun c hc => by simpa using (hs.plain c hc).2.2.1
  rw [dropWhile_append]
  split
  case isTrue h => rw [hall, List.isEmpty_iff.mp h]
  case isFalse h =>
    cases hrest : rest.dropWhile (· ≠ '#') with
    | nil => exact absurd (List.isEmpty_iff.mpr hrest) h
    | cons c frag =>
      rw [cons_append, drop_one, tail_cons, drop_one, tail_cons]
      exact validEscapes_append hs frag

theorem any_control (hs : Harmless s) (t : List Char) :
    ((t ++ s).takeWhile (· ≠ '#')).any isControl = (t.takeWhile (· ≠ '#')).any isControl := by
  have hplain : (s.takeWhile (· ≠ '#')).any isControl = false :=
    List.any_eq_false.mpr fun c hc => by
      simp [(hs.plain c (takeWhile_subset _ hc)).2.2.2]
  rw [takeWhile_append]
  split
  case isTrue h =>
    rw [any_append, hplain, Bool.or_false, takeWhile_eq_of_length h]
  case isFalse => rfl

theorem readAuthority_append (hs : Harmless s)
    (h : (∃ c ∈ t, isDelimiter c = true) ∨ ∀ c ∈ s.head?, isDelimiter c = true) :
    readAuthority L (t ++ s) = readAuthority L t := by
  obtain ⟨htake, hdrop⟩ := dropWhile_delimiter_append h
  simp only [readAuthority, htake, hdrop, validEscapes_path hs, validEscapes_fragment hs,
    any_control hs]

theorem afterLast_append_of_not_mem (h : sep ∉ s) (t : List Char) :
    Text.afterLast sep (t ++ s) = Text.afterLast sep t ++ s := by
  have hs : ∀ c ∈ s.reverse, decide (c ≠ sep) = true := fun c hc =>
    decide_eq_true fun heq => h (heq ▸ mem_reverse.mp hc)
  rw [Text.afterLast, reverse_append, takeWhile_append_of_pos hs, reverse_append,
    reverse_reverse]
  rfl

structure Domain (s : List Char) : Prop where
  last : ∃ c, s.getLast? = some c ∧ c ≠ ']' ∧ c ≠ ':' ∧ c.isDigit = false
  plain : '@' ∉ s ∧ ':' ∉ s

theorem getLast_validOptionalPort {tail : List Char} (h : validOptionalPort tail = true)
    (front : List Char) (hc : (front ++ ']' :: tail).getLast? = some c) :
    c = ']' ∨ c = ':' ∨ c.isDigit = true := by
  have hmem : c ∈ ']' :: tail := by
    rw [getLast?_append_of_ne_nil _ (cons_ne_nil _ _)] at hc
    exact mem_of_getLast? hc
  cases tail with
  | nil => exact .inl (mem_singleton.mp hmem)
  | cons x ds =>
    simp only [validOptionalPort, Bool.and_eq_true, decide_eq_true_eq, List.all_eq_true] at h
    simp only [mem_cons] at hmem
    rcases hmem with rfl | rfl | hmem
    · exact .inl rfl
    · exact .inr (.inl h.1)
    · exact .inr (.inr (h.2 c hmem))

theorem parseHost_append (hs : Domain s) (h : parseHost L (t ++ s) = some name) :
    name = t ++ s := by
  obtain ⟨c, hlast, hbracket, hcolon, hdigit⟩ := hs.last
  have hend : (t ++ s).getLast? = some c := by
    rw [getLast?_append, hlast]
    rfl
  rw [parseHost] at h
  split at h
  · obtain ⟨front, tail, heq, hport⟩ := L.port h
    rw [heq] at hend
    rcases getLast_validOptionalPort hport front hend with rfl | rfl | hc
    · exact absurd rfl hbracket
    · exact absurd rfl hcolon
    · rw [hdigit] at hc
      cases hc
  · split at h
    · split at h
      · rename_i hvalid
        rw [afterLast_append_of_not_mem hs.plain.2, all_append, Bool.and_eq_true,
          Bool.and_eq_true] at hvalid
        have hc := List.all_eq_true.mp hvalid.1.2 c (mem_of_getLast? hlast)
        rw [hdigit] at hc
        cases hc
      · cases h
    · split at h
      · exact (some.inj h).symm
      · cases h

theorem hostname_of_domain (hs : Domain s) (ht : ∀ c ∈ t ++ s, isDelimiter c = false)
    (h : readAuthority L (t ++ s) = some a) : ∃ front, a.hostname = front ++ s := by
  have hall : (t ++ s).takeWhile (!isDelimiter ·) = t ++ s :=
    takeWhile_eq_self_iff.mpr fun c hc => by simp [ht c hc]
  simp only [readAuthority, hall] at h
  split at h
  · cases h
  · split at h
    · cases h
    · obtain ⟨name, hname, rfl⟩ := map_eq_some_iff.mp h
      rw [afterLast_append_of_not_mem hs.plain.1] at hname
      exact ⟨_, parseHost_append hs hname⟩

theorem parse_of_other (h : getScheme s = some (scheme, rest)) (hrest : ∀ t, rest ≠ '/' :: '/' :: t) :
    parse L s = some ⟨scheme.map Char.toLower, [], []⟩ := by
  rw [parse, h]
  split
  case h_1 heq => cases heq
  case h_2 heq =>
    cases heq
    exact absurd rfl (hrest _)
  case h_3 heq =>
    cases heq
    rfl

theorem requestHost_of_authority (h : getScheme s = some (scheme, '/' :: '/' :: t))
    (hne : scheme ≠ []) : requestHost L s = (readAuthority L t).bind fun a =>
      if (scheme.map Char.toLower = "http".toList || scheme.map Char.toLower = "https".toList) &&
        hasHost a then some a.hostname else none := by
  have hparse : parse L s = (readAuthority L t).map fun a => ⟨scheme.map Char.toLower, a⟩ := by
    rw [parse, h]
    exact if_neg (by simp [hne])
  rw [requestHost, hparse]
  cases readAuthority L t <;> rfl

theorem requestHost_of_other (h : getScheme s = some (scheme, rest))
    (hrest : ∀ t, rest ≠ '/' :: '/' :: t) : requestHost L s = none := by
  rw [requestHost, parse_of_other h hrest]
  exact if_neg (by simp [hasHost])

theorem scheme_of_parse (h : ∀ p ∈ getScheme s, p.1 = []) (hu : parse L s = some u) :
    u.scheme = [] := by
  rw [parse] at hu
  split at hu
  case h_1 => cases hu
  case h_2 heq =>
    have hscheme := h _ heq
    split at hu
    · cases hu
      rfl
    · obtain ⟨a, -, rfl⟩ := map_eq_some_iff.mp hu
      exact congrArg (List.map Char.toLower) hscheme
  case h_3 heq =>
    cases hu
    exact congrArg (List.map Char.toLower) (h _ heq)

theorem requestHost_of_no_scheme (h : ∀ p ∈ getScheme s, p.1 = []) : requestHost L s = none := by
  rw [requestHost]
  split
  · rfl
  · rename_i u hu
    rw [scheme_of_parse h hu]
    rfl

theorem getScheme_iff (hscheme : scheme ≠ []) : getScheme t = some (scheme, rest) ↔
    t = scheme ++ ':' :: rest ∧ (∀ c ∈ scheme, isSchemeChar c = true) ∧
      ∀ c ∈ scheme.head?, c.isAlpha = true := by
  constructor
  · intro h
    have hsplit := takeWhile_append_dropWhile (p := isSchemeChar) (l := t)
    have hchars : ∀ c ∈ t.takeWhile isSchemeChar, isSchemeChar c = true := fun c =>
      mem_takeWhile_imp
    rw [getScheme] at h
    split at h
    case h_1 => cases h
    case h_2 c name rest' htake hdrop =>
      split at h
      case isTrue halpha =>
        cases h
        rw [htake, hdrop] at hsplit
        rw [htake] at hchars
        refine ⟨hsplit.symm, hchars, fun x hx => ?_⟩
        cases hx
        exact halpha
      case isFalse =>
        cases h
        exact absurd rfl hscheme
    case h_3 =>
      cases h
      exact absurd rfl hscheme
  · rintro ⟨rfl, hchars, halpha⟩
    obtain ⟨c, name, rfl⟩ := exists_cons_of_ne_nil hscheme
    have htake : ((c :: name) ++ ':' :: rest).takeWhile isSchemeChar = c :: name := by
      rw [takeWhile_append_of_pos hchars, takeWhile_cons_of_neg (by decide),
        append_nil]
    have hdrop : ((c :: name) ++ ':' :: rest).dropWhile isSchemeChar = ':' :: rest := by
      rw [dropWhile_append_of_pos hchars, dropWhile_cons_of_neg (by decide)]
    rw [getScheme, htake, hdrop]
    exact if_pos (halpha c rfl)

theorem getScheme_append (hscheme : scheme ≠ []) (h : getScheme t = some (scheme, rest))
    (s : List Char) : getScheme (t ++ s) = some (scheme, rest ++ s) := by
  obtain ⟨rfl, hchars, halpha⟩ := (getScheme_iff hscheme).mp h
  exact (getScheme_iff hscheme).mpr ⟨by simp, hchars, halpha⟩

theorem no_scheme_append (hs : ∀ c ∈ s.head?, c = '/') (h : ∀ p ∈ getScheme t, p.1 = []) :
    ∀ p ∈ getScheme (t ++ s), p.1 = [] := by
  rintro ⟨scheme, rest⟩ hp
  by_contra hscheme
  obtain ⟨heq, hchars, halpha⟩ := (getScheme_iff hscheme).mp hp
  -- the colon stands in `t`, for a slash would have to stand in the scheme
  rcases append_eq_append_iff.mp heq with ⟨front, hfront, hcolon⟩ | ⟨front, ht, hrest⟩
  · cases front with
    | nil =>
      rw [nil_append] at hcolon
      have hslash := hs ':' (by rw [hcolon]; rfl)
      exact absurd hslash (by decide)
    | cons c front =>
      have hslash := hs c (by rw [hcolon]; rfl)
      have hc := hchars c (by rw [hfront]; simp)
      rw [hslash] at hc
      exact absurd hc (by decide)
  · cases front with
    | nil =>
      rw [nil_append] at hrest
      have hslash := hs ':' (by rw [← hrest]; rfl)
      exact absurd hslash (by decide)
    | cons c front =>
      obtain ⟨rfl, -⟩ := cons.inj hrest
      exact hscheme (h (scheme, front) ((getScheme_iff hscheme).mpr ⟨ht, hchars, halpha⟩))

theorem no_host_of_head (h : ∀ c ∈ t.head?, isDelimiter c = true) (ha : readAuthority L t = some a) :
    hasHost a = false := by
  have hempty : t.takeWhile (!isDelimiter ·) = [] := by
    cases t with
    | nil => rfl
    | cons c t => exact takeWhile_cons_of_neg (by simp [h c rfl])
  simp only [readAuthority, hempty] at ha
  split at ha
  · cases ha
  · split at ha
    · cases ha
    · obtain ⟨name, -, rfl⟩ := map_eq_some_iff.mp ha
      rfl

theorem requestHost_of_slashes (hscheme : scheme ≠ []) (h : getScheme t = some (scheme, s))
    (hsecond : ∀ c s', s = '/' :: '/' :: c :: s' → c = '/') : requestHost L t = none := by
  by_cases hs : ∃ s', s = '/' :: '/' :: s'
  · obtain ⟨s', rfl⟩ := hs
    have hhead : ∀ c ∈ s'.head?, isDelimiter c = true := by
      intro c hc
      obtain ⟨s'', rfl⟩ := head?_eq_some_iff.mp hc
      rw [hsecond c s'' rfl]
      decide
    rw [requestHost_of_authority h hscheme]
    cases ha : readAuthority L s' with
    | none => rfl
    | some a => rw [bind_some, no_host_of_head hhead ha, Bool.and_false]; rfl
  · exact requestHost_of_other h fun s' hs' => hs ⟨s', hs'⟩

theorem slashes_append (hhead : ∀ c ∈ s.head?, c = '/') (hlast : rest.getLast? ≠ some '/')
    (hne : rest ≠ []) (hrest : ∀ t, rest ≠ '/' :: '/' :: t) : ∀ t, rest ++ s ≠ '/' :: '/' :: t := by
  intro t heq
  match rest, hne with
  | [c], _ =>
    cases heq
    exact hlast rfl
  | c :: c' :: r, _ =>
    obtain ⟨rfl, htail⟩ := cons.inj heq
    obtain ⟨rfl, -⟩ := cons.inj htail
    exact hrest r rfl

theorem requestHost_append (hs : Harmless s) (hhead : ∀ c ∈ s.head?, c = '/')
    (hsecond : ∀ c s', s = '/' :: '/' :: c :: s' → c = '/') (hlast : t.getLast? ≠ some '/') :
    requestHost L (t ++ s) = requestHost L t := by
  by_cases hno : ∀ p ∈ getScheme t, p.1 = []
  · rw [requestHost_of_no_scheme hno, requestHost_of_no_scheme (no_scheme_append hhead hno)]
  · simp only [not_forall] at hno
    obtain ⟨⟨scheme, rest⟩, hp, hscheme⟩ := hno
    replace hscheme : scheme ≠ [] := hscheme
    have happend := getScheme_append hscheme hp s
    have hrest : rest.getLast? ≠ some '/' := by
      intro hslash
      rw [((getScheme_iff hscheme).mp hp).1, getLast?_append, getLast?_cons, hslash] at hlast
      exact hlast rfl
    by_cases hauthority : ∃ u, rest = '/' :: '/' :: u
    · obtain ⟨u, rfl⟩ := hauthority
      have hdelim : ∀ c ∈ s.head?, isDelimiter c = true := fun c hc => by
        rw [hhead c hc]
        decide
      rw [cons_append, cons_append] at happend
      rw [requestHost_of_authority hp hscheme, requestHost_of_authority happend hscheme,
        readAuthority_append hs (.inr hdelim)]
    · have hother : ∀ u, rest ≠ '/' :: '/' :: u := fun u hu => hauthority ⟨u, hu⟩
      rw [requestHost_of_other hp hother]
      by_cases hnil : rest = []
      · rw [hnil, nil_append] at happend
        exact requestHost_of_slashes hscheme happend hsecond
      · exact requestHost_of_other happend (slashes_append hhead hrest hnil hother)

end Morf.Lib.Url
