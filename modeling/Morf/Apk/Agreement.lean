import Morf.Apk.Reading

/-! What an intent filter declares by itself, and when `extractIntentFilters` reads just that: its
blocks reach up to the next filter or data element, whatever stands between. -/

namespace Morf.Apk.Filters

open Morf.Lib
open List Option Contents

def dataKeys : List Name :=
  [schemeKey, hostKey, portKey, pathKey, pathPatternKey, pathPrefixKey, mimeTypeKey]

def recognisedKeys : List Name :=
  [schemeKey, hostKey, pathKey, pathPatternKey, pathPrefixKey, mimeTypeKey]

def ownContents (f : Node) : Contents where
  actions := namesOf actionTag f.children
  categories := namesOf categoryTag f.children
  data := (f.children.filter (·.begins dataTag)).filterMap fun d => recordOf d.attrs
  autoVerify := flagOf f.attrs

def ownFilters (c : Node) : List Contents :=
  (c.children.filter (·.begins intentFilterTag)).filterMap fun f => (ownContents f).kept

def Keeps (own later : List Attr) : Prop :=
  (∀ k ∈ dataKeys, stringIn own k = none → stringIn later k = none) ∨
    ∀ k ∈ recognisedKeys, stringIn own k = none ∧ stringIn later k = none

/-- Nothing that is printed before the next filter passes for a part of the filter `f`:
neither an action or a category that is not its child, nor a flag of one of its children, nor an
attribute of its data that stands after a data element. -/
structure Apart (f : Node) (siblings : List Node) : Prop where
  names : ∀ n ∈ f.children.flatMap Node.inner ++ siblings.flatMap Node.subtree,
    n.begins actionTag = false ∧ n.begins categoryTag = false
  flag : (ownContents f).isEmpty = false → flagOf (f.attrs ++ attrsIn f.children) = flagOf f.attrs
  data : ∀ s ∈ segments (·.begins dataTag) f.inner, Keeps s.1.attrs (attrsIn s.2)

def carries (n : Node) : Bool :=
  n.attrs.any fun a => match a.key with
    | .android name _ => decide (name ∈ filterKeys)
    | .other .. => false

theorem stringIn_append (as bs : List Attr) : stringIn (as ++ bs) k = (stringIn as k).or (stringIn bs k) :=
  findSome?_append

theorem numberIn_append (as bs : List Attr) : numberIn (as ++ bs) k = (numberIn as k).or (numberIn bs k) :=
  findSome?_append

theorem attrsIn_append (ns ms : List Node) : attrsIn (ns ++ ms) = attrsIn ns ++ attrsIn ms :=
  flatMap_append

theorem ne_nil_of_stringIn (h : stringIn attrs k = some v) : v ≠ [] := by
  obtain ⟨a, -, ha⟩ := exists_of_findSome?_eq_some h
  unfold Attr.named at ha
  split at ha
  · obtain ⟨⟨-, hne⟩, ⟨⟩⟩ := ite_none_right_eq_some.mp ha
    exact hne
  · cases ha

theorem key_of_carries (h : carries n = false) (hk : k ∈ filterKeys) :
    ∀ a ∈ n.attrs, ∀ id, a.key ≠ .android k id := by
  intro a ha id hkey
  have := List.any_eq_false.mp h a ha
  rw [hkey] at this
  exact this (decide_eq_true hk)

theorem stringIn_of_not_carries (h : ∀ n ∈ ns, carries n = false) (hk : k ∈ filterKeys) :
    stringIn (attrsIn ns) k = none := by
  rw [stringIn, findSome?_eq_none_iff]
  intro a ha
  obtain ⟨n, hn, ha⟩ := mem_flatMap.mp ha
  have hkey := key_of_carries (h n hn) hk a ha
  unfold Attr.named
  split
  · rename_i name id v hname hv
    exact if_neg fun heq => hkey id (by rw [hname, heq.1])
  · rfl

theorem numberIn_of_not_carries (h : ∀ n ∈ ns, carries n = false) (hk : k ∈ filterKeys) :
    numberIn (attrsIn ns) k = none := by
  rw [numberIn, findSome?_eq_none_iff]
  intro a ha
  obtain ⟨n, hn, ha⟩ := mem_flatMap.mp ha
  have hkey := key_of_carries (h n hn) hk a ha
  unfold Attr.number
  split
  · rename_i name id ty v hname hv
    exact if_neg fun heq => hkey id (by rw [hname, heq])
  · rfl

theorem lookup_blocks (look : List Attr → Option Text)
    (happend : ∀ as bs, look (as ++ bs) = (look as).or (look bs))
    (h : ∀ n ∈ ns, look (attrsIn n.inner) = none) :
    look (attrsIn (ns.flatMap fun n => n :: n.inner)) = look (attrsIn ns) := by
  induction ns with
  | nil => rfl
  | cons n ns ih =>
    obtain ⟨hn, hns⟩ := forall_mem_cons.mp h
    have hleft : attrsIn ((n :: ns).flatMap fun n => n :: n.inner) =
        n.attrs ++ (attrsIn n.inner ++ attrsIn (ns.flatMap fun n => n :: n.inner)) := by
      simp [attrsIn]
    have hright : attrsIn (n :: ns) = n.attrs ++ attrsIn ns := flatMap_cons
    rw [hleft, hright, happend, happend, happend, hn, ih hns, none_or]

theorem dataOf_eq_iff : dataOf f = dataOf g ↔ ∀ k ∈ dataKeys, f k = g k := by
  have hprefix : ∀ u v : Text, (if u ≠ [] then [u] else []) = (if v ≠ [] then [v] else []) ↔ u = v := by
    intro u v
    by_cases hu : u = [] <;> by_cases hv : v = [] <;> simp [hu, hv, eq_comm]
  simp only [dataOf, ManifestFilterData.mk.injEq, hprefix, dataKeys, forall_mem_cons,
    not_mem_nil, false_imp_iff, implies_true, and_true]
  constructor
  · rintro ⟨hscheme, hhost, hport, hpath, hprefix, hpattern, hmime⟩
    exact ⟨hscheme, hhost, hport, hpath, hpattern, hprefix, hmime⟩
  · rintro ⟨hscheme, hhost, hport, hpath, hpattern, hprefix, hmime⟩
    exact ⟨hscheme, hhost, hport, hpath, hprefix, hpattern, hmime⟩

theorem recognised_dataOf : (dataOf f).recognised = false ↔ ∀ k ∈ recognisedKeys, f k = [] := by
  have hne : ∀ u : Text, decide (u ≠ []) = false ↔ u = [] := fun u => by simp
  have hprefix : ∀ u : Text, decide ((if u ≠ [] then [u] else []) ≠ []) = false ↔ u = [] := fun u => by
    by_cases hu : u = [] <;> simp [hu]
  have hrecognised : (dataOf f).recognised = (decide (f schemeKey ≠ []) || decide (f hostKey ≠ []) ||
      decide (f pathKey ≠ []) || decide (f pathPatternKey ≠ []) ||
      decide ((if f pathPrefixKey ≠ [] then [f pathPrefixKey] else []) ≠ []) ||
      decide (f mimeTypeKey ≠ [])) := rfl
  simp only [hrecognised, recognisedKeys, forall_mem_cons, not_mem_nil, false_imp_iff,
    implies_true, and_true, Bool.or_eq_false_iff, hprefix, hne, and_assoc]

theorem readData_eq_none : readData f = none ↔ ∀ k ∈ recognisedKeys, f k = [] := by
  rw [← recognised_dataOf, readData]
  split
  · rename_i h
    simp [h]
  · rename_i h
    simp [h]

theorem readData_eq_some : readData f = some d ↔ d = dataOf f ∧ (dataOf f).recognised = true := by
  rw [readData]
  split
  · rename_i h
    simp [h, eq_comm]
  · rename_i h
    simp [h]

theorem recognisedKeys_subset : recognisedKeys ⊆ dataKeys := by
  simp [recognisedKeys, dataKeys]

theorem readData_eq_iff : readData f = readData g ↔
    (∀ k ∈ dataKeys, f k = g k) ∨ ∀ k ∈ recognisedKeys, f k = [] ∧ g k = [] := by
  constructor
  · intro h
    cases hf : readData f with
    | none =>
      have hg := h.symm.trans hf
      exact .inr fun k hk => ⟨readData_eq_none.mp hf k hk, readData_eq_none.mp hg k hk⟩
    | some d =>
      have hg := h.symm.trans hf
      exact .inl (dataOf_eq_iff.mp ((readData_eq_some.mp hf).1.symm.trans (readData_eq_some.mp hg).1))
  · rintro (h | h)
    · rw [readData, readData, dataOf_eq_iff.mpr h]
    · rw [readData_eq_none.mpr fun k hk => (h k hk).1, readData_eq_none.mpr fun k hk => (h k hk).2]

theorem getD_stringIn_eq_nil (attrs : List Attr) (k : Name) :
    (stringIn attrs k).getD [] = [] ↔ stringIn attrs k = none := by
  cases h : stringIn attrs k with
  | none => simp
  | some v => simpa using ne_nil_of_stringIn h

theorem getD_stringIn_append : (stringIn (own ++ later) k).getD [] = (stringIn own k).getD [] ↔
    (stringIn own k = none → stringIn later k = none) := by
  rw [stringIn_append]
  cases hown : stringIn own k with
  | some v => simp
  | none =>
    rw [none_or, getD_none, getD_stringIn_eq_nil]
    exact ⟨fun h _ => h, fun h => h rfl⟩

theorem keeps_iff (own later : List Attr) : recordOf (own ++ later) = recordOf own ↔ Keeps own later := by
  rw [recordOf, recordOf, readData_eq_iff, Keeps]
  refine or_congr (forall₂_congr fun k _ => getD_stringIn_append) (forall₂_congr fun k _ => ?_)
  rw [getD_stringIn_eq_nil, getD_stringIn_eq_nil, stringIn_append, or_eq_none_iff]
  exact ⟨fun h => h.1, fun h => ⟨h, h.1⟩⟩

theorem isSome_recordOf (h : (recordOf own).isSome = true) : (recordOf (own ++ later)).isSome = true := by
  rw [isSome_iff_ne_none, ne_eq, recordOf, readData_eq_none] at h ⊢
  intro hnone
  refine h fun k hk => ?_
  have := (getD_stringIn_eq_nil _ k).mp (hnone k hk)
  rw [stringIn_append, or_eq_none_iff] at this
  exact (getD_stringIn_eq_nil _ k).mpr this.1

theorem namesOf_append : namesOf tag (ns ++ ms) = namesOf tag ns ++ namesOf tag ms := by
  rw [namesOf, filter_append, filterMap_append]
  rfl

theorem namesOf_cons (n : Node) : namesOf tag (n :: ns) = namesOf tag [n] ++ namesOf tag ns :=
  @namesOf_append tag [n] ns

theorem namesOf_of_none (h : ∀ n ∈ ns, n.begins tag = false) : namesOf tag ns = [] := by
  rw [namesOf, filter_eq_nil_iff.mpr fun n hn => by simp [h n hn]]
  rfl

theorem namesOf_eq_nil (hnamed : ∀ n ∈ ns, n.begins tag = true → (nameOf n).isSome = true) :
    namesOf tag ns = [] ↔ ∀ n ∈ ns, n.begins tag = false := by
  refine ⟨fun h n hn => ?_, namesOf_of_none⟩
  by_contra hbegins
  rw [Bool.not_eq_false] at hbegins
  rw [namesOf, filterMap_eq_nil_iff] at h
  have hname := hnamed n hn hbegins
  rw [h n (mem_filter.mpr ⟨hn, hbegins⟩)] at hname
  cases hname

theorem length_namesOf_blocks : (namesOf tag (ns.flatMap fun n => n :: n.inner)).length =
    (namesOf tag ns).length + (namesOf tag (ns.flatMap Node.inner)).length := by
  induction ns with
  | nil => rfl
  | cons n ns ih =>
    rw [flatMap_cons, flatMap_cons, namesOf_append, namesOf_append, namesOf_cons,
      @namesOf_cons tag ns]
    simp only [length_append, ih]
    omega

theorem namesOf_blocks (h : ∀ n ∈ ns.flatMap Node.inner, n.begins tag = false) :
    namesOf tag (ns.flatMap fun n => n :: n.inner) = namesOf tag ns := by
  induction ns with
  | nil => rfl
  | cons n ns ih =>
    rw [flatMap_cons, forall_mem_append] at h
    rw [flatMap_cons, namesOf_append, ih h.2, namesOf_cons, @namesOf_cons tag ns,
      namesOf_of_none h.1, append_nil]

theorem namesOf_block_iff (tag : Name) (hf : f.begins tag = false)
    (hnamed : ∀ n ∈ f.inner ++ later, n.begins tag = true → (nameOf n).isSome = true) :
    namesOf tag (f :: (f.inner ++ later)) = namesOf tag f.children ↔
      ∀ n ∈ f.children.flatMap Node.inner ++ later, n.begins tag = false := by
  have hblock : namesOf tag (f :: (f.inner ++ later)) =
      namesOf tag (f.children.flatMap fun c => c :: c.inner) ++ namesOf tag later := by
    have hone : namesOf tag [f] = [] := namesOf_of_none (by simp [hf])
    rw [namesOf_cons, hone, nil_append, namesOf_append, f.inner_eq]
  have hdeep : ∀ n ∈ f.children.flatMap Node.inner, n ∈ f.inner := by
    intro n hn
    obtain ⟨c, hc, hn⟩ := mem_flatMap.mp hn
    rw [f.inner_eq]
    exact mem_flatMap.mpr ⟨c, hc, mem_cons_of_mem c hn⟩
  rw [hblock, forall_mem_append]
  constructor
  · intro h
    have hlen := congrArg List.length h
    rw [length_append, length_namesOf_blocks] at hlen
    refine ⟨(namesOf_eq_nil fun n hn => hnamed n (mem_append_left _ (hdeep n hn))).mp ?_,
      (namesOf_eq_nil fun n hn => hnamed n (mem_append_right _ hn)).mp ?_⟩
    · exact length_eq_zero_iff.mp (by omega)
    · exact length_eq_zero_iff.mp (by omega)
  · rintro ⟨hinner, hlater⟩
    rw [namesOf_blocks hinner, namesOf_of_none hlater, append_nil]

theorem namesOf_block_eq_nil (h : namesOf tag (f :: (f.inner ++ later)) = []) :
    namesOf tag f.children = [] := by
  rw [namesOf_cons, namesOf_append, f.inner_eq, append_eq_nil_iff, append_eq_nil_iff] at h
  have hlen := congrArg List.length h.2.1
  rw [length_namesOf_blocks, length_nil] at hlen
  exact length_eq_zero_iff.mp (by omega)

/-- A filter in its place: names are given to what needs them, and its attributes are carried by
itself and its children only. -/
structure InPlace (f : Node) (later : List Node) : Prop where
  tag : f.begins intentFilterTag = true
  action : ∀ n ∈ f.inner ++ later, n.begins actionTag = true → (nameOf n).isSome = true
  category : ∀ n ∈ f.inner ++ later, n.begins categoryTag = true → (nameOf n).isSome = true
  bare : ∀ n ∈ f.children.flatMap Node.inner ++ later, carries n = false

theorem InPlace.bare_inner (h : InPlace f later) : ∀ c ∈ f.children, ∀ n ∈ c.inner, carries n = false :=
  fun c hc n hn => h.bare n (mem_append_left _ (mem_flatMap.mpr ⟨c, hc, hn⟩))

theorem InPlace.bare_later (h : InPlace f later) : ∀ n ∈ later, carries n = false :=
  fun n hn => h.bare n (mem_append_right _ hn)

theorem InPlace.flagOf_block (h : InPlace f later) :
    flagOf (attrsIn (f :: (f.inner ++ later))) = flagOf (f.attrs ++ attrsIn f.children) := by
  have hkey : autoVerifyKey ∈ filterKeys := mem_cons_self
  have hattrs : attrsIn (f :: (f.inner ++ later)) =
      f.attrs ++ (attrsIn (f.children.flatMap fun c => c :: c.inner) ++ attrsIn later) := by
    rw [← f.inner_eq, ← attrsIn_append]
    rfl
  refine readAutoVerify_congr ?_ ?_
  · rw [hattrs, stringIn_append, stringIn_append, stringIn_append,
      lookup_blocks (fun as => stringIn as autoVerifyKey) stringIn_append
        fun c hc => stringIn_of_not_carries (h.bare_inner c hc) hkey,
      stringIn_of_not_carries h.bare_later hkey, or_none]
  · rw [hattrs, numberIn_append, numberIn_append, numberIn_append,
      lookup_blocks (fun as => numberIn as autoVerifyKey) numberIn_append
        fun c hc => numberIn_of_not_carries (h.bare_inner c hc) hkey,
      numberIn_of_not_carries h.bare_later hkey, or_none]

theorem recordOf_of_not_carries (h : ∀ n ∈ ns, carries n = false) :
    recordOf (attrsIn ns) = none := by
  refine readData_eq_none.mpr fun k hk => ?_
  have hkey : k ∈ filterKeys := dataKeys_mem k (recognisedKeys_subset hk)
  rw [stringIn_of_not_carries h hkey, getD_none]

theorem recordOf_append_of_not_carries (own : List Attr) (h : ∀ n ∈ ns, carries n = false) :
    recordOf (own ++ attrsIn ns) = recordOf own :=
  (keeps_iff _ _).mpr (.inl fun k hk _ => stringIn_of_not_carries h (dataKeys_mem k hk))

theorem InPlace.data_block (h : InPlace f later) : (readContents (f :: (f.inner ++ later))).data =
    (segments (·.begins dataTag) f.inner).filterMap fun s => recordOf (s.1.attrs ++ attrsIn s.2) := by
  have hf : f.begins dataTag = false := begins_of_begins h.tag (by decide) (by decide)
  have hskip : segments (·.begins dataTag) (f :: (f.inner ++ later)) =
      segments (·.begins dataTag) (f.inner ++ later) := segments_cons_of_not hf
  have hblock : ∀ s : Node × List Node, attrsIn (s.1 :: s.2) = s.1.attrs ++ attrsIn s.2 := fun s =>
    flatMap_cons
  simp only [readContents, hskip, hblock]
  refine filterMap_segments_append ?_ ?_
  · intro d zs ws hws
    rw [attrsIn_append, ← append_assoc]
    exact recordOf_append_of_not_carries _ fun n hn => h.bare_later n (hws n hn)
  · intro s hs
    obtain ⟨-, hfirst, hrest⟩ := mem_segments hs
    rw [← hblock]
    refine recordOf_of_not_carries (forall_mem_cons.mpr ⟨h.bare_later _ hfirst, fun n hn => ?_⟩)
    exact h.bare_later n (hrest n hn).1

theorem filterMap_recordOf_blocks {ns : List Node} (h : ∀ n ∈ ns.flatMap Node.inner, carries n = false) :
    ((ns.flatMap fun n => n :: n.inner).filter (·.begins dataTag)).filterMap (fun d => recordOf d.attrs) =
      (ns.filter (·.begins dataTag)).filterMap fun d => recordOf d.attrs := by
  induction ns with
  | nil => rfl
  | cons n ns ih =>
    rw [flatMap_cons, forall_mem_append] at h
    have hinner : (n.inner.filter (·.begins dataTag)).filterMap (fun d => recordOf d.attrs) = [] := by
      refine filterMap_eq_nil_iff.mpr fun d hd => ?_
      have hbare : ∀ m ∈ [d], carries m = false := by
        simpa using h.1 d (mem_of_mem_filter hd)
      simpa [attrsIn] using recordOf_of_not_carries hbare
    rw [flatMap_cons, filter_append, filterMap_append, ih h.2, filter_cons,
      filter_cons]
    split
    · rw [filterMap_cons, filterMap_cons, hinner]
      cases recordOf n.attrs <;> rfl
    · rw [hinner, nil_append]

theorem InPlace.own_data (h : InPlace f later) : (ownContents f).data =
    (segments (·.begins dataTag) f.inner).filterMap fun s => recordOf s.1.attrs := by
  have hfst : (fun s : Node × List Node => recordOf s.1.attrs) = (fun d => recordOf d.attrs) ∘ Prod.fst :=
    rfl
  have hbare : ∀ n ∈ f.children.flatMap Node.inner, carries n = false := fun n hn =>
    h.bare n (mem_append_left _ hn)
  rw [hfst, ← filterMap_map, map_fst_segments, f.inner_eq, filterMap_recordOf_blocks hbare]
  rfl

theorem InPlace.data_iff (h : InPlace f later) :
    (readContents (f :: (f.inner ++ later))).data = (ownContents f).data ↔
      ∀ s ∈ segments (·.begins dataTag) f.inner, Keeps s.1.attrs (attrsIn s.2) := by
  rw [h.data_block, h.own_data, filterMap_eq_iff fun s _ => isSome_recordOf]
  exact forall₂_congr fun s _ => keeps_iff _ _

theorem Contents.isEmpty_iff {c : Contents} :
    c.isEmpty = true ↔ c.actions = [] ∧ c.data = [] ∧ c.categories = [] := by
  simp [isEmpty, and_assoc]

theorem Contents.kept_eq_iff {c d : Contents} : c.kept = d.kept ↔
    c.actions = d.actions ∧ c.categories = d.categories ∧ c.data = d.data ∧
      (d.isEmpty = false → c.autoVerify = d.autoVerify) := by
  constructor
  · intro h
    cases hd : d.isEmpty with
    | true =>
      have hc : c.isEmpty = true := by
        by_contra hc
        rw [kept, kept, hd, if_neg hc, if_pos rfl] at h
        cases h
      obtain ⟨hca, hcd, hcc⟩ := isEmpty_iff.mp hc
      obtain ⟨hda, hdd, hdc⟩ := isEmpty_iff.mp hd
      rw [hca, hcd, hcc, hda, hdd, hdc]
      exact ⟨rfl, rfl, rfl, fun h => Bool.noConfusion h⟩
    | false =>
      have hkept : d.kept = some d := if_neg (by simp [hd])
      rw [hkept, kept] at h
      split at h
      · cases h
      · cases h
        exact ⟨rfl, rfl, rfl, fun _ => rfl⟩
  · rintro ⟨hactions, hcategories, hdata, hflag⟩
    have hempty : c.isEmpty = d.isEmpty := by
      rw [isEmpty, isEmpty, hactions, hcategories, hdata]
    rw [kept, kept, hempty]
    cases hd : d.isEmpty with
    | true => rfl
    | false =>
      obtain ⟨cactions, ccategories, cdata, cflag⟩ := c
      obtain ⟨dactions, dcategories, ddata, dflag⟩ := d
      cases hactions
      cases hcategories
      cases hdata
      cases hflag hd
      rfl

/-- A filter is read as it is declared just if nothing passes for a part of it. -/
theorem InPlace.kept_iff (h : InPlace f (siblings.flatMap Node.subtree)) :
    (readContents (f :: (f.inner ++ siblings.flatMap Node.subtree))).kept = (ownContents f).kept ↔
      Apart f siblings := by
  have hactions := namesOf_block_iff actionTag
    (begins_of_begins h.tag (by decide) (by decide)) h.action
  have hcategories := namesOf_block_iff categoryTag
    (begins_of_begins h.tag (by decide) (by decide)) h.category
  have hdata := h.data_iff
  have hflag := h.flagOf_block
  rw [kept_eq_iff]
  constructor
  · rintro ⟨ha, hc, hd, hf⟩
    exact ⟨fun n hn => ⟨hactions.mp ha n hn, hcategories.mp hc n hn⟩,
      fun hne => hflag.symm.trans (hf hne), hdata.mp hd⟩
  · rintro ⟨hnames, hf, hd⟩
    exact ⟨hactions.mpr fun n hn => (hnames n hn).1, hcategories.mpr fun n hn => (hnames n hn).2,
      hdata.mpr hd, fun hne => hflag.trans (hf hne)⟩

theorem InPlace.isSome_kept (h : InPlace f later) (hown : (ownContents f).kept.isSome = true) :
    (readContents (f :: (f.inner ++ later))).kept.isSome = true := by
  rw [kept] at hown ⊢
  split at hown
  · cases hown
  rename_i hne
  have hread : ¬ (readContents (f :: (f.inner ++ later))).isEmpty = true := by
    intro hempty
    obtain ⟨hactions, hdata, hcategories⟩ := isEmpty_iff.mp hempty
    refine hne (isEmpty_iff.mpr ⟨namesOf_block_eq_nil hactions, ?_,
      namesOf_block_eq_nil hcategories⟩)
    have hle : (ownContents f).data.length ≤ (readContents (f :: (f.inner ++ later))).data.length := by
      rw [h.data_block, h.own_data]
      exact length_filterMap_le fun s _ => isSome_recordOf
    rw [hdata] at hle
    exact length_eq_zero_iff.mp (Nat.le_zero.mp hle)
  rw [if_neg hread]
  rfl

structure ComponentInPlace (c : Node) : Prop where
  tag : c.begins intentFilterTag = false
  filters : ∀ n ∈ c.children.flatMap Node.inner, n.begins intentFilterTag = false
  inPlace : ∀ s ∈ segments (·.begins intentFilterTag) c.children,
    InPlace s.1 (s.2.flatMap Node.subtree)

theorem ComponentInPlace.filters_iff (h : ComponentInPlace c) (hps : Readable ps)
    (hsubtree : ps.map Prod.snd = c.subtree) :
    (extractIntentFilters (textOf ps)).map (·.toContents) = ownFilters c ↔
      ∀ s ∈ segments (·.begins intentFilterTag) c.children, Apart s.1 s.2 := by
  have hne : ps ≠ [] := by
    rintro rfl
    rw [map_nil, c.subtree_eq] at hsubtree
    cases hsubtree
  have hinner : ∀ n ∈ c.children, ∀ m ∈ n.inner, m.begins intentFilterTag = false := fun n hn m hm =>
    h.filters m (mem_flatMap.mpr ⟨n, hn, hm⟩)
  have hsegments : segments (·.begins intentFilterTag) c.subtree =
      (segments (·.begins intentFilterTag) c.children).map fun s =>
        (s.1, s.1.inner ++ s.2.flatMap Node.subtree) := by
    have hskip : segments (·.begins intentFilterTag) (c :: c.inner) =
        segments (·.begins intentFilterTag) c.inner :=
      segments_cons_of_not h.tag
    have hsubtree : (fun n : Node => n :: n.inner) = Node.subtree := funext fun n => n.subtree_eq.symm
    have hblocks : segments (·.begins intentFilterTag) (c.children.flatMap fun n => n :: n.inner) =
        (segments (·.begins intentFilterTag) c.children).map fun s =>
          (s.1, s.1.inner ++ s.2.flatMap fun n => n :: n.inner) := segments_blocks hinner
    rw [c.subtree_eq, hskip, c.inner_eq, hblocks, hsubtree]
  have hfst : (fun s : Node × List Node => (ownContents s.1).kept) =
      (fun f => (ownContents f).kept) ∘ Prod.fst := rfl
  have hown : ownFilters c = (segments (·.begins intentFilterTag) c.children).filterMap fun s =>
      (ownContents s.1).kept := by
    rw [hfst, ← filterMap_map, map_fst_segments]
    rfl
  rw [extractIntentFilters_textOf hps hne, hsubtree, hsegments, filterMap_map, hown]
  refine (filterMap_eq_iff fun s hs => (h.inPlace s hs).isSome_kept).trans ?_
  exact forall₂_congr fun s hs => (h.inPlace s hs).kept_iff

end Morf.Apk.Filters
