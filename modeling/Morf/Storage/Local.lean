import Morf.Lib.Machine
import Morf.Storage.Backend

/-! `storage/local.go`: the paths that its calls touch for a key, and its uploads under any
interleaving with each other, with `Open` and with `Delete` of the same key. -/

namespace Morf.Storage.LocalStorage

open Morf.Lib Morf.Lib.Path
open List Function Option

/-- The directories `os.MkdirAll` creates; no path has more parents than characters. -/
def mkdirAll (isDir : List Char → Bool) : Nat → List Char → List (List Char)
  | 0, _ => []
  | fuel + 1, p => if isDir p then [] else mkdirAll isDir fuel (dir p) ++ [p]

/-- The name `os.CreateTemp` makes of the pattern `.morf-tmp-*` and a random number. -/
def tempName (random : Nat) : List Char := ".morf-tmp-".toList ++ Nat.toDigits 10 random

inductive Call
  | put
  | openObject
  | delete
  | stat
  deriving DecidableEq

/-- What a call creates, opens, renames, removes or looks at, if no operation fails; with a failure it
is a part of this. -/
def touched (isDir : List Char → Bool) (random : Nat) (base : Path) (key : Key) (call : Call) :
    List (List Char) :=
  match resolve base key with
  | .error _ => []
  | .ok full =>
    if call = .put then
      let dir := Path.dir full.toList
      mkdirAll isDir dir.length dir ++ [dir ++ '/' :: tempName random, full.toList]
    else [full.toList]

def Below (base p : List Char) : Prop :=
  ∃ more, more ≠ [] ∧ (∀ s ∈ more, Plain s) ∧ p = base ++ rooted more

theorem not_below_self (base : List Char) : ¬ Below base base := by
  rintro ⟨more, hne, -, h⟩
  obtain ⟨s, rest, rfl⟩ := exists_cons_of_ne_nil hne
  simp [rooted] at h

theorem plain_tempName (random : Nat) : Plain (tempName random) := by
  have hslash : '/' ∉ tempName random := fun h => by
    rcases mem_append.mp h with h | h
    · revert h
      decide
    · exact absurd (Nat.isDigit_of_mem_toDigits (by decide) (by decide) h) (by decide)
  exact ⟨nofun, hslash, nofun, nofun⟩

theorem sanitizeKey_ok {key : Key} {rel : String} (h : sanitizeKey key = .ok rel) :
    key.toList.head? ≠ some '/' ∧ rel.toList = clean key.toList ∧
      ['.', '.'] ∉ remains key.toList := by
  unfold sanitizeKey at h
  split at h
  · cases h
  · split at h
    · cases h
    · rename_i hhead
      dsimp only at h
      split at h <;> cases h
      rename_i hdots
      refine ⟨hhead, String.toList_ofList, fun hd => hdots ?_⟩
      rcases clean_escapes hhead hd with he | ⟨t, ht⟩
      · rw [he]
        decide
      · have hsplit := splitOn_append_cons_self (a := '/') ['.', '.'] t
        rw [← ht]
        exact hsplit ▸ mem_append_left _ (by decide)

section Base

variable {base : Path} {key : Key} {isDir : List Char → Bool} (hr : base.toList.head? = some '/')
  (hc : clean base.toList = base.toList) (hne : base.toList ≠ ['/'])
include hr hc hne

theorem mkdirAll_below (hbase : isDir base.toList = true) (fuel : Nat) {more : List (List Char)}
    (h : ∀ s ∈ more, Plain s) :
    ∀ p ∈ mkdirAll isDir fuel (base.toList ++ rooted more), Below base.toList p := by
  induction fuel generalizing more with
  | zero => exact nofun
  | succ fuel ih =>
    intro p hp
    rw [mkdirAll] at hp
    split at hp
    · cases hp
    · rename_i hdir
      rcases eq_nil_or_concat more with rfl | ⟨front, s, rfl⟩
      · exact absurd hbase (by simpa [rooted] using hdir)
      · rw [concat_eq_append] at hp h
        obtain ⟨hfront, hs⟩ := forall_mem_append.mp h
        rcases mem_append.mp hp with hp | hp
        · rw [dir_append_rooted hr hc hne hfront (hs _ (mem_singleton_self _)).no_slash] at hp
          exact ih hfront p hp
        · exact ⟨front ++ [s], by simp, h, mem_singleton.mp hp⟩

/-- The names that are left of the key stand below the base. -/
theorem resolve_eq {rel : String} (h : sanitizeKey key = .ok rel) :
    ∃ full, resolve base key = .ok full ∧
      full.toList = base.toList ++ rooted (remains key.toList) := by
  obtain ⟨hhead, hrel, hdots⟩ := sanitizeKey_ok h
  refine ⟨_, by rw [resolve, h]; rfl, ?_⟩
  have hremains : remains rel.toList = remains key.toList := by
    rw [hrel, remains_clean hhead hdots]
  rw [String.toList_ofList, join_eq_rooted hr hc hne (hremains ▸ hdots), hremains]

theorem touched_below (hbase : isDir base.toList = true) (random : Nat) {full : Path}
    {more : List (List Char)} (hfull : resolve base key = .ok full)
    (heq : full.toList = base.toList ++ rooted more) (hmore : more ≠ []) (h : ∀ s ∈ more, Plain s)
    (call : Call) : ∀ p ∈ touched isDir random base key call, Below base.toList p := by
  have hbelow : Below base.toList full.toList := ⟨more, hmore, h, heq⟩
  intro p hp
  rw [touched, hfull] at hp
  dsimp only at hp
  split at hp
  · obtain ⟨front, s, rfl⟩ := (eq_nil_or_concat more).resolve_left hmore
    rw [concat_eq_append] at heq h
    obtain ⟨hfront, hs⟩ := forall_mem_append.mp h
    rw [heq, dir_append_rooted hr hc hne hfront (hs _ (mem_singleton_self _)).no_slash,
      ← heq] at hp
    rcases mem_append.mp hp with hp | hp
    · exact mkdirAll_below hr hc hne hbase _ hfront p hp
    · rcases mem_cons.mp hp with rfl | hp
      · refine ⟨front ++ [tempName random], by simp, ?_, by simp [rooted]⟩
        exact forall_mem_append.mpr ⟨hfront, by simpa using plain_tempName random⟩
      · rw [mem_singleton.mp hp]
        exact hbelow
  · rw [mem_singleton.mp hp]
    exact hbelow

end Base

/-- Only a key that cleans to the base itself leaves it. -/
theorem keys_contained_iff (base : Path) (key : Key) (isDir : List Char → Bool) (random : Nat)
    (hr : base.toList.head? = some '/') (hc : clean base.toList = base.toList)
    (hne : base.toList ≠ ['/']) (hbase : isDir base.toList = true) :
    ((∀ call, ∀ p ∈ touched isDir random base key call, Below base.toList p) ∧
      ∀ p, localPath base key = some p → Below base.toList p.toList) ↔ sanitizeKey key ≠ .ok "." := by
  cases hs : sanitizeKey key with
  | error e =>
    have herror : resolve base key = .error e := by
      rw [resolve, hs]
      rfl
    simp [touched, localPath, herror, Except.toOption]
  | ok rel =>
    obtain ⟨hhead, hrel, hdots⟩ := sanitizeKey_ok hs
    obtain ⟨full, hfull, heq⟩ := resolve_eq hr hc hne hs
    constructor
    · rintro ⟨h, -⟩ hdot
      cases hdot
      have hnil : remains key.toList = [] := by
        rw [← remains_clean hhead hdots, ← hrel]
        rfl
      have hself : full.toList = base.toList := by
        rw [heq, hnil]
        exact append_nil _
      have := h .stat full.toList (by simp [touched, hfull])
      rw [hself] at this
      exact not_below_self _ this
    · intro hdot
      have hmore : remains key.toList ≠ [] := fun hnil => hdot <| congrArg Except.ok <|
        String.toList_injective (hrel.trans (clean_eq_dot hhead hnil))
      have hplain : ∀ s ∈ remains key.toList, Plain s := fun s => plain_of_mem_remains hdots
      refine ⟨touched_below hr hc hne hbase random hfull heq hmore hplain, fun p hp => ?_⟩
      obtain rfl : full = p := by simpa [localPath, hfull, Except.toOption] using hp
      exact ⟨_, hmore, hplain, heq⟩

theorem plain_key_contained :
    sanitizeKey "a/b.apk" ≠ .ok "." ∧
      ∀ call, ∀ p ∈ touched (· = "/tmp/morf/uploads".toList) 7 "/tmp/morf/uploads" "a/b.apk" call,
        Below "/tmp/morf/uploads".toList p :=
  have hkey : sanitizeKey "a/b.apk" ≠ .ok "." := by decide
  ⟨hkey, ((keys_contained_iff "/tmp/morf/uploads" "a/b.apk" _ 7 (by decide) (by decide) (by decide)
    (by decide)).mpr hkey).1⟩

/-- For this key `Put` writes beside the base and `Delete` removes the base itself. -/
theorem dot_key_leaves_base :
    touched (fun _ => true) 7 "/tmp/morf/uploads" "." .delete =
        ["/tmp/morf/uploads".toList] ∧
      "/tmp/morf/.morf-tmp-7".toList ∈
        touched (fun _ => true) 7 "/tmp/morf/uploads" "." .put ∧
      ¬ Below "/tmp/morf/uploads".toList "/tmp/morf/.morf-tmp-7".toList := by
  refine ⟨by decide, by decide, ?_⟩
  rintro ⟨more, -, -, h⟩
  exact absurd ⟨rooted more, h.symm⟩
    (by decide : ¬ "/tmp/morf/uploads".toList <+: "/tmp/morf/.morf-tmp-7".toList)

structure Upload where
  size : Int
  reader : Stream

/-- A call of `Put` on its temporary file. -/
inductive Op
  | write (chunk : Bytes)
  | sync
  | close
  | rename

def Op.bytes : Op → Bytes
  | .write chunk => chunk
  | .sync | .close | .rename => []

namespace Upload

/-- What `io.CopyN` reads, or `io.Copy` for a negative size. -/
def source (u : Upload) : Stream :=
  if 0 ≤ u.size then limitReader u.size u.reader.fault u.reader.chunks else u.reader

def copyErr (u : Upload) : Option String :=
  u.source.fault.or (if u.source.bytes.length < u.size then some "EOF" else none)

def ops (u : Upload) : List Op :=
  u.source.chunks.map .write ++
    match u.copyErr with
    | none => [.sync, .close, .rename]
    | some _ => []

def Complete (u : Upload) (bytes : Bytes) : Prop :=
  if 0 ≤ u.size then bytes = u.reader.bytes.take u.size.toNat ∧ bytes.length = u.size
  else bytes = u.reader.bytes ∧ u.reader.fault = none

/-- The file holds `bytes` and `todo` is still to do. -/
def Left (u : Upload) (bytes : Bytes) (todo : List Op) : Prop :=
  todo <:+ u.ops ∧ bytes ++ todo.flatMap Op.bytes = u.source.bytes

theorem bytes_ops (u : Upload) : u.ops.flatMap Op.bytes = u.source.bytes := by
  have hwrites : (u.source.chunks.map Op.write).flatMap Op.bytes = u.source.bytes := by
    rw [flatMap_map]
    exact congrArg _ (map_id _)
  rw [ops, flatMap_append, hwrites]
  split <;> exact append_nil _

/-- The rename is the last operation, and comes only after a copy without an error. -/
theorem rename_last {u : Upload} {todo : List Op} (h : .rename :: todo <:+ u.ops) :
    u.copyErr = none ∧ todo = [] := by
  have hend : ∀ {chunks tail}, .rename :: todo <:+ map Op.write chunks ++ tail →
      .rename :: todo <:+ tail := by
    intro chunks tail h
    induction chunks with
    | nil => exact h
    | cons chunk chunks ih => exact ih ((suffix_cons_iff.mp h).resolve_left nofun)
  have htail := hend h
  split at htail
  · rename_i hnone
    simpa [suffix_cons_iff, hnone] using htail
  · simp at htail

theorem complete_source {u : Upload} (h : u.copyErr = none) : u.Complete u.source.bytes := by
  obtain ⟨hfault, hlength⟩ := or_eq_none_iff.mp h
  have hlength : ¬ (u.source.bytes.length : Int) < u.size := fun hlt => by
    rw [if_pos hlt] at hlength
    cases hlength
  by_cases hsize : 0 ≤ u.size
  · have hcontent := (limitReader_spec u.size u.reader).1
    rw [source, if_pos hsize, hcontent] at hlength
    rw [Complete, if_pos hsize, source, if_pos hsize, hcontent]
    have := length_take_le u.size.toNat u.reader.bytes
    exact ⟨rfl, by omega⟩
  · rw [source, if_neg hsize] at hfault
    rw [Complete, if_neg hsize, source, if_neg hsize]
    exact ⟨rfl, hfault⟩

end Upload

/-- Where a `Put` stands: `failed` is about to remove its file, `gone` has returned an error or was
stopped. -/
inductive Phase
  | idle
  | busy (tmp : Path) (todo : List Op)
  | failed (tmp : Path)
  | stored
  | gone

def Phase.tmp : Phase → Option Path
  | .busy tmp _ | .failed tmp => some tmp
  | .idle | .stored | .gone => none

/-- The directory of the key, where a file goes by the call that created it, the calls on the key,
those that were renamed (the last one first) and, for each file that `Open` returned, those that
were renamed before. -/
structure Disk (ι κ : Type) where
  names : Path → Option ι := fun _ => none
  data : ι → Bytes := fun _ => []
  put : ι → Phase := fun _ => .idle
  renames : List ι := []
  reader : κ → Option (ι × List ι) := fun _ => none

/-- In `fail` the operation that is due fails, a write after `part` bytes. -/
inductive Event (ι κ : Type)
  | create (i : ι) (random : Nat)
  | run (i : ι)
  | fail (i : ι) (part : Nat)
  | remove (i : ι) (works : Bool)
  | stop (i : ι)
  | openObject (j : κ)
  | delete

namespace Disk

variable {ι κ : Type} [DecidableEq ι]

/-- A call changes what its temporary name stands for and its own file, and goes on to `ph`. -/
def own (s : Disk ι κ) (i : ι) (tmp : Path) (file : Option ι) (bytes : Bytes) (ph : Phase) : Disk ι κ :=
  { s with
    names := update s.names tmp file
    data := update s.data i bytes
    put := update s.put i ph }

def step [DecidableEq κ] (full : Path) (arg : ι → Upload) (s : Disk ι κ) :
    Event ι κ → Option (Disk ι κ)
  | .create i random =>
    let tmp := String.ofList (dir full.toList ++ '/' :: tempName random)
    match s.put i with
    | .idle =>
      if s.names tmp = none ∧ tmp ≠ full then
        some (s.own i tmp (some i) [] (.busy tmp (arg i).ops))
      else none
    | _ => none
  | .run i =>
    match s.put i with
    | .busy tmp (.rename :: _) =>
      match s.names tmp with
      | some file =>
        some { s with
          names := update (update s.names tmp none) full (some file)
          put := update s.put i .stored
          renames := i :: s.renames }
      | none => some (s.own i tmp none (s.data i) (.failed tmp))
    | .busy tmp (op :: todo) => some (s.own i tmp (s.names tmp) (s.data i ++ op.bytes) (.busy tmp todo))
    | .busy tmp [] => some (s.own i tmp (s.names tmp) (s.data i) (.failed tmp))
    | _ => none
  | .fail i part =>
    match s.put i with
    | .busy tmp (op :: _) => some (s.own i tmp (s.names tmp) (s.data i ++ op.bytes.take part) (.failed tmp))
    | _ => none
  | .remove i works =>
    match s.put i with
    | .failed tmp => some (s.own i tmp (if works then none else s.names tmp) (s.data i) .gone)
    | _ => none
  | .stop i => (s.put i).tmp.map fun tmp => s.own i tmp (s.names tmp) (s.data i) .gone
  | .openObject j =>
    (s.names full).map fun file => { s with reader := update s.reader j (some (file, s.renames)) }
  | .delete => some { s with names := update s.names full none }

/-- A key that is rejected takes no step. -/
def machine [DecidableEq κ] (base : Path) (key : Key) (arg : ι → Upload) :
    Machine (Disk ι κ) (Event ι κ) :=
  ⟨{}, fun s e => (resolve base key).toOption.bind fun full => s.step full arg e⟩

/-- A call that was renamed has written the whole of its file, and no call writes the file of
another one. -/
structure Sound (full : Path) (arg : ι → Upload) (s : Disk ι κ) : Prop where
  held : ∀ {i tmp}, (s.put i).tmp = some tmp → s.names tmp = some i ∧ tmp ≠ full
  busy : ∀ {i tmp todo}, s.put i = .busy tmp todo → (arg i).Left (s.data i) todo
  renamed : ∀ {i}, i ∈ s.renames ↔ s.put i = .stored
  complete : ∀ {i}, s.put i = .stored → (arg i).Complete (s.data i)
  atKey : ∀ {i}, s.names full = some i → s.renames.head? = some i
  opened : ∀ {j i before}, s.reader j = some (i, before) → before.head? = some i ∧ s.put i = .stored

section Steps

variable {full tmp : Path} {arg : ι → Upload} {s t : Disk ι κ} {i : ι}

theorem Sound.own (hs : s.Sound full arg) {file : Option ι} {bytes : Bytes} {ph : Phase}
    (hi : s.put i ≠ .stored) (htmp : ∀ k, s.names tmp = some k → k = i) (hne : tmp ≠ full)
    (hph : ph ≠ .stored) (hheld : ∀ p, ph.tmp = some p → p = tmp ∧ file = some i)
    (hbusy : ∀ {p todo}, ph = .busy p todo → (arg i).Left bytes todo) :
    (s.own i tmp file bytes ph).Sound full arg := by
  have hstored : ∀ {k}, s.put k = .stored → k ≠ i := by
    rintro k hk rfl
    exact hi hk
  refine ⟨fun {k p} h => ?_, fun {k p todo} h => ?_, fun {k} => ⟨fun h => ?_, fun h => ?_⟩,
    fun {k} h => ?_, fun h => ?_, fun h => ?_⟩
  · generalize hp : (s.own i tmp file bytes ph).put k = q at h
    rcases update_cases hp with ⟨rfl, rfl⟩ | ⟨hk, rfl⟩
    · obtain ⟨rfl, rfl⟩ := hheld p h
      exact ⟨update_self .., hne⟩
    · obtain ⟨hname, hfull⟩ := hs.held h
      have : p ≠ tmp := by
        rintro rfl
        exact hk (htmp k hname)
      exact ⟨(update_of_ne this ..).trans hname, hfull⟩
  · rcases update_cases h with ⟨rfl, rfl⟩ | ⟨hk, h⟩
    · simpa only [Disk.own, update_self] using hbusy rfl
    · simpa only [Disk.own, update_of_ne hk] using hs.busy h
  · have hk := hs.renamed.mp h
    exact (update_of_ne (hstored hk) ..).trans hk
  · exact hs.renamed.mpr ((update_cases h).resolve_left fun hk => hph hk.2).2
  · obtain ⟨hk, h⟩ := (update_cases h).resolve_left fun hk => hph hk.2
    simpa only [Disk.own, update_of_ne hk] using hs.complete h
  · exact hs.atKey ((update_of_ne hne.symm ..).symm.trans h)
  · obtain ⟨hhead, hk⟩ := hs.opened h
    exact ⟨hhead, (update_of_ne (hstored hk) ..).trans hk⟩

/-- A `Put` that goes on with its file or leaves it. -/
theorem Sound.move (hs : s.Sound full arg) {file : Option ι} {bytes : Bytes} {ph : Phase}
    (hi : (s.put i).tmp = some tmp) (hph : ph.tmp = none ∨ ph.tmp = some tmp ∧ file = s.names tmp)
    (hnot : ph ≠ .stored)
    (hbusy : ∀ {p todo}, ph = .busy p todo → (arg i).Left bytes todo) :
    (s.own i tmp file bytes ph).Sound full arg := by
  obtain ⟨hname, hne⟩ := hs.held hi
  refine hs.own (fun h => ?_) (fun k hk => ?_) hne hnot (fun p hp => ?_) hbusy
  · cases (congrArg Phase.tmp h).symm.trans hi
  · exact some.inj (hk.symm.trans hname)
  · rcases hph with hnone | ⟨hsame, rfl⟩
    · cases hnone.symm.trans hp
    · exact ⟨some.inj (hp.symm.trans hsame), hname⟩

theorem Sound.rename {todo : List Op} (hs : s.Sound full arg)
    (hi : s.put i = .busy tmp (.rename :: todo)) :
    Sound full arg { s with
      names := update (update s.names tmp none) full (some i)
      put := update s.put i .stored
      renames := i :: s.renames } := by
  obtain ⟨hsuffix, hdata⟩ := hs.busy hi
  obtain ⟨hnone, rfl⟩ := Upload.rename_last hsuffix
  have hcomplete : (arg i).Complete (s.data i) := by
    have := Upload.complete_source hnone
    rwa [← hdata, show [Op.rename].flatMap Op.bytes = [] from rfl, append_nil] at this
  have hput : ∀ {k}, s.put k = .stored → update s.put i .stored k = .stored := by
    intro k hk
    by_cases hki : k = i
    · exact hki ▸ update_self ..
    · exact (update_of_ne hki ..).trans hk
  refine ⟨fun {k p} h => ?_, fun h => ?_, fun {k} => ⟨fun h => ?_, fun h => ?_⟩, fun h => ?_,
    fun h => ?_, fun h => ?_⟩
  · dsimp only at h
    generalize hp : update s.put i .stored k = q at h
    rcases update_cases hp with ⟨-, rfl⟩ | ⟨hk, rfl⟩
    · cases h
    · obtain ⟨hname, hfull⟩ := hs.held h
      have : p ≠ tmp := by
        rintro rfl
        exact hk (some.inj (hname.symm.trans (hs.held (by rw [hi]; rfl)).1))
      exact ⟨(update_of_ne hfull ..).trans ((update_of_ne this ..).trans hname), hfull⟩
  · rcases update_cases h with ⟨-, h⟩ | ⟨-, h⟩
    · cases h
    · exact hs.busy h
  · rcases mem_cons.mp h with rfl | h
    · exact update_self ..
    · exact hput (hs.renamed.mp h)
  · rcases update_cases h with ⟨rfl, -⟩ | ⟨-, h⟩
    · exact mem_cons_self
    · exact mem_cons_of_mem _ (hs.renamed.mpr h)
  · rcases update_cases h with ⟨rfl, -⟩ | ⟨-, h⟩
    · exact hcomplete
    · exact hs.complete h
  · exact (update_self full (some i) (update s.names tmp none)).symm.trans h
  · exact ⟨(hs.opened h).1, hput (hs.opened h).2⟩

theorem Sound.step [DecidableEq κ] {e : Event ι κ} (hs : s.Sound full arg) (h : s.step full arg e = some t) :
    t.Sound full arg := by
  cases e with
  | create i random =>
    simp only [Disk.step] at h
    split at h
    · rename_i hi
      split at h <;> cases h
      rename_i hfree
      refine hs.own (fun h => ?_) (fun k hk => ?_) hfree.2 nofun (fun p hp => ?_) fun h => ?_
      · cases hi.symm.trans h
      · cases hfree.1.symm.trans hk
      · cases hp
        exact ⟨rfl, rfl⟩
      · cases h
        exact ⟨suffix_refl _, Upload.bytes_ops _⟩
    · cases h
  | run i =>
    simp only [Disk.step] at h
    split at h
    · rename_i tmp todo hi
      rw [(hs.held (by rw [hi]; rfl)).1] at h
      cases h
      exact hs.rename hi
    · rename_i tmp op todo _ hi
      cases h
      obtain ⟨hsuffix, hdata⟩ := hs.busy hi
      refine hs.move (by rw [hi]; rfl) (.inr ⟨rfl, rfl⟩) nofun fun hrest => ?_
      cases hrest
      exact ⟨(suffix_cons op todo).trans hsuffix, (append_assoc ..).trans hdata⟩
    · rename_i tmp hi
      cases h
      exact hs.move (by rw [hi]; rfl) (.inr ⟨rfl, rfl⟩) nofun nofun
    · cases h
  | fail i part =>
    simp only [Disk.step] at h
    split at h <;> cases h
    rename_i hi
    exact hs.move (by rw [hi]; rfl) (.inr ⟨rfl, rfl⟩) nofun nofun
  | remove i works =>
    simp only [Disk.step] at h
    split at h <;> cases h
    rename_i hi
    exact hs.move (by rw [hi]; rfl) (.inl rfl) nofun nofun
  | stop i =>
    obtain ⟨tmp, hi, rfl⟩ := map_eq_some_iff.mp h
    exact hs.move hi (.inl rfl) nofun nofun
  | openObject j =>
    obtain ⟨file, hfile, rfl⟩ := map_eq_some_iff.mp h
    refine ⟨hs.held, hs.busy, hs.renamed, hs.complete, hs.atKey, fun hr => ?_⟩
    rcases update_cases (f := s.reader) hr with ⟨-, hr⟩ | ⟨-, hr⟩
    · cases hr
      have hhead := hs.atKey hfile
      exact ⟨hhead, hs.renamed.mp (mem_of_head? hhead)⟩
    · exact hs.opened hr
  | delete =>
    cases h
    refine ⟨fun hk => ?_, hs.busy, hs.renamed, hs.complete, fun hf => ?_, hs.opened⟩
    · obtain ⟨hname, hne⟩ := hs.held hk
      exact ⟨(update_of_ne hne ..).trans hname, hne⟩
    · cases (update_self full none s.names).symm.trans hf

end Steps

/-- What `Open` returned is, then and later, the whole content of the last `Put` that was renamed
before, and a `Put` that returned nil has stored the whole of its own. -/
theorem put_all_or_nothing [DecidableEq κ] (base : Path) (key : Key) (arg : ι → Upload) (s : Disk ι κ)
    (h : (machine base key arg).Reachable Machine.anyStep s) :
    (∀ j i before, s.reader j = some (i, before) → before.head? = some i ∧ (arg i).Complete (s.data i)) ∧
      (∀ i, s.put i = .stored → i ∈ s.renames ∧ (arg i).Complete (s.data i)) ∧
      ∀ full i, resolve base key = .ok full → s.names full = some i →
        s.renames.head? = some i ∧ (arg i).Complete (s.data i) := by
  have hs : s.Sound ((resolve base key).toOption.getD "") arg := by
    have hinit : ∀ full, ({} : Disk ι κ).Sound full arg := fun _ =>
      ⟨nofun, nofun, ⟨nofun, nofun⟩, nofun, nofun, nofun⟩
    refine h.invariant (I := Sound _ arg) (hinit _) fun t e u ht _ hu => ?_
    obtain ⟨full, hfull, hu⟩ := bind_eq_some_iff.mp hu
    rw [hfull] at ht ⊢
    exact ht.step hu
  refine ⟨fun j i before hj => ?_, fun i hi => ⟨hs.renamed.mpr hi, hs.complete hi⟩,
    fun full i hfull hi => ?_⟩
  · exact ⟨(hs.opened hj).1, hs.complete (hs.opened hj).2⟩
  · rw [hfull] at hs
    have hhead := hs.atKey hi
    exact ⟨hhead, hs.complete (hs.renamed.mp (mem_of_head? hhead))⟩

/-- The first upload is cut at its size, the second one is broken off by its reader. -/
theorem broken_upload_unseen :
    ∃ arg : Fin 2 → Upload, ∃ s : Disk (Fin 2) Unit, s.reader () = some (0, [0]) ∧
      s.data 0 = [1, 2] ∧ (arg 0).Complete (s.data 0) := by
  let arg : Fin 2 → Upload := fun i =>
    if i = 0 then ⟨2, [[1], [2, 3]], none⟩ else ⟨-1, [[7]], some "reset"⟩
  obtain ⟨s, hs, hread⟩ := Machine.exists_reach_of_execIf (M := machine "/tmp/morf" "a.apk" arg)
    (b := fun _ _ => true) (s := {})
    (p := fun s : Disk (Fin 2) Unit => s.reader () = some (0, [0]) ∧ s.data 0 = [1, 2])
    (fun _ _ _ => trivial)
    [.create 0 1, .create 1 2, .run 1, .run 0, .run 0, .run 1, .run 0, .run 0, .run 0, .openObject (),
      .remove 1 true, .delete] (by decide +kernel)
  obtain ⟨hreader, hdata⟩ := of_decide_eq_true hread
  exact ⟨arg, s, hreader, hdata, ((put_all_or_nothing _ _ arg s hs).1 _ _ _ hreader).2⟩

end Disk

end Morf.Storage.LocalStorage
