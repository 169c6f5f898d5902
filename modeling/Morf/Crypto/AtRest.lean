import Morf.Lib.Utf8

/-! How detected secrets are kept: `crypto/secretcrypto.go`.  A value is encrypted, or cut down to
a masked preview when there is no key to encrypt it with. -/

namespace Morf.Crypto

open Morf.Lib
open List

def headLength (n : Nat) : Nat := if n < 4 then n else 4

def tailLength (n : Nat) : Nat := if n < headLength n + 2 then 0 else 2

/-- `maskSecret`, over the runes of the value.  The packages `crypto` and `report` have the same
function. -/
def maskSecret (value : List Char) : List Char :=
  let n := value.length
  if n = 0 then ['…']
  else
    let tail := if 0 < tailLength n then value.drop (n - tailLength n) else []
    value.take (headLength n) ++ '…' :: tail

/-- What the package takes from the libraries: the decoders of the key, and AES-GCM with its
nonces, where `none` is an error. -/
structure Library where
  hexDecode : List Char → Option (List UInt8)
  stdDecode : List Char → Option (List UInt8)
  rawDecode : List Char → Option (List UInt8)
  stdEncode : List UInt8 → List Char
  gcm : (key : List UInt8) → Option ((nonce plaintext : List UInt8) → List UInt8)
  utf8 : List Char → List UInt8

def aesKeySize : Nat := 32

def encPrefix : List Char := "enc:v1:".toList

def encryptionKey (lib : Library) (raw : List Char) : Option (List UInt8) :=
  if raw = [] then none
  else [lib.hexDecode, lib.stdDecode, lib.rawDecode].findSome? fun decode =>
    (decode (Text.trimSpace raw)).filter (·.length = aesKeySize)

def protectAtRest (lib : Library) (raw : List Char) (nonce : Option (List UInt8))
    (value : List Char) : List Char :=
  match encryptionKey lib raw with
  | none => maskSecret value
  | some key =>
    match lib.gcm key, nonce with
    | some encrypt, some nonce =>
      encPrefix ++ lib.stdEncode (nonce ++ encrypt nonce (lib.utf8 value))
    | none, _ | _, none => maskSecret value

theorem maskSecret_eq (value : List Char) :
    maskSecret value = value.take (headLength value.length) ++
      '…' :: value.drop (value.length - tailLength value.length) := by
  simp only [maskSecret]
  split
  case isTrue h =>
    rw [length_eq_zero_iff.mp h]
    rfl
  case isFalse =>
    split
    case isTrue => rfl
    case isFalse h => rw [Nat.eq_zero_of_not_pos h, Nat.sub_zero, drop_length]

theorem kept_le (n : Nat) : headLength n + tailLength n ≤ n := by
  unfold tailLength headLength
  split <;> split <;> omega

theorem kept_lt_iff (n : Nat) : headLength n + tailLength n < n ↔ n = 5 ∨ 7 ≤ n := by
  unfold tailLength headLength
  split <;> split <;> omega

/-- A preview, which is also what is stored when no key is configured, is a head and a tail of the
value.  It leaves a rune out if the value has five runes or more than six, and is otherwise the
value itself, taken apart. -/
theorem preview_omits_iff (lib : Library) (nonce : Option (List UInt8)) (value : List Char) :
    protectAtRest lib [] nonce value = maskSecret value ∧
    ∃ head tail, maskSecret value = head ++ '…' :: tail ∧ head <+: value ∧ tail <:+ value ∧
      (head.length + tail.length < value.length ↔ value.length = 5 ∨ 7 ≤ value.length) ∧
      (head ++ tail = value ↔ ¬ (value.length = 5 ∨ 7 ≤ value.length)) := by
  have hle := kept_le value.length
  have hhead : (value.take (headLength value.length)).length = headLength value.length :=
    length_take_of_le (by omega)
  have htail : (value.drop (value.length - tailLength value.length)).length =
      tailLength value.length := by
    rw [length_drop]
    omega
  refine ⟨rfl, _, _, maskSecret_eq value, List.take_prefix .., drop_suffix .., ?_, ?_⟩
  · rw [hhead, htail]
    exact kept_lt_iff value.length
  · rw [← kept_lt_iff, Nat.not_lt]
    constructor
    · intro heq
      have hlen := congrArg List.length heq
      rw [length_append, hhead, htail] at hlen
      exact Nat.le_of_eq hlen.symm
    · intro hge
      have heq : value.length - tailLength value.length = headLength value.length := by omega
      rw [heq, take_append_drop]

/-- The preview of `secret` is `secr…et`. -/
theorem six_runes_spelled_out :
    maskSecret "secret".toList = "secr".toList ++ '…' :: "et".toList ∧
      "secr".toList ++ "et".toList = "secret".toList := by decide

/-! `ProtectAtRest` and `Reveal` of `crypto/secretcrypto.go`, over the bytes of the values. -/

open Option

structure Vault extends Library where
  nonceSize : Nat
  gcmOpen : (key nonce ciphertext : List UInt8) → Option (List UInt8)

namespace Vault

variable (V : Vault)

def maskSecret (value : List UInt8) : List UInt8 := Lib.utf8 (Crypto.maskSecret (runes value))

def protectAtRest (raw : List Char) (nonce : Option (List UInt8)) (value : List UInt8) :
    List UInt8 :=
  match encryptionKey V.toLibrary raw with
  | none => maskSecret value
  | some key =>
    match V.gcm key, nonce with
    | some encrypt, some nonce =>
      Lib.utf8 (encPrefix ++ V.stdEncode (nonce ++ encrypt nonce value))
    | none, _ | _, none => maskSecret value

/-- The steps of `Reveal` after the tag; where one fails the source returns what is stored.  The
characters of base64 are of one byte, so they are read off the runes. -/
def decrypt (raw : List Char) (stored : List UInt8) : Option (List UInt8) := do
  let key ← encryptionKey V.toLibrary raw
  let sealed ← V.stdDecode (runes (stored.drop (Lib.utf8 encPrefix).length))
  let _ ← V.gcm key
  if sealed.length < V.nonceSize then none
  else V.gcmOpen key (sealed.take V.nonceSize) (sealed.drop V.nonceSize)

def reveal (raw : List Char) (stored : List UInt8) : List UInt8 × Bool :=
  if Lib.utf8 encPrefix <+: stored then
    match V.decrypt raw stored with
    | none => (stored, false)
    | some plaintext => (plaintext, true)
  else (stored, false)

structure Sound : Prop where
  gcm : ∀ key, key.length = aesKeySize → (V.gcm key).isSome
  opens : ∀ key encrypt nonce plaintext, V.gcm key = some encrypt → nonce.length = V.nonceSize →
    V.gcmOpen key nonce (encrypt nonce plaintext) = some plaintext
  decodes : ∀ bytes, V.stdDecode (V.stdEncode bytes) = some bytes

end Vault

theorem length_encryptionKey (h : encryptionKey lib raw = some key) : key.length = aesKeySize := by
  rw [encryptionKey] at h
  split at h
  · cases h
  · obtain ⟨decode, -, hkey⟩ := exists_of_findSome?_eq_some h
    exact of_decide_eq_true (filter_eq_some_iff.mp hkey).2

theorem not_encPrefix_maskSecret (value : List Char) : ¬ encPrefix <+: maskSecret value := by
  rw [maskSecret_eq]
  generalize hhead : value.take (headLength value.length) = head
  have hle : head.length ≤ 4 := by
    rw [← hhead, length_take, headLength]
    split <;> omega
  rintro ⟨rest, hrest⟩
  have htag : head.length < encPrefix.length := Nat.lt_of_le_of_lt hle (by decide)
  have hget := congrArg (fun l : List Char => l[head.length]?) hrest
  simp only [getElem?_append_left htag, getElem?_append_right Nat.le.refl, Nat.sub_self,
    getElem?_cons_zero] at hget
  exact absurd (mem_of_getElem? hget) (by decide)

namespace Vault

variable {V : Vault}

theorem reveal_maskSecret (raw : List Char) (value : List UInt8) :
    V.reveal raw (maskSecret value) = (maskSecret value, false) := by
  rw [reveal, if_neg]
  rw [maskSecret, utf8_prefix_iff]
  exact not_encPrefix_maskSecret (runes value)

theorem protectAtRest_utf8 (hutf8 : V.utf8 = Lib.utf8) (raw : List Char)
    (nonce : Option (List UInt8)) (value : List Char) :
    V.protectAtRest raw nonce (Lib.utf8 value) =
      Lib.utf8 (Crypto.protectAtRest V.toLibrary raw nonce value) := by
  have hmask : maskSecret (Lib.utf8 value) = Lib.utf8 (Crypto.maskSecret value) := by
    rw [maskSecret, runes_utf8]
  rw [protectAtRest, Crypto.protectAtRest, hmask, hutf8]
  cases encryptionKey V.toLibrary raw with
  | none => rfl
  | some key =>
    dsimp only
    cases V.gcm key with
    | none => rfl
    | some encrypt =>
      cases nonce with
      | none => rfl
      | some nonce => rfl

theorem decrypt_sealed (hV : V.Sound) (hkey : encryptionKey V.toLibrary raw = some key)
    (hgcm : V.gcm key = some encrypt) (hnonce : nonce.length = V.nonceSize) (value : List UInt8) :
    V.decrypt raw (Lib.utf8 (encPrefix ++ V.stdEncode (nonce ++ encrypt nonce value))) =
      some value := by
  have hlen : ¬ (nonce ++ encrypt nonce value).length < V.nonceSize := by
    rw [length_append, hnonce]
    omega
  simp only [decrypt, hkey, utf8_append, drop_left, runes_utf8, hV.decodes, hgcm,
    bind_eq_bind, bind_some, if_neg hlen]
  rw [← hnonce, take_left, drop_left]
  exact hV.opens key encrypt nonce value hgcm hnonce

theorem protectAtRest_reveal (hV : V.Sound) (raw : List Char) (value : List UInt8) :
    (∀ nonce, nonce.length = V.nonceSize → (encryptionKey V.toLibrary raw).isSome →
      V.reveal raw (V.protectAtRest raw (some nonce) value) = (value, true)) ∧
    ∀ nonce, encryptionKey V.toLibrary raw = none → ∀ later,
      V.reveal later (V.protectAtRest raw nonce value) = (V.protectAtRest raw nonce value, false) := by
  constructor
  · intro nonce hnonce hsome
    obtain ⟨key, hkey⟩ := isSome_iff_exists.mp hsome
    obtain ⟨encrypt, hgcm⟩ := isSome_iff_exists.mp (hV.gcm key (length_encryptionKey hkey))
    have hstored : V.protectAtRest raw (some nonce) value =
        Lib.utf8 (encPrefix ++ V.stdEncode (nonce ++ encrypt nonce value)) := by
      rw [protectAtRest, hkey]
      dsimp only
      rw [hgcm]
    rw [hstored, reveal, if_pos (utf8_prefix_iff.mpr (List.prefix_append ..)),
      decrypt_sealed hV hkey hgcm hnonce]
  · intro nonce hkey later
    have hstored : V.protectAtRest raw nonce value = maskSecret value := by
      rw [protectAtRest, hkey]
    rw [hstored, reveal_maskSecret]

def mix (key bytes : List UInt8) : List UInt8 := bytes.map (· ^^^ key.headD 0)

theorem mix_mix (key bytes : List UInt8) : mix key (mix key bytes) = bytes := by
  rw [mix, mix, List.map_map]
  refine (map_congr_left fun b _ => ?_).trans bytes.map_id
  rw [Function.comp_apply, UInt8.xor_assoc, UInt8.xor_self, UInt8.xor_zero]
  rfl

def latin (bytes : List UInt8) : List Char := bytes.map Char.ofUInt8

def unlatin (s : List Char) : Option (List UInt8) := some (s.map Char.toUInt8)

theorem unlatin_latin (bytes : List UInt8) : unlatin (latin bytes) = some bytes := by
  refine congrArg some ?_
  rw [latin, List.map_map]
  refine (map_congr_left fun b _ => ?_).trans bytes.map_id
  exact UInt8.toUInt8_toUInt32 b

def simple : Vault where
  hexDecode := unlatin
  stdDecode := unlatin
  rawDecode := unlatin
  stdEncode := latin
  gcm key := some fun _ plaintext => mix key plaintext
  utf8 := Lib.utf8
  nonceSize := 2
  gcmOpen key _ ciphertext := some (mix key ciphertext)

theorem sound_simple : simple.Sound where
  gcm _ _ := rfl
  opens key encrypt nonce plaintext hgcm _ := by
    obtain rfl := some.inj hgcm
    exact congrArg some (mix_mix key plaintext)
  decodes := unlatin_latin

/-- A value that begins with the tag, kept with a key and without one. -/
theorem tagged_value_kept :
    simple.reveal (List.replicate 32 'k') (simple.protectAtRest (List.replicate 32 'k') (some [1, 2])
      (Lib.utf8 "enc:v1:abc".toList)) = (Lib.utf8 "enc:v1:abc".toList, true) ∧
    simple.reveal (List.replicate 32 'k') (simple.protectAtRest [] none
      (Lib.utf8 "enc:v1:abc".toList)) =
      (simple.protectAtRest [] none (Lib.utf8 "enc:v1:abc".toList), false) :=
  ⟨(protectAtRest_reveal sound_simple (replicate 32 'k') (Lib.utf8 "enc:v1:abc".toList)).1
      [1, 2] rfl (by decide),
    (protectAtRest_reveal sound_simple [] (Lib.utf8 "enc:v1:abc".toList)).2 none rfl _⟩

end Vault

end Morf.Crypto
