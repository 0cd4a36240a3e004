import VRGram.Crypto.Message
import VRGram.Lib.Trim

/-!
# The identity file

`GenerateKeyPair`, `SaveIdentity` and `LoadIdentity`. The file is a magic line and one line for
each key; of the 64 octets of the signing key only the seed is written. Files of the first
version have no signing key, which is then derived from the X25519 key, as it is for a new pair.
What is written is an argument of loading: reading and writing the file do not fail.
-/
namespace VRGram.Crypto

open VRGram.Lib.Strings VRGram.Lib.Trim VRGram.Lib

set_option autoImplicit false

def ed25519SeedLen : Nat := 32

def keyFileMagicV1 : Bytes := lit "RELAYD IDENTITY KEY v1"

def keyFileMagicV2 : Bytes := lit "RELAYD IDENTITY KEY v2"

/-- What the signing keys are made with. -/
structure Derivation where
  sha512 : Bytes → { b : Bytes // b.length = 64 }
  /-- The public key that belongs to a seed. -/
  ed25519Public : Bytes → { b : Bytes // b.length = 32 }

section Keys

variable (D : Derivation)

/-- `ed25519.NewKeyFromSeed`: the seed, followed by its public key. -/
def newKeyFromSeed (seed : Bytes) : Bytes := seed ++ (D.ed25519Public seed).val

/-- The pair with the signing keys of a seed. -/
def KeyPair.withSeed (kp : KeyPair) (seed : Bytes) : KeyPair :=
  let edPriv := newKeyFromSeed D seed
  { kp with ed25519PrivateKey := edPriv, ed25519PublicKey := edPriv.drop ed25519SeedLen }

def deriveEd25519 (kp : KeyPair) : KeyPair :=
  kp.withSeed D ((D.sha512 kp.privateKey).val.take ed25519SeedLen)

/-- The bits that X25519 fixes. -/
def clamp (privateKey : Bytes) : Bytes :=
  (privateKey.modify 0 (· &&& 248)).modify 31 (fun c => (c &&& 127) ||| 64)

/-- `random` is what `rand.Read` returns. -/
def generateKeyPair (P : Primitives) (random : { b : Bytes // b.length = keyLength }) : KeyPair :=
  let privateKey := clamp random.val
  deriveEd25519 D ⟨P.x25519Public privateKey, privateKey, [], []⟩

/-- The text of the file; `none` is the panic of the slice when there is no signing key. -/
def saveIdentity (kp : KeyPair) : Option Bytes :=
  if kp.ed25519PrivateKey.length < ed25519SeedLen then none
  else some (keyFileMagicV2 ++ lit "\npub:" ++ Base64Std.encodeToString kp.publicKey ++
    lit "\npriv:" ++ Base64Std.encodeToString kp.privateKey ++ lit "\ned25519:" ++
    Base64Std.encodeToString (kp.ed25519PrivateKey.take ed25519SeedLen) ++ lit "\n")

/-- The text of a file of the first version. -/
def renderV1 (kp : KeyPair) : Bytes :=
  keyFileMagicV1 ++ lit "\npub:" ++ Base64Std.encodeToString kp.publicKey ++
    lit "\npriv:" ++ Base64Std.encodeToString kp.privateKey ++ lit "\n"

inductive IdentityError where
  | invalidFormat
  | invalidV2Format
  | invalidPublicKey
  | invalidPrivateKey
  | unknownFormat
  deriving DecidableEq

/-- The two lines that both versions have. -/
def readX25519 (pubLine privLine : Bytes) : Except IdentityError KeyPair :=
  match Base64Std.decodeString (trimPrefix pubLine (lit "pub:")) with
  | none => .error .invalidPublicKey
  | some publicKey =>
    match Base64Std.decodeString (trimPrefix privLine (lit "priv:")) with
    | none => .error .invalidPrivateKey
    | some privateKey => .ok ⟨publicKey, privateKey, [], []⟩

/-- The third line of the second version; without a seed in it the keys are derived. -/
def readSeed (kp : KeyPair) (edLine : Bytes) : KeyPair :=
  match Base64Std.decodeString (trimPrefix edLine (lit "ed25519:")) with
  | none => deriveEd25519 D kp
  | some edSeed => if edSeed.length ≠ ed25519SeedLen then deriveEd25519 D kp else kp.withSeed D edSeed

def loadIdentity (data : Bytes) : Except IdentityError KeyPair :=
  match split newline (trimSpace data) with
  | magic :: pubLine :: privLine :: rest =>
    if magic = keyFileMagicV1 then (readX25519 pubLine privLine).map (deriveEd25519 D)
    else if magic = keyFileMagicV2 then
      match rest with
      | [] => .error .invalidV2Format
      | edLine :: _ => (readX25519 pubLine privLine).map (fun kp => readSeed D kp edLine)
    else .error .unknownFormat
  | _ => .error .invalidFormat

end Keys

variable {D : Derivation}

/-! ## Pairs whose signing keys come from a seed -/

/-- The signing keys are those of a seed. -/
def Seeded (D : Derivation) (kp : KeyPair) : Prop :=
  ∃ seed, seed.length = ed25519SeedLen ∧ kp = kp.withSeed D seed

theorem seeded_withSeed (kp : KeyPair) {seed : Bytes} (h : seed.length = ed25519SeedLen) :
    Seeded D (kp.withSeed D seed) :=
  ⟨seed, h, rfl⟩

theorem seeded_derive (kp : KeyPair) : Seeded D (deriveEd25519 D kp) := by
  apply seeded_withSeed
  rw [List.length_take, (D.sha512 kp.privateKey).property]
  rfl

private theorem seeded_readSeed (kp : KeyPair) (edLine : Bytes) :
    Seeded D (readSeed D kp edLine) := by
  unfold readSeed
  split
  next => exact seeded_derive kp
  next edSeed _ =>
    split
    · exact seeded_derive kp
    next hlen => exact seeded_withSeed kp (not_not.mp hlen)

theorem seeded_map {f : KeyPair → KeyPair} (hf : ∀ kp, Seeded D (f kp))
    {read : Except IdentityError KeyPair} {kp : KeyPair} (h : read.map f = .ok kp) :
    Seeded D kp := by
  cases read with
  | error e => cases h
  | ok kp' =>
    obtain rfl := Except.ok.inj h
    exact hf kp'

/-- Whatever a file holds, a pair that is loaded from it has the signing keys of a seed. -/
theorem seeded_load {data : Bytes} {kp : KeyPair} (h : loadIdentity D data = .ok kp) :
    Seeded D kp := by
  unfold loadIdentity at h
  split at h
  next magic pubLine privLine rest _ =>
    split at h
    · exact seeded_map seeded_derive h
    · split at h
      · cases rest with
        | nil => cases h
        | cons edLine _ => exact seeded_map (fun kp => seeded_readSeed kp edLine) h
      · cases h
  next => cases h

/-! ## Reading back what was written -/

private theorem graphic_of_mem_encode {b : Bytes} {c : UInt8} (h : c ∈ Base64Std.encodeToString b) :
    Graphic c := by
  have halphabet := Base64Std.encode_alphabet b c h
  unfold Base64Std.Alphabet Base64Std.undigit at halphabet
  unfold Graphic
  rcases halphabet with hdigit | rfl
  · split_ifs at hdigit with hupper hlower hnumber hplus hslash
    · omega
    · omega
    · omega
    · rw [hplus]
      decide
    · rw [hslash]
      decide
    · cases hdigit
  · decide

theorem newline_notMem_line {label : Bytes} (h : newline ∉ label) (b : Bytes) :
    newline ∉ label ++ Base64Std.encodeToString b := by
  rw [List.mem_append]
  intro hmem
  rcases hmem with hlabel | hencode
  · exact h hlabel
  · exact Base64Std.notMem_encode (by decide) b hencode

/-- The lines of a key file: a magic line and labelled base64, the last of it not empty. -/
theorem split_keyFile (magic label : Bytes) (keys : List Bytes) {b : Bytes} (hb : b ≠ [])
    {first : UInt8} (hhead : magic.head? = some first) (hfirst : Graphic first)
    (hmagic : newline ∉ magic) (hkeys : ∀ line ∈ keys, newline ∉ line) (hlabel : newline ∉ label) :
    split newline (trimSpace (join newline
        (magic :: (keys ++ [label ++ Base64Std.encodeToString b])) ++ [newline])) =
      magic :: (keys ++ [label ++ Base64Std.encodeToString b]) := by
  have hne : Base64Std.encodeToString b ≠ [] := by
    intro hnil
    have hlen := Base64Std.encode_length b
    have hpos := List.length_pos_iff.mpr hb
    rw [hnil, List.length_nil] at hlen
    omega
  have hlines : ∀ line ∈ magic :: (keys ++ [label ++ Base64Std.encodeToString b]),
      newline ∉ line := by
    intro line hline
    rcases List.mem_cons.mp hline with rfl | hline
    · exact hmagic
    · rcases List.mem_append.mp hline with hkey | hlast
      · exact hkeys line hkey
      · rw [List.mem_singleton.mp hlast]
        exact newline_notMem_line hlabel b
  have htext : ∃ middle, join newline (magic :: (keys ++ [label ++ Base64Std.encodeToString b])) =
      magic ++ middle ++ Base64Std.encodeToString b := by
    rw [← List.cons_append, join_concat (List.cons_ne_nil _ _)]
    cases keys with
    | nil => exact ⟨newline :: label, by simp [join, List.intercalate]⟩
    | cons key keys =>
      refine ⟨newline :: join newline (key :: keys) ++ newline :: label, ?_⟩
      simp [join, List.intercalate]
  obtain ⟨middle, htext⟩ := htext
  have hlast := List.getLast?_eq_some_getLast hne
  have hjoinHead : (join newline (magic :: (keys ++ [label ++ Base64Std.encodeToString b]))).head? =
      some first := by
    rw [htext, List.append_assoc, List.head?_append, hhead]
    rfl
  have hjoinLast : (join newline
      (magic :: (keys ++ [label ++ Base64Std.encodeToString b]))).getLast? =
      some ((Base64Std.encodeToString b).getLast hne) := by
    rw [htext, List.getLast?_append, hlast]
    rfl
  exact split_file hlines hjoinHead hjoinLast hfirst (graphic_of_mem_encode (List.getLast_mem hne))

theorem readX25519_rendered (publicKey privateKey : Bytes) :
    readX25519 (lit "pub:" ++ Base64Std.encodeToString publicKey)
        (lit "priv:" ++ Base64Std.encodeToString privateKey) =
      .ok ⟨publicKey, privateKey, [], []⟩ := by
  simp only [readX25519, trimPrefix_append, Base64Std.decodeString_encode]

theorem readSeed_rendered (kp : KeyPair) {seed : Bytes} (h : seed.length = ed25519SeedLen) :
    readSeed D kp (lit "ed25519:" ++ Base64Std.encodeToString seed) = kp.withSeed D seed := by
  simp only [readSeed, trimPrefix_append, Base64Std.decodeString_encode, h, ne_eq,
    not_true_eq_false, if_false]

/-- The line breaks of the format strings. -/
theorem lit_lines : lit "\npub:" = newline :: lit "pub:" ∧ lit "\npriv:" = newline :: lit "priv:" ∧
    lit "\ned25519:" = newline :: lit "ed25519:" ∧ lit "\n" = [newline] := by
  decide +kernel

/-- A pair with the signing keys of a seed is loaded as it was saved. -/
theorem loadIdentity_saved {kp : KeyPair} (h : Seeded D kp) :
    ∃ data, saveIdentity kp = some data ∧ loadIdentity D data = .ok kp := by
  obtain ⟨seed, hlen, hkp⟩ := h
  have hpriv : kp.ed25519PrivateKey = newKeyFromSeed D seed := by
    rw [hkp]
    rfl
  have htake : kp.ed25519PrivateKey.take ed25519SeedLen = seed := by
    rw [hpriv, newKeyFromSeed, List.take_left' hlen]
  have hlong : ¬ kp.ed25519PrivateKey.length < ed25519SeedLen := by
    rw [hpriv, newKeyFromSeed, List.length_append, hlen]
    omega
  have hseed : seed ≠ [] := by
    intro hnil
    rw [hnil] at hlen
    cases hlen
  have hkeys : ∀ line ∈ [lit "pub:" ++ Base64Std.encodeToString kp.publicKey,
      lit "priv:" ++ Base64Std.encodeToString kp.privateKey], newline ∉ line := by
    intro line hline
    simp only [List.mem_cons, List.not_mem_nil, or_false] at hline
    rcases hline with rfl | rfl
    · exact newline_notMem_line (by decide) _
    · exact newline_notMem_line (by decide) _
  have hsplit := split_keyFile keyFileMagicV2 (lit "ed25519:") _ hseed rfl (by decide : Graphic 82)
    (by decide) hkeys (by decide)
  obtain ⟨hpubLine, hprivLine, hedLine, hend⟩ := lit_lines
  refine ⟨join newline (keyFileMagicV2 :: ([lit "pub:" ++ Base64Std.encodeToString kp.publicKey,
    lit "priv:" ++ Base64Std.encodeToString kp.privateKey] ++
    [lit "ed25519:" ++ Base64Std.encodeToString seed])) ++ [newline], ?_, ?_⟩
  · rw [saveIdentity, if_neg hlong, htake, hpubLine, hprivLine, hedLine, hend]
    simp [join, List.intercalate]
  · rw [loadIdentity, hsplit]
    have hversion : keyFileMagicV2 ≠ keyFileMagicV1 := by decide
    simp only [List.cons_append, List.nil_append, if_neg hversion, if_true, readX25519_rendered,
      Except.map, readSeed_rendered _ hlen]
    rw [hkp]
    rfl

/-- A file of the first version gives the pair with the signing keys derived. -/
theorem loadIdentity_renderV1 {kp : KeyPair} (h : kp.privateKey ≠ []) :
    loadIdentity D (renderV1 kp) = .ok (deriveEd25519 D ⟨kp.publicKey, kp.privateKey, [], []⟩) := by
  have hkeys : ∀ line ∈ [lit "pub:" ++ Base64Std.encodeToString kp.publicKey],
      newline ∉ line := by
    intro line hline
    rw [List.mem_singleton.mp hline]
    exact newline_notMem_line (by decide) _
  have hsplit := split_keyFile keyFileMagicV1 (lit "priv:") _ h rfl (by decide : Graphic 82)
    (by decide) hkeys (by decide)
  obtain ⟨hpubLine, hprivLine, -, hend⟩ := lit_lines
  have hfile : renderV1 kp = join newline (keyFileMagicV1 ::
      ([lit "pub:" ++ Base64Std.encodeToString kp.publicKey] ++
        [lit "priv:" ++ Base64Std.encodeToString kp.privateKey])) ++ [newline] := by
    rw [renderV1, hpubLine, hprivLine, hend]
    simp [join, List.intercalate]
  rw [hfile, loadIdentity, hsplit]
  simp only [List.cons_append, List.nil_append, if_true, readX25519_rendered]
  rfl

/-- The identity of a user survives its file: a generated pair is loaded as it was saved, the
first version of its file gives the same pair, and a pair that was loaded from any file is, when
saved, loaded again as it is. -/
theorem identity_persists (P : Primitives) (D : Derivation) :
    (∀ random, ∃ data, saveIdentity (generateKeyPair D P random) = some data ∧
      loadIdentity D data = .ok (generateKeyPair D P random)) ∧
    (∀ random, loadIdentity D (renderV1 (generateKeyPair D P random)) =
      .ok (generateKeyPair D P random)) ∧
    ∀ file kp, loadIdentity D file = .ok kp →
      ∃ data, saveIdentity kp = some data ∧ loadIdentity D data = .ok kp := by
  refine ⟨fun random => loadIdentity_saved (seeded_derive _), fun random => ?_,
    fun file kp hload => loadIdentity_saved (seeded_load hload)⟩
  have hlen : (clamp random.val).length = keyLength := by
    simp [clamp, random.property]
  have hne : (generateKeyPair D P random).privateKey ≠ [] := by
    intro hnil
    rw [show (generateKeyPair D P random).privateKey = clamp random.val from rfl] at hnil
    rw [hnil] at hlen
    cases hlen
  exact loadIdentity_renderV1 hne

end VRGram.Crypto
