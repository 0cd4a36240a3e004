import VRGram.Crypto.Identity
import VRGram.Daemon.Auth
import VRGram.Lib.Keepsake

/-!
# Starting the daemon

The part of `RunDaemon` that decides who the user is: the key pair in `identity.key` and the token
in `auth_token`. A start may die or fail anywhere, also in the middle of a write; a file that
cannot be read or does not parse is replaced. Both files are written at no other place. What
`rand.Read` returns is an argument: it does not fail.
-/
namespace VRGram.Client

open VRGram.Crypto VRGram.Lib.Strings VRGram.Lib.Trim VRGram.Lib VRGram.Lib.StateFile
open VRGram.Lib.Keepsake

set_option autoImplicit false

/-! ## The data directory -/

/-- The two files that a start reads and writes before it serves. -/
structure DataDir where
  identityKey : Option Bytes
  authToken : Option Bytes
  deriving DecidableEq

/-- What a start of the daemon meets: whether `os.MkdirAll` succeeds and the files can be read,
what is drawn, how the writes end, and whether all that follows comes up. -/
structure Start where
  dirReady : Bool
  readsIdentity : Bool
  random : { b : Bytes // b.length = keyLength }
  identityWritten : Written
  readsToken : Bool
  drawn : { b : Bytes // b.length = authTokenLen }
  tokenWritten : Written
  comesUp : Bool

/-- What a daemon that serves runs with. -/
structure Serving where
  identity : KeyPair
  authToken : Bytes
  deriving DecidableEq

section Starting

variable (P : Primitives) (D : Derivation)

/-- The identity, unless its file could not be written, and what becomes of the file. -/
def loadOrCreateIdentity (file : Option Bytes) (start : Start) : Option KeyPair × Option Bytes :=
  match (if start.readsIdentity then file else none).map (loadIdentity D) with
  | some (.ok identity) => (some identity, file)
  | _ =>
    let identity := generateKeyPair D P start.random
    match saveIdentity identity with
    | none => (none, file)
    | some text =>
      (if start.identityWritten = .whole then some identity else none,
        start.identityWritten.leave file text)

/-- The token, and what becomes of its file: one of the right size is not written again. -/
def loadOrCreateToken (file : Option Bytes) (start : Start) : Option Bytes × Option Bytes :=
  let read := if start.readsToken then file else none
  let saved := start.tokenWritten = .whole
  ((loadOrGenerateAuthToken read start.drawn saved).toOption,
    if read.any (fun data => data.length = authTokenLen * 2) then file
    else start.tokenWritten.leave file (hexEncode start.drawn.val))

/-- `RunDaemon` up to `s.Serve`: what it serves with, if it comes so far. -/
def runDaemon (dir : DataDir) (start : Start) : Option Serving × DataDir :=
  if start.dirReady then
    match loadOrCreateIdentity P D dir.identityKey start with
    | (none, identityKey) => (none, { dir with identityKey })
    | (some identity, identityKey) =>
      match loadOrCreateToken dir.authToken start with
      | (none, authToken) => (none, ⟨identityKey, authToken⟩)
      | (some token, authToken) =>
        (if start.comesUp then some ⟨identity, token⟩ else none, ⟨identityKey, authToken⟩)
  else (none, dir)

/-- The directory after starts, the first of which found it empty. -/
def DataDir.after (starts : List Start) : DataDir :=
  starts.foldl (fun dir start => (runDaemon P D dir start).2) ⟨none, none⟩

end Starting

variable {P : Primitives} {D : Derivation}

/-! ## A file that was cut off -/

private theorem newline_notMem_magic : newline ∉ keyFileMagicV2 := by decide

/-- The file of a pair whose signing keys are derived, line by line. -/
theorem saveIdentity_derived (kp : KeyPair) :
    saveIdentity (deriveEd25519 D kp) = some (keyFileMagicV2 ++ newline ::
      (lit "pub:" ++ Base64Std.encodeToString kp.publicKey ++ newline ::
        (lit "priv:" ++ Base64Std.encodeToString kp.privateKey ++ newline ::
          (lit "ed25519:" ++ Base64Std.encodeToString
            ((D.sha512 kp.privateKey).val.take ed25519SeedLen) ++ newline :: [])))) := by
  have hlen : ((D.sha512 kp.privateKey).val.take ed25519SeedLen).length = ed25519SeedLen := by
    rw [List.length_take, (D.sha512 kp.privateKey).property]
    rfl
  have hpriv : (deriveEd25519 D kp).ed25519PrivateKey =
      newKeyFromSeed D ((D.sha512 kp.privateKey).val.take ed25519SeedLen) := rfl
  have hlong : ¬ (deriveEd25519 D kp).ed25519PrivateKey.length < ed25519SeedLen := by
    rw [hpriv, newKeyFromSeed, List.length_append, hlen]
    omega
  obtain ⟨hpubLine, hprivLine, hedLine, hend⟩ := lit_lines
  rw [saveIdentity, if_neg hlong, hpriv, newKeyFromSeed, List.take_left' hlen, hpubLine, hprivLine,
    hedLine, hend]
  simp [deriveEd25519, KeyPair.withSeed]

/-- A seed that was cut off is not taken for one: the keys are derived, as the seed was. -/
theorem readSeed_cut (kp : KeyPair) {line : Bytes}
    (h : line <+: lit "ed25519:" ++ Base64Std.encodeToString
      ((D.sha512 kp.privateKey).val.take ed25519SeedLen)) :
    readSeed D kp line = deriveEd25519 D kp := by
  set seed := (D.sha512 kp.privateKey).val.take ed25519SeedLen with hseed
  have hlen : seed.length = 32 := by
    rw [hseed, List.length_take, (D.sha512 kp.privateKey).property]
    rfl
  have hencoded : (Base64Std.encodeToString seed).length = 44 := by
    rw [Base64Std.encode_length, hlen]
  rcases List.prefix_or_prefix_of_prefix h (List.prefix_append (lit "ed25519:") _) with hshort | hlabel
  · -- a piece of the label decodes to a few octets, if to any
    have hshortLen : line.length ≤ 8 := hshort.length_le
    have htrim : (trimPrefix line (lit "ed25519:")).length ≤ 8 := by
      unfold trimPrefix
      split
      · rw [List.length_drop]
        omega
      · exact hshortLen
    unfold readSeed
    split
    · rfl
    next edSeed hdecode =>
      have hfew := Base64Std.decodeString_length hdecode
      rw [if_pos (by unfold ed25519SeedLen; omega)]
  · obtain ⟨body, rfl⟩ := hlabel
    have hbody := (List.prefix_append_right_inj (lit "ed25519:")).mp h
    rcases hbody.length_le.eq_or_lt with heq | hlt
    · obtain rfl := hbody.eq_of_length heq
      exact readSeed_rendered kp hlen
    · rw [readSeed, trimPrefix_append]
      split
      · rfl
      next edSeed hdecode =>
        have hfew := Base64Std.decodeString_length hdecode
        rw [if_pos (by unfold ed25519SeedLen; omega)]

/-- Whatever beginning is left of an identity file, it gives the whole pair or none. -/
theorem loadIdentity_cut {publicKey privateKey text part : Bytes} {identity : KeyPair}
    (hsave : saveIdentity (deriveEd25519 D ⟨publicKey, privateKey, [], []⟩) = some text)
    (hpart : part <+: text) (hload : loadIdentity D part = .ok identity) :
    identity = deriveEd25519 D ⟨publicKey, privateKey, [], []⟩ := by
  rw [saveIdentity_derived, Option.some.injEq] at hsave
  subst hsave
  have hhead : ∀ c ∈ part.head?, Graphic c := by
    intro c hc
    obtain ⟨more, rfl⟩ := List.head?_eq_some_iff.mp hc
    rw [show keyFileMagicV2 = 82 :: keyFileMagicV2.tail by decide, List.cons_append] at hpart
    rw [(List.cons_prefix_cons.mp hpart).1]
    decide
  have htrim := (trimSpace_begins hhead).trans hpart
  have hpub : newline ∉ lit "pub:" ++ Base64Std.encodeToString publicKey :=
    newline_notMem_line (by decide) publicKey
  have hpriv : newline ∉ lit "priv:" ++ Base64Std.encodeToString privateKey :=
    newline_notMem_line (by decide) privateKey
  have hed : newline ∉ lit "ed25519:" ++
      Base64Std.encodeToString ((D.sha512 privateKey).val.take ed25519SeedLen) :=
    newline_notMem_line (by decide) _
  have hversion : keyFileMagicV2 ≠ keyFileMagicV1 := by decide
  unfold loadIdentity at hload
  -- the file ends within one of its lines; only an end within the last one is not refused
  rcases split_cut newline_notMem_magic htrim with ⟨line, -, hone⟩ | ⟨q, hq, hmagic⟩
  · rw [hone] at hload
    cases hload
  rcases split_cut hpub hq with ⟨line, -, htwo⟩ | ⟨q, hq, hpubLine⟩
  · rw [hmagic, htwo] at hload
    cases hload
  rcases split_cut hpriv hq with ⟨line, -, hthree⟩ | ⟨q, hq, hprivLine⟩
  · rw [hmagic, hpubLine, hthree] at hload
    simp only [if_neg hversion, if_true] at hload
    cases hload
  obtain ⟨line, more, hline, hfour⟩ : ∃ line more, line <+: _ ∧ split newline q = line :: more := by
    rcases split_cut hed hq with ⟨line, hline, hfour⟩ | ⟨q, -, hedLine⟩
    · exact ⟨line, [], hline, hfour⟩
    · exact ⟨_, _, List.prefix_refl _, hedLine⟩
  rw [hmagic, hpubLine, hprivLine, hfour] at hload
  simp only [if_neg hversion, if_true, readX25519_rendered, Except.map, Except.ok.injEq] at hload
  rw [← hload]
  exact readSeed_cut ⟨publicKey, privateKey, [], []⟩ hline

/-! ## Both secrets are kept -/

section Keeping

variable (P : Primitives) (D : Derivation)

def identityRecipe : Recipe KeyPair { b : Bytes // b.length = keyLength } where
  create random := generateKeyPair D P random
  text random := (saveIdentity (generateKeyPair D P random)).getD []
  load data := (loadIdentity D data).toOption

def tokenRecipe : Recipe Bytes { b : Bytes // b.length = authTokenLen } where
  create drawn := hexEncode drawn.val
  text drawn := hexEncode drawn.val
  load data := if data.length = authTokenLen * 2 then some data else none

def Start.identityBoot (start : Start) : Boot { b : Bytes // b.length = keyLength } :=
  ⟨start.readsIdentity, start.random, start.identityWritten⟩

def Start.tokenBoot (start : Start) : Boot { b : Bytes // b.length = authTokenLen } :=
  ⟨start.readsToken, start.drawn, start.tokenWritten⟩

theorem saved_generated (random : { b : Bytes // b.length = keyLength }) :
    ∃ text, saveIdentity (generateKeyPair D P random) = some text ∧
      loadIdentity D text = .ok (generateKeyPair D P random) :=
  loadIdentity_saved (seeded_derive _)

theorem identityRecipe_sound : Sound (identityRecipe P D) where
  load random := by
    obtain ⟨text, hsave, hload⟩ := saved_generated P D random
    simp [identityRecipe, hsave, hload, Except.toOption]
  cut random part identity hpart hload := by
    obtain ⟨text, hsave, -⟩ := saved_generated P D random
    simp only [identityRecipe, hsave, Option.getD_some] at hpart hload
    cases hread : loadIdentity D part with
    | error e =>
      rw [hread] at hload
      cases hload
    | ok loaded =>
      rw [hread] at hload
      obtain rfl := Option.some.inj hload
      exact loadIdentity_cut hsave hpart hread

theorem hexEncode_drawn (drawn : { b : Bytes // b.length = authTokenLen }) :
    (hexEncode drawn.val).length = authTokenLen * 2 := by
  rw [Hex.hexEncode_length, drawn.property, Nat.mul_comm]

theorem tokenRecipe_sound : Sound tokenRecipe where
  load drawn := if_pos (hexEncode_drawn drawn)
  cut drawn part token hpart hload := by
    simp only [tokenRecipe] at hpart hload
    split at hload
    next hlen =>
      obtain rfl := Option.some.inj hload
      exact hpart.eq_of_length (hlen.trans (hexEncode_drawn drawn).symm)
    next => cases hload

theorem loadOrCreateIdentity_eq (file : Option Bytes) (start : Start) :
    loadOrCreateIdentity P D file start = (identityRecipe P D).ready file start.identityBoot := by
  obtain ⟨text, hsave, -⟩ := saved_generated P D start.random
  unfold loadOrCreateIdentity Recipe.ready
  cases hreads : start.readsIdentity with
  | false => simp [Start.identityBoot, identityRecipe, hreads, hsave]
  | true =>
    cases file with
    | none => simp [Start.identityBoot, identityRecipe, hreads, hsave]
    | some data =>
      cases hload : loadIdentity D data with
      | error e => simp [Start.identityBoot, identityRecipe, hreads, hsave, hload, Except.toOption]
      | ok identity => simp [Start.identityBoot, identityRecipe, hreads, hload, Except.toOption]

theorem toOption_saved (saved : Prop) [Decidable saved] (token : Bytes) :
    (if saved then .ok token else .error .saveToken : Except AuthError Bytes).toOption =
      if saved then some token else none := by
  split <;> rfl

theorem loadOrCreateToken_eq (file : Option Bytes) (start : Start) :
    loadOrCreateToken file start = tokenRecipe.ready file start.tokenBoot := by
  unfold loadOrCreateToken Recipe.ready
  cases hreads : start.readsToken with
  | false =>
    simp [Start.tokenBoot, tokenRecipe, loadOrGenerateAuthToken, hreads, toOption_saved]
  | true =>
    cases file with
    | none => simp [Start.tokenBoot, tokenRecipe, loadOrGenerateAuthToken, hreads, toOption_saved]
    | some data =>
      by_cases hlen : data.length = authTokenLen * 2
      · simp [Start.tokenBoot, tokenRecipe, loadOrGenerateAuthToken, hreads, hlen, Except.toOption]
      · simp [Start.tokenBoot, tokenRecipe, loadOrGenerateAuthToken, hreads, hlen, toOption_saved]

/-- The files give what a daemon served with. -/
structure DataDir.Remembers (dir : DataDir) (serving : Serving) : Prop where
  identity : Held (identityRecipe P D) dir.identityKey serving.identity
  token : Held tokenRecipe dir.authToken serving.authToken

/-- Whatever the files give was drawn by one of the starts. -/
structure DataDir.Drawn (dir : DataDir) (starts : List Start) : Prop where
  identity : Made (identityRecipe P D) (starts.map (·.random)) dir.identityKey
  token : Made tokenRecipe (starts.map (·.drawn)) dir.authToken

end Keeping

/-! ## One start and many -/

/-- A start that serves has both secrets. -/
theorem runDaemon_serves {dir : DataDir} {start : Start} {serving : Serving}
    (h : (runDaemon P D dir start).1 = some serving) :
    (identityRecipe P D).ready dir.identityKey start.identityBoot =
        (some serving.identity, (runDaemon P D dir start).2.identityKey) ∧
      tokenRecipe.ready dir.authToken start.tokenBoot =
        (some serving.authToken, (runDaemon P D dir start).2.authToken) := by
  rw [← loadOrCreateIdentity_eq, ← loadOrCreateToken_eq]
  unfold runDaemon at h ⊢
  split at h
  next hdir =>
    split at h
    next => cases h
    next identity identityKey hidentity =>
      split at h
      next => cases h
      next token authToken htoken =>
        split at h
        next hup =>
          obtain rfl := Option.some.inj h
          simp only [if_pos hdir, hidentity, htoken]
          exact ⟨trivial, trivial⟩
        next => cases h
  next => cases h

/-- Each file stays as it was or becomes what readying its secret makes of it. -/
theorem runDaemon_files (P : Primitives) (D : Derivation) (dir : DataDir) (start : Start) :
    ((runDaemon P D dir start).2.identityKey = dir.identityKey ∨
      (runDaemon P D dir start).2.identityKey =
        ((identityRecipe P D).ready dir.identityKey start.identityBoot).2) ∧
    ((runDaemon P D dir start).2.authToken = dir.authToken ∨
      (runDaemon P D dir start).2.authToken =
        (tokenRecipe.ready dir.authToken start.tokenBoot).2) := by
  rw [← loadOrCreateIdentity_eq, ← loadOrCreateToken_eq]
  unfold runDaemon
  split
  next =>
    split
    next identityKey hidentity => exact ⟨Or.inr (by rw [hidentity]), Or.inl rfl⟩
    next identity identityKey hidentity =>
      split
      next authToken htoken => exact ⟨Or.inr (by rw [hidentity]), Or.inr (by rw [htoken])⟩
      next token authToken htoken => exact ⟨Or.inr (by rw [hidentity]), Or.inr (by rw [htoken])⟩
  next => exact ⟨Or.inl rfl, Or.inl rfl⟩

/-- As long as the files can be read they are not written again. -/
theorem DataDir.Remembers.step {dir : DataDir} {serving : Serving} (h : dir.Remembers P D serving)
    {start : Start} (hidentity : start.readsIdentity = true) (htoken : start.readsToken = true) :
    (runDaemon P D dir start).2.Remembers P D serving := by
  have hready := h.identity.ready (show start.identityBoot.reads = true from hidentity)
  have hready' := h.token.ready (show start.tokenBoot.reads = true from htoken)
  obtain ⟨hfile, hfile'⟩ := runDaemon_files P D dir start
  rw [hready] at hfile
  rw [hready'] at hfile'
  refine ⟨?_, ?_⟩
  · rw [hfile.elim id id]
    exact h.identity
  · rw [hfile'.elim id id]
    exact h.token

theorem DataDir.Remembers.run {dir : DataDir} {serving : Serving} (h : dir.Remembers P D serving)
    (starts : List Start)
    (hreads : ∀ s ∈ starts, s.readsIdentity = true ∧ s.readsToken = true) :
    (starts.foldl (fun dir start => (runDaemon P D dir start).2) dir).Remembers P D serving := by
  induction starts generalizing dir with
  | nil => exact h
  | cons start starts ih =>
    have hfirst := hreads start List.mem_cons_self
    exact ih (h.step hfirst.1 hfirst.2) (fun s hs => hreads s (List.mem_cons_of_mem _ hs))

theorem DataDir.Remembers.serving {dir : DataDir} {serving serving' : Serving}
    (h : dir.Remembers P D serving) {start : Start} (hidentity : start.readsIdentity = true)
    (htoken : start.readsToken = true) (hserving : (runDaemon P D dir start).1 = some serving') :
    serving' = serving := by
  obtain ⟨hready, hready'⟩ := runDaemon_serves hserving
  rw [h.identity.ready hidentity] at hready
  rw [h.token.ready htoken] at hready'
  cases serving
  cases serving'
  simp_all

theorem DataDir.Drawn.step {dir : DataDir} {starts : List Start} (h : dir.Drawn P D starts)
    (start : Start) : (runDaemon P D dir start).2.Drawn P D (starts ++ [start]) := by
  obtain ⟨hfile, hfile'⟩ := runDaemon_files P D dir start
  refine ⟨?_, ?_⟩
  · rw [List.map_append]
    rcases hfile with hfile | hfile
    · rw [hfile]
      exact h.identity.mono (List.subset_append_left _ _)
    · rw [hfile]
      exact h.identity.ready (identityRecipe_sound P D) start.identityBoot
  · rw [List.map_append]
    rcases hfile' with hfile | hfile
    · rw [hfile]
      exact h.token.mono (List.subset_append_left _ _)
    · rw [hfile]
      exact h.token.ready tokenRecipe_sound start.tokenBoot

theorem DataDir.Drawn.run {dir : DataDir} {starts : List Start} (h : dir.Drawn P D starts)
    (more : List Start) :
    (more.foldl (fun dir start => (runDaemon P D dir start).2) dir).Drawn P D (starts ++ more) := by
  induction more generalizing dir starts with
  | nil =>
    rw [List.append_nil]
    exact h
  | cons start more ih =>
    have hrest := ih (h.step start)
    rw [List.append_assoc] at hrest
    exact hrest

end VRGram.Client
