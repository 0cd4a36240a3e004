import VRGram.Lib.Strings

/-!
# Authenticated encryption

A deterministic cipher with a tag: opening undoes sealing and accepts nothing that is
not the sealing of some plaintext under the same key and nonce. That nobody forges is
not a law of the function but an assumption about the ciphertexts at hand, so it is a
predicate over the `Seal` calls that were made (`OpensOnly`).
-/
namespace VRGram.Lib.Aead

open VRGram.Lib.Strings

set_option autoImplicit false

/-- A cipher whose ciphertexts are `overhead` bytes longer than the plaintext. -/
structure Cipher (overhead : Nat) where
  sealWith : Bytes → Bytes → Bytes → Bytes
  openWith : Bytes → Bytes → Bytes → Option Bytes
  openWith_eq_some_iff : ∀ key nonce c p, openWith key nonce c = some p ↔ c = sealWith key nonce p
  sealWith_length : ∀ key nonce p, (sealWith key nonce p).length = p.length + overhead

structure SealCall where
  key : Bytes
  nonce : Bytes
  plaintext : Bytes
  deriving DecidableEq

namespace Cipher

variable {overhead : Nat} (cipher : Cipher overhead)

@[simp] theorem openWith_sealWith (key nonce p : Bytes) :
    cipher.openWith key nonce (cipher.sealWith key nonce p) = some p :=
  (cipher.openWith_eq_some_iff key nonce _ p).mpr rfl

private theorem openWith_length {key nonce c p : Bytes} (h : cipher.openWith key nonce c = some p) :
    c.length = p.length + overhead := by
  rw [(cipher.openWith_eq_some_iff key nonce c p).mp h, cipher.sealWith_length]

/-! ## A nonce in front of the ciphertext -/

/-- The nonce followed by the ciphertext under it. -/
def sealFramed (key nonce p : Bytes) : Bytes := nonce ++ cipher.sealWith key nonce p

/-- Take the first `nonceSize` bytes as the nonce and open the rest. -/
def openFramed (nonceSize : Nat) (key data : Bytes) : Option Bytes :=
  if data.length < nonceSize then none
  else cipher.openWith key (data.take nonceSize) (data.drop nonceSize)

theorem openFramed_sealFramed {nonceSize : Nat} {nonce : Bytes} (h : nonce.length = nonceSize)
    (key p : Bytes) :
    cipher.openFramed nonceSize key (cipher.sealFramed key nonce p) = some p := by
  subst h
  rw [openFramed, sealFramed, if_neg (by simp), List.take_left, List.drop_left, openWith_sealWith]

/-! ## Unforgeability -/

/-- Whoever opens `c` under `nonce` with a key that is `held` opens what one of `calls`
sealed. Some key or other opens almost anything, so the keys have to be restricted. -/
def OpensOnly (held : Bytes → Prop) (calls : List SealCall) (nonce c : Bytes) : Prop :=
  ∀ key p, held key → cipher.openWith key nonce c = some p → ⟨key, nonce, p⟩ ∈ calls

/-- A ciphertext whose length no call under this nonce produced cannot be opened. -/
theorem openWith_eq_none {held : Bytes → Prop} {calls : List SealCall} {nonce c : Bytes}
    (hauth : cipher.OpensOnly held calls nonce c)
    (hlen : ∀ call ∈ calls, call.nonce = nonce → call.plaintext.length + overhead ≠ c.length)
    {key : Bytes} (hkey : held key) : cipher.openWith key nonce c = none := by
  cases hp : cipher.openWith key nonce c with
  | none => rfl
  | some p => exact absurd (cipher.openWith_length hp).symm (hlen _ (hauth key p hkey hp) rfl)

end Cipher

/-- The tag of `keyTagged`: key and nonce folded into `n` bytes. -/
def keyTag (n : Nat) (key nonce : Bytes) : Bytes :=
  (List.range n).map (fun i => key.getD i 0 ^^^ nonce.getD i 0)

/-- A cipher that meets the laws and can be evaluated: the plaintext with a tag after it. -/
def keyTagged (n : Nat) : Cipher n where
  sealWith key nonce p := p ++ keyTag n key nonce
  openWith key nonce c :=
    if c.drop (c.length - n) = keyTag n key nonce then some (c.take (c.length - n)) else none
  openWith_eq_some_iff key nonce c p := by
    have htag : (keyTag n key nonce).length = n := by simp [keyTag]
    constructor
    · intro h
      split at h
      next hd =>
        obtain rfl := Option.some.inj h
        rw [← hd, List.take_append_drop]
      next => cases h
    · rintro rfl
      simp [htag]
  sealWith_length key nonce p := by simp [keyTag]

end VRGram.Lib.Aead
