import VRGram.Lib.Maps
import VRGram.Lib.Strings

/-!
# The persisted sequence counter

`store.SequenceCounter` over one bbolt bucket. A stored value is an eight-byte
big-endian integer; the type says so, because only `Next` writes the bucket.
`Update` is atomic: when it does not commit, the bucket is as it was.
-/
namespace VRGram.Store

open VRGram.Lib.Maps VRGram.Lib.Strings

set_option autoImplicit false

/-- The eight bytes of a stored counter. -/
abbrev Word64 := { b : Bytes // b.length = 8 }

/-- `binary.BigEndian.PutUint64`. -/
def putUint64 (v : UInt64) : Word64 := ⟨be 8 v.toNat, be_length 8 v.toNat⟩

/-- `binary.BigEndian.Uint64`. -/
def uint64 (w : Word64) : UInt64 := UInt64.ofNat (ofBE w.val)

structure SequenceCounter where
  bucket : GoMap Bytes Word64

/-- A counter file that has just been created. -/
def newSequenceCounter : SequenceCounter := ⟨∅⟩

/-- `GetLast`. -/
def SequenceCounter.getLast (sc : SequenceCounter) (peerID : Bytes) : UInt64 :=
  match sc.bucket.lookup peerID with
  | some val => uint64 val
  | none => 0

/-- `Next`. The transaction fails on the empty key, which bbolt refuses, and when it
does not commit; `none` is that failure. -/
def SequenceCounter.next (sc : SequenceCounter) (peerID : Bytes) (commit : Bool) :
    Option UInt64 × SequenceCounter :=
  let seq := sc.getLast peerID + 1
  if peerID = [] ∨ commit = false then (none, sc)
  else (some seq, ⟨sc.bucket.insert peerID (putUint64 seq)⟩)

/-- `PeerIDFromPubkey`: at most eight bytes. -/
def peerIDFromPubkey (pubkey : Bytes) : Bytes := if pubkey.length > 8 then pubkey.take 8 else pubkey

theorem uint64_putUint64 (v : UInt64) : uint64 (putUint64 v) = v := by
  have h : v.toNat < 256 ^ 8 := v.toNat_lt
  rw [uint64, putUint64, ofBE_be_of_lt h, UInt64.ofNat_toNat]

/-- A successful `Next` returns one more than the last number and moves only its own key. -/
theorem next_success {sc : SequenceCounter} {peerID : Bytes} {commit : Bool} {seq : UInt64}
    (h : (sc.next peerID commit).1 = some seq) :
    seq = sc.getLast peerID + 1 ∧
    ∀ key, (sc.next peerID commit).2.getLast key = if key = peerID then seq else sc.getLast key := by
  unfold SequenceCounter.next at h ⊢
  simp only at h ⊢
  split at h
  · cases h
  · obtain rfl := Option.some.inj h
    refine ⟨rfl, ?_⟩
    intro key
    rename_i hc
    rw [if_neg hc]
    simp only [SequenceCounter.getLast, lookup_insert_ite]
    by_cases hk : key = peerID
    · subst hk
      simp [uint64_putUint64]
    · simp [hk]

theorem next_failure {sc : SequenceCounter} {peerID : Bytes} {commit : Bool}
    (h : (sc.next peerID commit).1 = none) : (sc.next peerID commit).2 = sc := by
  unfold SequenceCounter.next at h ⊢
  simp only at h ⊢
  split at h
  · rename_i hc
    rw [if_pos hc]
  · cases h

end VRGram.Store
