import VRGram.Daemon.Peers
import VRGram.Daemon.Receive

/-!
# Calls that change the peers

`AddPeer`, `RemovePeer`, `JoinViaCode` and the handling of a hello put one peer into the peers map
or take one out of it, and then call `savePeers`.
-/
namespace VRGram.Client

open VRGram.Lib VRGram.Lib.Maps VRGram.Lib.Strings VRGram.Crypto

set_option autoImplicit false

abbrev Peers := GoMap Bytes PeerInfoEntry

/-- What a call does to the map. -/
inductive PeersCall where
  | put (pubkey nickname : Bytes)
  | delete (pubkey : Bytes)
  deriving DecidableEq

def PeersCall.pubkey : PeersCall → Bytes
  | .put pubkey _ => pubkey
  | .delete pubkey => pubkey

/-- The entry of the call's peer afterwards. -/
def PeersCall.entry : PeersCall → Option PeerInfoEntry
  | .put pubkey nickname => some ⟨nickname, pubkey⟩
  | .delete _ => none

theorem PeersCall.entry_pubkey (call : PeersCall) {e : PeerInfoEntry} (h : call.entry = some e) :
    e.pubkey = call.pubkey := by
  cases call with
  | put pubkey nickname =>
    obtain rfl := Option.some.inj h
    rfl
  | delete pubkey => cases h

def PeersCall.update (peers : Peers) : PeersCall → Peers
  | .put pubkey nickname => peers.insert pubkey ⟨nickname, pubkey⟩
  | .delete pubkey => peers.erase pubkey

theorem lookup_update (peers : Peers) (call : PeersCall) (pubkey : Bytes) :
    (call.update peers).lookup pubkey =
      if call.pubkey = pubkey then call.entry else peers.lookup pubkey := by
  cases call with
  | put k nickname =>
    rw [PeersCall.update, lookup_insert_ite]
    by_cases hk : k = pubkey
    · simp [PeersCall.pubkey, PeersCall.entry, hk]
    · simp [PeersCall.pubkey, hk, Ne.symm hk]
  | delete k =>
    rw [PeersCall.update, lookup_erase_ite]
    by_cases hk : k = pubkey
    · simp [PeersCall.pubkey, PeersCall.entry, hk]
    · simp [PeersCall.pubkey, hk, Ne.symm hk]

def addPeerCall (nickname pubkey : Bytes) : PeersCall := .put pubkey nickname

def removePeerCall (pubkey : Bytes) : PeersCall := .delete pubkey

def joinViaCodeCall (invite : Invite) : PeersCall :=
  .put (Base64Std.encodeToString invite.pubkey) invite.nickname

def helloCall (pubkey nick : Bytes) : PeersCall := .put pubkey nick

theorem addPeer_peers {d after : Daemon} {nickname pubkey : Bytes}
    (h : d.addPeer nickname pubkey = .ok after) :
    after.peers = (addPeerCall nickname pubkey).update d.peers := by
  unfold Daemon.addPeer at h
  split at h
  · cases h
  · split at h
    · cases h
    · obtain rfl := Except.ok.inj h
      rfl

theorem removePeer_peers (d : Daemon) (pubkey : Bytes) :
    (d.removePeer pubkey).peers = (removePeerCall pubkey).update d.peers := rfl

theorem joinViaCode_peers {P : Primitives} {d after : Daemon} {profileNickname code : Bytes}
    {nonce : Nonce} {invite : Invite} {result : Except PeerError Joined}
    (hcode : parseInviteCode code = .ok invite)
    (h : d.joinViaCode P profileNickname code nonce = some (after, result)) :
    after.peers = (joinViaCodeCall invite).update d.peers := by
  unfold Daemon.joinViaCode at h
  simp only [hcode] at h
  split at h
  · cases h
  · split at h
    · obtain ⟨rfl, -⟩ := Prod.mk.inj (Option.some.inj h)
      rfl
    · obtain ⟨rfl, -⟩ := Prod.mk.inj (Option.some.inj h)
      rfl

theorem helloStep_peers (P : Primitives) (now : Int) (raw : Bytes) (s : Daemon × Opening)
    (nonceHex : Bytes) :
    (helloStep P now raw s nonceHex).1.peers = s.1.peers ∨
      ∃ pubkey nick,
        (helloStep P now raw s nonceHex).1.peers = (helloCall pubkey nick).update s.1.peers := by
  rcases helloStep_cases P now raw s nonceHex with h | h | ⟨_, pubkey, nick, _, -, -, -, h⟩
  · rw [h]
    exact Or.inl rfl
  · rw [h]
    exact Or.inl rfl
  · rw [h]
    exact Or.inr ⟨pubkey, nick, rfl⟩

end VRGram.Client
