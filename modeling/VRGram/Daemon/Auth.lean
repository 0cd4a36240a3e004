import VRGram.Lib.Hex
import VRGram.Lib.Maps

/-!
# Who may call the daemon

The token that `RunDaemon` loads, the interceptor that checks it, and the service it is
registered on. Of grpc-go it is assumed that a unary interceptor runs for the unary methods
only and a stream interceptor for the streaming ones only; `RunDaemon` registers no stream
interceptor.
-/
namespace VRGram.Client

open VRGram.Lib VRGram.Lib.Maps VRGram.Lib.Strings

set_option autoImplicit false

/-! ## The token -/

def authTokenLen : Nat := 32

inductive AuthError where
  | saveToken
  | missingMetadata
  | missingToken
  | invalidToken
  deriving DecidableEq

/-- A token file of the right size is taken as it is; otherwise one is drawn and saved. -/
def loadOrGenerateAuthToken (file : Option Bytes) (drawn : { b : Bytes // b.length = authTokenLen })
    (saved : Bool) : Except AuthError Bytes :=
  match file with
  | some data =>
    if data.length = authTokenLen * 2 then .ok data
    else if saved then .ok (hexEncode drawn.val) else .error .saveToken
  | none => if saved then .ok (hexEncode drawn.val) else .error .saveToken

/-- `metadata.MD`. -/
abbrev Metadata := GoMap Bytes (List Bytes)

/-- The bits in which two strings of one length differ. -/
def difference (x y : Bytes) : UInt8 :=
  (List.zipWith (fun a b => a ^^^ b) x y).foldl (fun v d => v ||| d) 0

def constantTimeCompare (x y : Bytes) : Nat :=
  if x.length ≠ y.length then 0 else if difference x y = 0 then 1 else 0

theorem foldl_or_eq_zero (ds : List UInt8) (v : UInt8) :
    ds.foldl (fun v d => v ||| d) v = 0 ↔ v = 0 ∧ ∀ d ∈ ds, d = 0 := by
  induction ds generalizing v with
  | nil => simp
  | cons d rest ih =>
    rw [List.foldl_cons, ih, UInt8.or_eq_zero_iff, List.forall_mem_cons, and_assoc]

theorem constantTimeCompare_eq_one (x y : Bytes) : constantTimeCompare x y = 1 ↔ x = y := by
  unfold constantTimeCompare
  constructor
  · intro h
    split at h
    · cases h
    next hlen =>
      split at h
      next hdiff =>
        have hall := ((foldl_or_eq_zero _ 0).mp hdiff).2
        refine List.ext_getElem (not_not.mp hlen) ?_
        intro i hx hy
        have hd := hall (x[i] ^^^ y[i]) (List.mem_iff_getElem.mpr ⟨i, by simp; omega, by simp⟩)
        exact UInt8.xor_eq_zero_iff.mp hd
      · cases h
  · rintro rfl
    have hzero : difference x x = 0 := by
      refine (foldl_or_eq_zero _ 0).mpr ⟨rfl, ?_⟩
      intro d hd
      obtain ⟨i, hi, rfl⟩ := List.mem_iff_getElem.mp hd
      simp
    rw [if_neg (by simp), if_pos hzero]

/-- The first `x-auth-token` value of a request. -/
def firstToken (md : Option Metadata) : Option Bytes :=
  ((md.bind (fun values => values.lookup (lit "x-auth-token"))).getD []).head?

/-- An interceptor lets a call through to its handler or fails it. -/
abbrev Interceptor := Bytes → Option Metadata → Except AuthError Unit

def authInterceptor (authToken : Option Bytes) : Interceptor := fun fullMethod md =>
  match authToken with
  | none => .ok ()
  | some token =>
    if contains fullMethod (lit "GetIdentity") then .ok ()
    else
      match md with
      | none => .error .missingMetadata
      | some values =>
        match (values.lookup (lit "x-auth-token")).getD [] with
        | [] => .error .missingToken
        | first :: _ =>
          if first.length ≠ authTokenLen * 2 then .error .invalidToken
          else if constantTimeCompare token first ≠ 1 then .error .invalidToken
          else .ok ()

/-- With a token set, a call passes that asks for the identity or carries the token first. -/
theorem authInterceptor_ok_iff (token fullMethod : Bytes) (md : Option Metadata) :
    authInterceptor (some token) fullMethod md = .ok () ↔
      contains fullMethod (lit "GetIdentity") = true ∨
        (firstToken md = some token ∧ token.length = authTokenLen * 2) := by
  unfold authInterceptor firstToken
  by_cases hid : contains fullMethod (lit "GetIdentity") = true
  · simp [hid]
  · cases md with
    | none => simp [hid]
    | some values =>
      simp only [hid, Option.bind_some]
      cases (values.lookup (lit "x-auth-token")).getD [] with
      | nil => simp
      | cons first rest =>
        simp only [List.head?_cons, Option.some.injEq, Bool.false_eq_true, if_false, false_or]
        by_cases hlen : first.length = authTokenLen * 2
        · rw [if_neg (not_not.mpr hlen)]
          by_cases heq : token = first
          · subst heq
            simp [(constantTimeCompare_eq_one token token).mpr rfl, hlen]
          · have hne : constantTimeCompare token first ≠ 1 :=
              fun h => heq ((constantTimeCompare_eq_one token first).mp h)
            rw [if_pos hne]
            simp [Ne.symm heq]
        · rw [if_pos hlen]
          constructor
          · intro h
            cases h
          · rintro ⟨rfl, h⟩
            exact absurd h hlen

/-! ## The service -/

/-- The methods of the service `RelayClient`. -/
inductive Method where
  | sendMessage | pollMessages | getRelayStatus | addRelay | removeRelay | getIdentity | addPeer
  | getTransportStatus | sendMedia | getMediaStatus | cancelSend | sendMediaStream
  | generateInviteCode | joinViaCode | removePeer | listPeers | createGroup | listGroups
  | leaveGroup | removeGroupMember | updateProfile | getProfilePic | setProfilePic
  | setTransportMode | setChunkSize
  deriving DecidableEq

def Method.name : Method → Bytes
  | sendMessage => lit "SendMessage"
  | pollMessages => lit "PollMessages"
  | getRelayStatus => lit "GetRelayStatus"
  | addRelay => lit "AddRelay"
  | removeRelay => lit "RemoveRelay"
  | getIdentity => lit "GetIdentity"
  | addPeer => lit "AddPeer"
  | getTransportStatus => lit "GetTransportStatus"
  | sendMedia => lit "SendMedia"
  | getMediaStatus => lit "GetMediaStatus"
  | cancelSend => lit "CancelSend"
  | sendMediaStream => lit "SendMediaStream"
  | generateInviteCode => lit "GenerateInviteCode"
  | joinViaCode => lit "JoinViaCode"
  | removePeer => lit "RemovePeer"
  | listPeers => lit "ListPeers"
  | createGroup => lit "CreateGroup"
  | listGroups => lit "ListGroups"
  | leaveGroup => lit "LeaveGroup"
  | removeGroupMember => lit "RemoveGroupMember"
  | updateProfile => lit "UpdateProfile"
  | getProfilePic => lit "GetProfilePic"
  | setProfilePic => lit "SetProfilePic"
  | setTransportMode => lit "SetTransportMode"
  | setChunkSize => lit "SetChunkSize"

def Method.fullMethod (m : Method) : Bytes := lit "/relaypb.RelayClient/" ++ m.name

/-- `rpc SendMediaStream(stream MediaUploadChunk)` is the only streaming method. -/
def Method.streaming : Method → Bool
  | sendMediaStream => true
  | _ => false

/-- The interceptors of a gRPC server, each optional. -/
structure GrpcServer where
  unaryInterceptor : Option Interceptor
  streamInterceptor : Option Interceptor

/-- Whether a call reaches its handler: the interceptor of the method's kind decides. -/
def GrpcServer.executes (s : GrpcServer) (m : Method) (md : Option Metadata) : Bool :=
  match if m.streaming then s.streamInterceptor else s.unaryInterceptor with
  | none => true
  | some interceptor => (interceptor m.fullMethod md).isOk

/-- The server of `RunDaemon`. -/
def daemonServer (authToken : Bytes) : GrpcServer where
  unaryInterceptor := some (authInterceptor (some authToken))
  streamInterceptor := none

private theorem contains_getIdentity_iff (m : Method) :
    contains m.fullMethod (lit "GetIdentity") = true ↔ m = .getIdentity := by
  cases m <;> decide +kernel

/-- A unary call reaches its handler when the interceptor lets it through. -/
theorem executes_unary {m : Method} (hm : m.streaming = false) (token : Bytes) (md : Option Metadata) :
    (daemonServer token).executes m md = true ↔
      m = .getIdentity ∨ (firstToken md = some token ∧ token.length = authTokenLen * 2) := by
  rw [← contains_getIdentity_iff, ← authInterceptor_ok_iff]
  simp only [GrpcServer.executes, hm, daemonServer, Bool.false_eq_true, if_false]
  cases authInterceptor (some token) m.fullMethod md <;> simp [Except.isOk, Except.toBool]

/-- A method is closed to everyone who does not present the token, `GetIdentity` apart,
exactly when it is a unary one. -/
theorem authenticated_iff_unary (token : Bytes) (m : Method) :
    (∀ md, (daemonServer token).executes m md = true → m = .getIdentity ∨ firstToken md = some token) ↔
      m.streaming = false := by
  constructor
  · intro h
    by_contra hm
    have hstream : m = .sendMediaStream := by
      cases m <;> first | rfl | exact absurd rfl hm
    subst hstream
    -- nothing stands before the handler, so a call without metadata reaches it
    rcases h none rfl with hid | htoken
    · cases hid
    · cases htoken
  · intro hm md hex
    rcases (executes_unary hm token md).mp hex with hid | ⟨htoken, -⟩
    · exact Or.inl hid
    · exact Or.inr htoken

theorem stream_unauthenticated :
    ∃ token, loadOrGenerateAuthToken none ⟨List.replicate 32 7, rfl⟩ true = .ok token ∧
      (daemonServer token).executes .sendMediaStream none = true ∧
      firstToken none ≠ some token := by
  refine ⟨_, rfl, rfl, ?_⟩
  intro h
  cases h

end VRGram.Client
