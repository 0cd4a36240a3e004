import VRGram.Encoding.Labels
import VRGram.Lib.Dns

/-!
# The DNS client: sending and querying one chunk

`dns.SendChunk` and `dns.QueryChunk` in their three transport modes. The network is a
parameter: one exchange takes a protocol, an address and a question name, and may
change the state of the world whether or not an answer comes back.
-/
namespace VRGram.Client

open VRGram.Lib.Strings VRGram.Lib.Dns VRGram.Encoding

set_option autoImplicit false

inductive TransportMode where
  | auto | tcp | udp
  deriving DecidableEq

inductive Net where
  | tcp | udp
  deriving DecidableEq

/-- `dns.Client.Exchange`; no message means a transport error. -/
abbrev Exchange (σ : Type) := Net → Bytes → Bytes → σ → Option Msg × σ

inductive SendError where
  | exchange
  | rcode (code : Rcode)
  deriving DecidableEq

inductive QueryError where
  | exchange
  | rcode (code : Rcode)
  | noAnswer
  | notTXT
  | decode (e : DecodeError)
  deriving DecidableEq

section

variable {σ : Type} (ex : Exchange σ)

/-- `err == nil && resp.Rcode == dns.RcodeSuccess`. -/
def accepted : Option Msg → Bool
  | some m => m.rcode == .success
  | none => false

/-- The outcome of the last exchange that a send makes. -/
def sendResult : Option Msg → Except SendError Unit
  | none => .error .exchange
  | some m => if m.rcode = .success then .ok () else .error (.rcode m.rcode)

def sendChunk (addr zone : Bytes) (chunk : Chunk) (mode : TransportMode) (w : σ) :
    Except SendError Unit × σ :=
  let qname := questionName chunk.bodyLabels zone
  match mode with
  | .tcp =>
    let first := ex .tcp addr qname w
    (sendResult first.1, first.2)
  | .udp =>
    let first := ex .udp addr qname w
    (sendResult first.1, first.2)
  | .auto =>
    let first := ex .tcp addr qname w
    if accepted first.1 then (.ok (), first.2)
    else
      let second := ex .udp addr qname first.2
      match second.1 with
      | some _ => (sendResult second.1, second.2)
      | none =>
        let third := ex .tcp addr qname second.2
        (sendResult third.1, third.2)

/-- The chunk in the strings of a TXT answer. -/
def decodeTXT (zone : Bytes) (strings : List Bytes) : Except QueryError Chunk :=
  match decodeChunkFromLabels (strings ++ [zone]) zone with
  | .error e => .error (.decode e)
  | .ok c => .ok c

/-- A successful answer whose first record is TXT. -/
def firstTXT : Option Msg → Option (List Bytes)
  | some ⟨.success, .txt strings :: _⟩ => some strings
  | _ => none

/-- The outcome of a query in one of the modes with a single exchange. -/
def queryOnceResult (zone : Bytes) : Option Msg → Except QueryError Chunk
  | none => .error .exchange
  | some m =>
    if m.rcode ≠ .success then .error (.rcode m.rcode)
    else match m.answer with
      | [] => .error (.rcode m.rcode)
      | .txt strings :: _ => decodeTXT zone strings
      | .other :: _ => .error .notTXT

/-- The outcome of the final exchange in mode auto. -/
def queryLastResult (zone : Bytes) : Option Msg → Except QueryError Chunk
  | none => .error .exchange
  | some m =>
    if m.rcode ≠ .success then .error (.rcode m.rcode)
    else match m.answer with
      | [] => .error .noAnswer
      | .txt strings :: _ => decodeTXT zone strings
      | .other :: _ => .error .notTXT

/-- The chunk that a query puts on the wire. -/
def queryFor (msgID : MsgID) (chunkIdx : UInt16) : Chunk := newChunk msgID chunkIdx 0 []

def queryChunk (addr zone : Bytes) (msgID : MsgID) (chunkIdx : UInt16) (mode : TransportMode)
    (w : σ) : Except QueryError Chunk × σ :=
  let qname := questionName (queryFor msgID chunkIdx).bodyLabels zone
  match mode with
  | .tcp =>
    let first := ex .tcp addr qname w
    (queryOnceResult zone first.1, first.2)
  | .udp =>
    let first := ex .udp addr qname w
    (queryOnceResult zone first.1, first.2)
  | .auto =>
    let first := ex .tcp addr qname w
    match firstTXT first.1 with
    | some strings => (decodeTXT zone strings, first.2)
    | none =>
      let second := ex .udp addr qname first.2
      match firstTXT second.1 with
      | some strings => (decodeTXT zone strings, second.2)
      | none =>
        let third := ex .tcp addr qname second.2
        (queryLastResult zone third.1, third.2)

/-! ## What a send does -/

private theorem sendResult_ok {r : Option Msg} (h : sendResult r = .ok ()) :
    ∃ m, r = some m ∧ m.rcode = .success := by
  cases r with
  | none => cases h
  | some m =>
    simp only [sendResult] at h
    split at h
    · exact ⟨m, rfl, by assumption⟩
    · cases h

/-- A send keeps whatever each of its exchanges keeps, and it succeeds only by an exchange
that was answered with success and was its last. -/
theorem sendChunk_spec (addr zone : Bytes) (chunk : Chunk) (mode : TransportMode) (w : σ)
    (Inv : σ → Prop)
    (hinv : ∀ net v, Inv v → Inv (ex net addr (questionName chunk.bodyLabels zone) v).2)
    (hw : Inv w) :
    Inv (sendChunk ex addr zone chunk mode w).2 ∧
    ((sendChunk ex addr zone chunk mode w).1 = .ok () →
      ∃ net v m, Inv v ∧ m.rcode = .success ∧
        ex net addr (questionName chunk.bodyLabels zone) v =
          (some m, (sendChunk ex addr zone chunk mode w).2)) := by
  -- Every way to return is the last of a chain of exchanges.
  have hlast : ∀ net v, Inv v →
      sendResult (ex net addr (questionName chunk.bodyLabels zone) v).1 = .ok () →
      ∃ net' v' m, Inv v' ∧ m.rcode = .success ∧
        ex net' addr (questionName chunk.bodyLabels zone) v' =
          (some m, (ex net addr (questionName chunk.bodyLabels zone) v).2) := by
    intro net v hv hr
    obtain ⟨m, hm, hs⟩ := sendResult_ok hr
    exact ⟨net, v, m, hv, hs, Prod.ext hm rfl⟩
  have hfirst := hinv .tcp w hw
  have hsecond := hinv .udp _ hfirst
  cases mode with
  | tcp => exact ⟨hfirst, hlast .tcp w hw⟩
  | udp => exact ⟨hinv .udp w hw, hlast .udp w hw⟩
  | auto =>
    simp only [sendChunk]
    split
    · rename_i ha
      refine ⟨hfirst, fun _ => hlast .tcp w hw ?_⟩
      cases hm : (ex .tcp addr (questionName chunk.bodyLabels zone) w).1 with
      | none => rw [hm] at ha; cases ha
      | some m =>
        rw [hm] at ha
        rw [sendResult, if_pos (beq_iff_eq.mp ha)]
    · split
      · exact ⟨hsecond, hlast .udp _ hfirst⟩
      · exact ⟨hinv .tcp _ hsecond, hlast .tcp _ hsecond⟩

/-! ## Queries against a server that always answers alike -/

private theorem decodeTXT_bodyLabels {c : Chunk} (h : c.HashOk) (zone : Bytes) :
    decodeTXT zone c.bodyLabels = .ok c := by
  have hd : decodeChunkFromLabels (c.bodyLabels ++ [zone]) zone = .ok c := decode_encodeToLabels h zone
  rw [decodeTXT, hd]

theorem queryChunk_found {addr zone : Bytes} {msgID : MsgID} {idx : UInt16} {w : σ} {c : Chunk}
    (hc : c.HashOk)
    (hans : ∀ net, ex net addr (questionName (queryFor msgID idx).bodyLabels zone) w =
      (some (.txt c.bodyLabels), w)) (mode : TransportMode) :
    queryChunk ex addr zone msgID idx mode w = (.ok c, w) := by
  have hd := decodeTXT_bodyLabels hc zone
  cases mode <;> simp [queryChunk, hans, firstTXT, queryOnceResult, Msg.txt, hd]

theorem queryChunk_missing {addr zone : Bytes} {msgID : MsgID} {idx : UInt16} {w : σ}
    (hans : ∀ net, ex net addr (questionName (queryFor msgID idx).bodyLabels zone) w =
      (some (.failure .nameError), w)) (mode : TransportMode) :
    queryChunk ex addr zone msgID idx mode w = (.error (.rcode .nameError), w) := by
  cases mode <;> simp [queryChunk, hans, firstTXT, queryOnceResult, queryLastResult, Msg.failure]

end

end VRGram.Client
