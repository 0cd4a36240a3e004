import VRGram.Crypto.Message
import VRGram.Lib.Maps

/-!
# Media messages and the transfer store

The upload of a file to the relay's media server, and `media.TransferStore`, a table of
transfers with the id as primary key. Columns that no caller fills are left out, and so is
a database that fails: the callers ignore it.
-/
namespace VRGram.Media

open VRGram.Lib VRGram.Lib.Maps VRGram.Lib.Strings VRGram.Crypto

set_option autoImplicit false

/-! ## Uploads -/

/-- `MediaMaxHardCap`, in bytes. -/
def mediaMaxHardCap : Nat := 10 * 1024 * 1024

inductive MediaType where
  | text
  | voice
  | image
  | file
  | video
  deriving DecidableEq

/-- The metadata that travels to the peer; a thumbnail is never set. -/
structure MediaMessage where
  messageID : Bytes
  /-- In milliseconds. -/
  timestamp : Int
  mediaType : MediaType
  fileName : Bytes
  mimeType : Bytes
  fileSize : Int64
  fileKeyB64 : Bytes
  checksum : Bytes
  fileID : Bytes
  deriving DecidableEq

/-- What one upload draws and meets: the identifier and the file key, the time, and the
file id with which the media server answers, if the upload succeeds. -/
structure Exchange where
  msgID : Bytes
  fileKey : Bytes
  timestamp : Int
  answer : Option Bytes
  deriving DecidableEq

/-- `TCPTransport.SendChunks`. -/
def sendChunks (P : Primitives) (x : Exchange) (fileData fileName mimeType : Bytes)
    (mediaType : MediaType) : Option MediaMessage :=
  if mediaMaxHardCap < fileData.length then none
  else x.answer.map (fun fileID => {
    messageID := hexEncode x.msgID
    timestamp := x.timestamp
    mediaType := mediaType
    fileName := fileName
    mimeType := mimeType
    fileSize := Int64.ofNat fileData.length
    fileKeyB64 := Base64Std.encodeToString x.fileKey
    checksum := lit "sha256:" ++ hexEncode (P.sha256 fileData).val
    fileID := fileID })

/-- Seconds that an upload of this size is said to take. -/
def estimateSeconds (fileSize : Int64) (useTCP : Bool) : Int32 :=
  if useTCP then
    let est := (fileSize / (100 * 1024) * 100 / 1000).toInt32
    if est < 5 then 5 else est
  else
    let est := (fileSize / (15 * 200) * 100 / 1000).toInt32
    if est < 10 then 10 else est

/-! ## The transfer store -/

inductive TransferStatus where
  | queued
  | encrypting
  | uploading
  | confirming
  | complete
  | failed
  | cancelled
  deriving DecidableEq

/-- The statuses that `ListPending` selects. -/
def TransferStatus.pending : TransferStatus → Bool
  | queued | encrypting | uploading | confirming => true
  | complete | failed | cancelled => false

structure TransferEntry where
  id : Bytes
  peerPubkey : Bytes
  fileName : Bytes
  mimeType : Bytes
  status : TransferStatus
  progress : Int32
  chunksSent : Int32
  /-- In milliseconds. -/
  createdAt : Int
  deriving DecidableEq

structure TransferStore where
  rows : GoMap Bytes TransferEntry

/-- `INSERT` fails when the id is taken. -/
def TransferStore.create (s : TransferStore) (entry : TransferEntry) : TransferStore :=
  if entry.id ∈ s.rows then s else ⟨s.rows.insert entry.id entry⟩

def TransferStore.get (s : TransferStore) (id : Bytes) : Option TransferEntry := s.rows.lookup id

def TransferStore.update (s : TransferStore) (id : Bytes) (status : TransferStatus)
    (progress chunksSent : Int32) : TransferStore :=
  match s.rows.lookup id with
  | none => s
  | some entry =>
    ⟨s.rows.insert id { entry with status := status, progress := progress, chunksSent := chunksSent }⟩

theorem get_create {s : TransferStore} {entry : TransferEntry} (h : entry.id ∉ s.rows) (id : Bytes) :
    (s.create entry).get id = if id = entry.id then some entry else s.get id := by
  rw [TransferStore.create, if_neg h, TransferStore.get, lookup_insert_ite]
  rfl

theorem get_update (s : TransferStore) (id j : Bytes) (status : TransferStatus)
    (progress chunksSent : Int32) :
    (s.update id status progress chunksSent).get j =
      if j = id then (s.get id).map (fun e =>
        { e with status := status, progress := progress, chunksSent := chunksSent })
      else s.get j := by
  cases h : s.rows.lookup id with
  | none =>
    have hs : s.update id status progress chunksSent = s := by
      simp only [TransferStore.update, h]
    rw [hs]
    by_cases hj : j = id
    · rw [if_pos hj, hj]
      simp only [TransferStore.get, h, Option.map_none]
    · rw [if_neg hj]
  | some entry =>
    simp only [TransferStore.update, TransferStore.get, h, lookup_insert_ite, Option.map_some]

end VRGram.Media
