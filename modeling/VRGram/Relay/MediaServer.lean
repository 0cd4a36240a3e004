import VRGram.Crypto.Message
import VRGram.Daemon.Auth
import VRGram.Lib.Hex
import VRGram.Lib.Machine
import VRGram.Lib.OpenFiles

/-!
# The relay's media server

`startMediaServer`: the handlers of `/upload` and `/download/` and the daily cleanup, as one
machine. A handler runs in its own goroutine, so it takes a step for every system call: an
upload opens its file, writes it in one piece or several and closes it; a download looks the file
up, opens it and reads. The cleanup lists the directory and then looks at the files one by one.

Of `net/http` it is assumed that the mux hands a request to the handler of its path, that
`ServeFile` announces the size it has seen and then sends what it reads, and that a request for a
file carries neither a range nor a condition. Files are named by their names in the media
directory (`mediaPath_isChild`). Nothing but this server changes that directory.
-/
namespace VRGram.Relay

open VRGram.Lib VRGram.Lib.Maps VRGram.Lib.Strings VRGram.Lib.OpenFiles VRGram.Lib.Machine
  VRGram.Crypto
open VRGram.Client (constantTimeCompare constantTimeCompare_eq_one)

set_option autoImplicit false

/-! ## Requests -/

/-- 50 MB. -/
def maxUploadSize : Nat := 50 * 2 ^ 20

/-- Seven days, in nanoseconds. -/
def mediaRetention : Int := 7 * 24 * 3600 * 1000000000

/-- The media server's environment: the hash and `mediaToken`. -/
structure MediaConfig where
  sha256 : Bytes → Encoding.Digest
  mediaToken : Bytes

/-- What arrives of a request's body, and whether its end does. -/
structure RequestBody where
  sent : Bytes
  closed : Bool
  deriving DecidableEq

/-- A request as its handler reads it. The token is empty if the header is not there. -/
inductive Request where
  | upload (method token : Bytes) (body : RequestBody)
  | download (path token : Bytes)
  deriving DecidableEq

structure Response where
  status : Nat
  body : Bytes
  contentLength : Nat
  deriving DecidableEq

/-- `http.Error`. -/
def httpError (text : Bytes) (status : Nat) : Response := ⟨status, text ++ [10], text.length + 1⟩

/-- `http.NotFound`. -/
def httpNotFound : Response := httpError (lit "404 page not found") 404

def unauthorized : Response := httpError (lit "unauthorized") 401

def writeFailed : Response := httpError (lit "write failed") 500

def checkMediaAuth (mediaToken provided : Bytes) : Bool :=
  if mediaToken = [] then true
  else if provided = [] then false
  else constantTimeCompare mediaToken provided == 1

section

variable (cfg : MediaConfig)

def fileID (data : Bytes) : Bytes := hexEncode (cfg.sha256 data).val

def uploadResponse (fileID : Bytes) : Response :=
  let body := lit "\x7b\"file_id\":\"" ++ fileID ++ lit "\"\x7d"
  ⟨200, body, body.length⟩

/-- The checks of `/upload` up to the whole body. -/
def admitUpload (method token : Bytes) (body : RequestBody) : Except Response Bytes :=
  if method ≠ lit "POST" then .error (httpError (lit "POST only") 405)
  else if checkMediaAuth cfg.mediaToken token = false then .error unauthorized
  else if maxUploadSize < body.sent.length then .error (httpError (lit "file too large") 413)
  else if body.closed = false then .error (httpError (lit "read failed") 500)
  else .ok body.sent

/-- `strings.TrimPrefix(r.URL.Path, "/download/")`. -/
def requestedFile (path : Bytes) : Bytes :=
  if (lit "/download/").isPrefixOf path then path.drop (lit "/download/").length else path

/-- The checks of `/download/` up to the name of the file. -/
def admitDownload (path token : Bytes) : Except Response Bytes :=
  if requestedFile path = [] then .error httpNotFound
  else if checkMediaAuth cfg.mediaToken token = false then .error unauthorized
  else if Hex.decodeString (requestedFile path) = none then .error httpNotFound
  else .ok (requestedFile path)

def mediaPath (mediaDir fileID : Bytes) : Bytes := Paths.joinPath [mediaDir, fileID]

/-- The name of a file that either handler works on is that of a child of the directory. -/
theorem mediaPath_isChild {mediaDir name b : Bytes} (hdir : Paths.CleanDir mediaDir)
    (hname : Hex.decodeString name = some b) (hne : name ≠ []) :
    mediaPath mediaDir name = mediaDir ++ Paths.slash :: name := by
  have hproper := Hex.properName_of_decodes hname hne
  have hsplit : split Paths.slash name = [] ++ [name] := split_of_notMem hproper.2.2.2
  exact Paths.joinPath_leadsBack hdir hsplit hproper rfl

end

/-! ## The machine -/

/-- An upload has its body, and then an open file that it has written up to a position. -/
inductive UploadPhase where
  | received
  | opened (inode position : Nat)
  deriving DecidableEq

structure Upload where
  data : Bytes
  phase : UploadPhase
  deriving DecidableEq

/-- A download has found its file, and then reads it: the size is that of the opening. -/
inductive DownloadPhase where
  | found
  | opened (inode size : Nat) (got : Bytes)
  deriving DecidableEq

structure Download where
  name : Bytes
  phase : DownloadPhase
  deriving DecidableEq

/-- The cleanup has files yet to look at, or is about to remove one. A file whose `Info` cannot
be had is a nil pointer, and the relay goes down. -/
inductive Cleaner where
  | looking (rest : List Bytes)
  | removing (name : Bytes) (rest : List Bytes)
  | crashed
  deriving DecidableEq

/-- The last three fields are the server's history: the bodies it has taken and the files it was
asked for, by the numbers of the requests, and the upload that emptied an inode last. -/
structure MediaServer where
  disk : Disk Bytes
  uploads : GoMap Nat Upload
  downloads : GoMap Nat Download
  cleaner : Cleaner
  answers : List (Nat × Response)
  received : List (Nat × Bytes)
  asked : List (Nat × Bytes)
  openedBy : Nat → Option (Nat × Bytes)

inductive MediaEvent where
  | request (id : Nat) (r : Request)
  | create (id : Nat) (now : Int)
  | write (id n : Nat) (now : Int)
  | close (id : Nat)
  | fail (id : Nat)
  | openFile (id : Nat) (ok : Bool)
  | read (id n : Nat)
  | reply (id : Nat)
  | list (names : List Bytes)
  | examine (now : Int)
  | remove (ok : Bool)

namespace MediaServer

def start (disk : Disk Bytes) : MediaServer where
  disk := disk
  uploads := ∅
  downloads := ∅
  cleaner := .looking []
  answers := []
  received := []
  asked := []
  openedBy := fun _ => none

/-- No request has had this number. -/
def Fresh (s : MediaServer) (id : Nat) : Prop :=
  id ∉ s.uploads ∧ id ∉ s.downloads ∧ ∀ a ∈ s.answers, a.1 ≠ id

instance (s : MediaServer) (id : Nat) : Decidable (s.Fresh id) :=
  inferInstanceAs (Decidable (_ ∧ _ ∧ ∀ a ∈ _, _))

@[simps]
def answer (s : MediaServer) (id : Nat) (r : Response) : MediaServer :=
  { s with answers := s.answers ++ [(id, r)] }

@[simps]
def endUpload (s : MediaServer) (id : Nat) (r : Response) : MediaServer :=
  { s with uploads := s.uploads.erase id, answers := s.answers ++ [(id, r)] }

@[simps]
def endDownload (s : MediaServer) (id : Nat) (r : Response) : MediaServer :=
  { s with downloads := s.downloads.erase id, answers := s.answers ++ [(id, r)] }

@[simps]
def setUpload (s : MediaServer) (id : Nat) (u : Upload) (disk : Disk Bytes) : MediaServer :=
  { s with uploads := s.uploads.insert id u, disk := disk }

@[simps]
def setDownload (s : MediaServer) (id : Nat) (d : Download) : MediaServer :=
  { s with downloads := s.downloads.insert id d }

variable (cfg : MediaConfig)

/-- A handler up to its first system call on the media directory; the lookup of a download is
part of it. -/
def handle (s : MediaServer) (id : Nat) : Request → MediaServer
  | .upload method token body =>
    match admitUpload cfg method token body with
    | .error r => s.answer id r
    | .ok data =>
      { s with
        uploads := s.uploads.insert id ⟨data, .received⟩
        received := s.received ++ [(id, data)] }
  | .download path token =>
    match admitDownload cfg path token with
    | .error r => s.answer id r
    | .ok name =>
      let s := { s with asked := s.asked ++ [(id, name)] }
      if name ∈ s.disk.names then s.setDownload id ⟨name, .found⟩ else s.answer id httpNotFound

def step (s : MediaServer) : MediaEvent → Option MediaServer
  | .request id r => if s.Fresh id then some (s.handle cfg id r) else none
  | .create id now =>
    match s.uploads.lookup id with
    | some ⟨data, .received⟩ =>
      let inode := s.disk.target (fileID cfg data)
      some { s.setUpload id ⟨data, .opened inode 0⟩ (s.disk.create (fileID cfg data) now) with
        openedBy := Function.update s.openedBy inode (some (id, data)) }
    | _ => none
  | .write id n now =>
    match s.uploads.lookup id with
    | some ⟨data, .opened inode position⟩ =>
      if position + n ≤ data.length then
        some (s.setUpload id ⟨data, .opened inode (position + n)⟩
          (s.disk.write inode position (slice data position n) now))
      else none
    | _ => none
  | .close id =>
    match s.uploads.lookup id with
    | some ⟨data, .opened _ position⟩ =>
      if position = data.length then some (s.endUpload id (uploadResponse (fileID cfg data)))
      else none
    | _ => none
  | .fail id =>
    if id ∈ s.uploads then some (s.endUpload id writeFailed) else none
  | .openFile id ok =>
    match s.downloads.lookup id with
    | some ⟨name, .found⟩ =>
      match s.disk.names.lookup name, ok with
      | none, _ => some (s.endDownload id httpNotFound)
      | some _, false =>
        some (s.endDownload id (httpError (lit "500 Internal Server Error") 500))
      | some i, true =>
        some (s.setDownload id ⟨name, .opened i (s.disk.inodes i).data.length []⟩)
    | _ => none
  | .read id n =>
    match s.downloads.lookup id with
    | some ⟨name, .opened i size got⟩ =>
      let more := slice (s.disk.inodes i).data got.length (min n (size - got.length))
      some (s.setDownload id ⟨name, .opened i size (got ++ more)⟩)
    | _ => none
  | .reply id =>
    match s.downloads.lookup id with
    | some ⟨_, .opened _ size got⟩ => some (s.endDownload id ⟨200, got, size⟩)
    | _ => none
  | .list names =>
    if s.cleaner = .looking [] ∧ names.Nodup ∧ ∀ name ∈ names, name ∈ s.disk.names then
      some { s with cleaner := .looking names }
    else none
  | .examine now =>
    match s.cleaner with
    | .looking (name :: rest) =>
      match s.disk.names.lookup name with
      | none => some { s with cleaner := .crashed }
      | some i =>
        if mediaRetention < now - (s.disk.inodes i).modTime then
          some { s with cleaner := .removing name rest }
        else some { s with cleaner := .looking rest }
    | _ => none
  | .remove ok =>
    match s.cleaner with
    | .removing name rest =>
      some { s with
        cleaner := .looking rest
        disk := if ok then s.disk.remove name else s.disk }
    | _ => none

/-! ## What a step can do -/

/-- The answer to a request that does not get past its checks. -/
def refusal : Request → Option Response
  | .upload method token body =>
    match admitUpload cfg method token body with
    | .error r => some r
    | .ok _ => none
  | .download path token =>
    match admitDownload cfg path token with
    | .error r => some r
    | .ok _ => none

inductive Step (s : MediaServer) : MediaEvent → MediaServer → Prop
  | refused {id : Nat} {r : Request} {resp : Response} (hfresh : s.Fresh id)
      (hr : refusal cfg r = some resp) : Step s (.request id r) (s.answer id resp)
  | received {id : Nat} {method token : Bytes} {body : RequestBody} {data : Bytes}
      (hfresh : s.Fresh id) (hr : admitUpload cfg method token body = .ok data) :
      Step s (.request id (.upload method token body))
        { s with
          uploads := s.uploads.insert id ⟨data, .received⟩
          received := s.received ++ [(id, data)] }
  | found {id : Nat} {path token name : Bytes} (hfresh : s.Fresh id)
      (hr : admitDownload cfg path token = .ok name) (hname : name ∈ s.disk.names) :
      Step s (.request id (.download path token))
        ({ s with asked := s.asked ++ [(id, name)] }.setDownload id ⟨name, .found⟩)
  | missing {id : Nat} {path token name : Bytes} (hfresh : s.Fresh id)
      (hr : admitDownload cfg path token = .ok name) (hname : name ∉ s.disk.names) :
      Step s (.request id (.download path token))
        ({ s with asked := s.asked ++ [(id, name)] }.answer id httpNotFound)
  | create {id : Nat} {now : Int} {data : Bytes}
      (hup : s.uploads.lookup id = some ⟨data, .received⟩) :
      Step s (.create id now)
        { s.setUpload id ⟨data, .opened (s.disk.target (fileID cfg data)) 0⟩
            (s.disk.create (fileID cfg data) now) with
          openedBy :=
            Function.update s.openedBy (s.disk.target (fileID cfg data)) (some (id, data)) }
  | write {id n : Nat} {now : Int} {data : Bytes} {inode position : Nat}
      (hup : s.uploads.lookup id = some ⟨data, .opened inode position⟩)
      (hfits : position + n ≤ data.length) :
      Step s (.write id n now) (s.setUpload id ⟨data, .opened inode (position + n)⟩
        (s.disk.write inode position (slice data position n) now))
  | close {id : Nat} {data : Bytes} {inode : Nat}
      (hup : s.uploads.lookup id = some ⟨data, .opened inode data.length⟩) :
      Step s (.close id) (s.endUpload id (uploadResponse (fileID cfg data)))
  | fail {id : Nat} (hup : id ∈ s.uploads) : Step s (.fail id) (s.endUpload id writeFailed)
  | gone {id : Nat} {ok : Bool} {name : Bytes} (hdown : s.downloads.lookup id = some ⟨name, .found⟩)
      (hname : s.disk.names.lookup name = none) :
      Step s (.openFile id ok) (s.endDownload id httpNotFound)
  | unreadable {id : Nat} {name : Bytes} {i : Nat}
      (hdown : s.downloads.lookup id = some ⟨name, .found⟩)
      (hname : s.disk.names.lookup name = some i) :
      Step s (.openFile id false)
        (s.endDownload id (httpError (lit "500 Internal Server Error") 500))
  | opened {id : Nat} {name : Bytes} {i : Nat}
      (hdown : s.downloads.lookup id = some ⟨name, .found⟩)
      (hname : s.disk.names.lookup name = some i) :
      Step s (.openFile id true)
        (s.setDownload id ⟨name, .opened i (s.disk.inodes i).data.length []⟩)
  | read {id n : Nat} {name : Bytes} {i size : Nat} {got : Bytes}
      (hdown : s.downloads.lookup id = some ⟨name, .opened i size got⟩) :
      Step s (.read id n) (s.setDownload id ⟨name, .opened i size (got ++
        slice (s.disk.inodes i).data got.length (min n (size - got.length)))⟩)
  | reply {id : Nat} {name : Bytes} {i size : Nat} {got : Bytes}
      (hdown : s.downloads.lookup id = some ⟨name, .opened i size got⟩) :
      Step s (.reply id) (s.endDownload id ⟨200, got, size⟩)
  | list {names : List Bytes} (hidle : s.cleaner = .looking []) (hnodup : names.Nodup)
      (hnames : ∀ name ∈ names, name ∈ s.disk.names) :
      Step s (.list names) { s with cleaner := .looking names }
  | crash {now : Int} {name : Bytes} {rest : List Bytes}
      (hlook : s.cleaner = .looking (name :: rest)) (hname : s.disk.names.lookup name = none) :
      Step s (.examine now) { s with cleaner := .crashed }
  | expired {now : Int} {name : Bytes} {rest : List Bytes} {i : Nat}
      (hlook : s.cleaner = .looking (name :: rest)) (hname : s.disk.names.lookup name = some i)
      (hold : mediaRetention < now - (s.disk.inodes i).modTime) :
      Step s (.examine now) { s with cleaner := .removing name rest }
  | young {now : Int} {name : Bytes} {rest : List Bytes} {i : Nat}
      (hlook : s.cleaner = .looking (name :: rest)) (hname : s.disk.names.lookup name = some i)
      (hyoung : ¬ mediaRetention < now - (s.disk.inodes i).modTime) :
      Step s (.examine now) { s with cleaner := .looking rest }
  | remove {ok : Bool} {name : Bytes} {rest : List Bytes}
      (hdoomed : s.cleaner = .removing name rest) :
      Step s (.remove ok)
        { s with
          cleaner := .looking rest
          disk := if ok then s.disk.remove name else s.disk }

variable {cfg} {s t : MediaServer}

private theorem handle_cases {id : Nat} {r : Request} (hfresh : s.Fresh id) :
    Step cfg s (.request id r) (s.handle cfg id r) := by
  cases r with
  | upload method token body =>
    cases hr : admitUpload cfg method token body with
    | error resp =>
      rw [show s.handle cfg id (.upload method token body) = s.answer id resp by
        simp only [handle, hr]]
      exact .refused hfresh (by simp only [refusal, hr])
    | ok data =>
      simp only [handle, hr]
      exact .received hfresh hr
  | download path token =>
    cases hr : admitDownload cfg path token with
    | error resp =>
      rw [show s.handle cfg id (.download path token) = s.answer id resp by
        simp only [handle, hr]]
      exact .refused hfresh (by simp only [refusal, hr])
    | ok name =>
      simp only [handle, hr]
      split
      next hname => exact .found hfresh hr hname
      next hname => exact .missing hfresh hr hname

theorem step_cases {e : MediaEvent} (h : s.step cfg e = some t) : Step cfg s e t := by
  cases e with
  | request id r =>
    simp only [step] at h
    split at h
    next hfresh =>
      obtain rfl := Option.some.inj h
      exact handle_cases hfresh
    next => cases h
  | create id now =>
    simp only [step] at h
    split at h
    next data hup =>
      obtain rfl := Option.some.inj h
      exact .create hup
    next => cases h
  | write id n now =>
    simp only [step] at h
    split at h
    next data inode position hup =>
      split at h
      next hfits =>
        obtain rfl := Option.some.inj h
        exact .write hup hfits
      next => cases h
    next => cases h
  | close id =>
    simp only [step] at h
    split at h
    next data inode position hup =>
      split at h
      next hfull =>
        obtain rfl := Option.some.inj h
        subst hfull
        exact .close hup
      next => cases h
    next => cases h
  | fail id =>
    simp only [step] at h
    split at h
    next hup =>
      obtain rfl := Option.some.inj h
      exact .fail hup
    next => cases h
  | openFile id ok =>
    simp only [step] at h
    split at h
    next name hdown =>
      split at h
      next hname =>
        obtain rfl := Option.some.inj h
        exact .gone hdown hname
      next i hname =>
        obtain rfl := Option.some.inj h
        exact .unreadable hdown hname
      next i hname =>
        obtain rfl := Option.some.inj h
        exact .opened hdown hname
    next => cases h
  | read id n =>
    simp only [step] at h
    split at h
    next name i size got hdown =>
      obtain rfl := Option.some.inj h
      exact .read hdown
    next => cases h
  | reply id =>
    simp only [step] at h
    split at h
    next name i size got hdown =>
      obtain rfl := Option.some.inj h
      exact .reply hdown
    next => cases h
  | list names =>
    simp only [step] at h
    split at h
    next hall =>
      obtain rfl := Option.some.inj h
      exact .list hall.1 hall.2.1 hall.2.2
    next => cases h
  | examine now =>
    simp only [step] at h
    split at h
    next name rest hlook =>
      split at h
      next hname =>
        obtain rfl := Option.some.inj h
        exact .crash hlook hname
      next i hname =>
        split at h
        next hold =>
          obtain rfl := Option.some.inj h
          exact .expired hlook hname hold
        next hyoung =>
          obtain rfl := Option.some.inj h
          exact .young hlook hname hyoung
    next => cases h
  | remove ok =>
    simp only [step] at h
    split at h
    next name rest hdoomed =>
      obtain rfl := Option.some.inj h
      exact .remove hdoomed
    next => cases h

end MediaServer

end VRGram.Relay
