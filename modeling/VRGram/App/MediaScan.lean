import VRGram.App.MessagePoll
import VRGram.Lib.Machine

/-!
# The media scanner and the daemon

For each received media message the daemon rewrites two files of one directory, first the sidecar
and then the body, and does so again if the message is delivered again. `receivedMediaProvider`
lists the directory and turns each body that it has not seen into a chat message, with what it
reads from the sidecar at that time.
-/
namespace VRGram.App

open VRGram.Lib VRGram.Lib.Maps VRGram.Lib.Strings VRGram.Lib.Machine VRGram.Lib.Rewriting
open VRGram.Client

set_option autoImplicit false

/-! ## The daemon -/

/-- A media message as `PollMessages` has it when it starts to write. -/
structure Delivery where
  msgID : Encoding.MsgID
  timestamp : Int64
  fromPeer : Bytes
  info : MediaMeta
  fileData : Option Bytes

def Delivery.name (del : Delivery) : Bytes :=
  hexEncode del.msgID.val ++ extensionOf del.info.mimeType

def sidecarOf (name : Bytes) : Bytes := name ++ lit ".meta"

def Delivery.sidecar (del : Delivery) : List (Bytes × Bytes) :=
  [(lit "filename", del.info.fileName), (lit "mime", del.info.mimeType),
    (lit "sender_pubkey", del.fromPeer), (lit "server_timestamp_ms", decimalInt del.timestamp.toInt),
    (lit "status", if del.fileData = none then lit "failed" else lit "complete")]

/-- A download that failed leaves an empty placeholder. -/
def Delivery.body (del : Delivery) : Bytes := del.fileData.getD []

inductive FileStep where
  | begun | sidecarOpened | sidecarWritten | bodyOpened | done
  deriving DecidableEq

structure Job where
  delivery : Delivery
  step : FileStep

abbrev Disk := GoMap Bytes (Content FileContent)

section

variable (size : FileContent → Nat)

def writeTo (files : Disk) (path : Bytes) (content : FileContent) : Disk :=
  files.insert path (((files.lookup path).getD .truncated).write size content)

/-- The next of the four steps of a delivery. -/
def Job.next (job : Job) (files : Disk) : Option (Disk × FileStep) :=
  let name := job.delivery.name
  match job.step with
  | .begun => some (files.insert (sidecarOf name) .truncated, .sidecarOpened)
  | .sidecarOpened =>
    some (writeTo size files (sidecarOf name) (.json job.delivery.sidecar), .sidecarWritten)
  | .sidecarWritten => some (files.insert name .truncated, .bodyOpened)
  | .bodyOpened => some (writeTo size files name (.raw job.delivery.body), .done)
  | .done => none

/-! ## The scanner -/

inductive Scanner where
  | idle
  | walking (queue : List Bytes)
  | reading (name : Bytes) (queue : List Bytes)

/-- The names that are still to be looked at. -/
def Scanner.queue : Scanner → List Bytes
  | .idle => []
  | .walking queue => queue
  | .reading _ queue => queue

structure Scan where
  files : Disk
  jobs : List Job
  seen : List Bytes
  scanner : Scanner

def Scan.hasSeen (s : Scan) (name : Bytes) : Bool := s.seen.any (fun path => path = name)

inductive ScanAction where
  | deliver (del : Delivery)
  | daemon (k : Nat)
  | list (hint : List Bytes)
  | check (modified : Int)
  | read (modified : Int)

def IsSidecar (name : Bytes) : Prop := lit ".meta" <:+ name

instance (name : Bytes) : Decidable (IsSidecar name) := inferInstanceAs (Decidable (_ <:+ _))

/-- The name without its extension; empty if there is no dot after the first character. -/
def stemOf (name : Bytes) : Bytes := ((name.reverse.dropWhile (· ≠ 46)).drop 1).reverse

def scanStep (s : Scan) : ScanAction → Option Scan
  | .deliver del => some { s with jobs := s.jobs ++ [⟨del, .begun⟩] }
  | .daemon k =>
    match s.jobs[k]? with
    | none => none
    | some job => (job.next size s.files).map (fun r =>
        { s with files := r.1, jobs := s.jobs.set k { job with step := r.2 } })
  | .list hint =>
    match s.scanner with
    | .idle => some { s with scanner := .walking (rangeOrder hint s.files) }
    | _ => none
  | .check _ =>
    match s.scanner with
    | .walking [] => some { s with scanner := .idle }
    | .walking (name :: queue) =>
      if IsSidecar name ∨ s.hasSeen name then some { s with scanner := .walking queue }
      else if stemOf name = [] ∨ sidecarOf name ∉ s.files then
        some { s with seen := name :: s.seen, scanner := .walking queue }
      else some { s with seen := name :: s.seen, scanner := .reading name queue }
    | _ => none
  | .read _ =>
    match s.scanner with
    | .reading _ queue => some { s with scanner := .walking queue }
    | _ => none

end

/-! ### What it adds -/

/-- A string that was read from a JSON text. -/
def jsonString (s : Bytes) : DartString :=
  ((Utf8.decode s).getD []).flatMap unitsOf

/-- `meta[key] as String?` -/
def rawField (members : List (Bytes × Bytes)) (key : Bytes) : Option Bytes :=
  (members.find? (fun m => m.1 = key)).map Prod.snd

def field (members : List (Bytes × Bytes)) (key : String) : Option DartString :=
  (rawField members (lit key)).map jsonString

/-- The members of a sidecar; one that does not decode leaves all defaults in place. -/
def membersIn : Option (Content FileContent) → List (Bytes × Bytes)
  | some (.whole (.json members)) => members
  | _ => []

/-- `int.tryParse` of a decimal number. -/
def tryParse : Bytes → Option Int
  | 45 :: digits => (Json.parseDigits digits).map (fun n => -(n : Int))
  | digits => (Json.parseDigits digits).map (fun n => (n : Int))

/-- The time of the relay; one out of range is an exception that is swallowed. -/
def sidecarStamp (members : List (Bytes × Bytes)) : Option Int :=
  match (rawField members (lit "server_timestamp_ms")).bind tryParse with
  | some ts => if ts > 0 then fromMilliseconds ts else none
  | none => none

def paperclip : DartString := [0xD83D, 0xDCCE]

/-- The message for a body, from the members of its sidecar. -/
def mediaMessage (dir : DartString) (modified : Int) (name : Bytes)
    (members : List (Bytes × Bytes)) : ChatMessage :=
  let filename := (field members "filename").getD (jsonString name)
  let isFailed := field members "status" = some (dart "failed")
  let serverTimestamp := sidecarStamp members
  { id := jsonString (stemOf name)
    text := if isFailed then paperclip ++ dart " " ++ filename ++ dart " (download failed)"
      else filename
    timestamp := serverTimestamp.getD modified
    isSent := false
    status := .received
    fromPeer := field members "sender_pubkey"
    toPeer := none
    mimeType := if isFailed then none
      else some ((field members "mime").getD (dart "application/octet-stream"))
    filename := some filename
    estimatedSeconds := none
    mediaMessageId := none
    localFilePath := if isFailed then none else some (dir ++ dart "/" ++ jsonString name)
    sequenceNumber := none
    serverTimestamp := serverTimestamp }

/-- The body and the message that an action adds to the chat. -/
def adds (dir : DartString) (s : Scan) : ScanAction → Option (Bytes × ChatMessage)
  | .check modified =>
    match s.scanner with
    | .walking (name :: _) =>
      if (IsSidecar name ∨ s.hasSeen name) ∨ stemOf name = [] ∨ sidecarOf name ∈ s.files then none
      else some (name, mediaMessage dir modified name [])
    | _ => none
  | .read modified =>
    match s.scanner with
    | .reading name _ =>
      some (name, mediaMessage dir modified name (membersIn (s.files.lookup (sidecarOf name))))
    | _ => none
  | _ => none

/-- The message has the mime type, the file name and the sender of the delivery's sidecar. -/
structure Shows (del : Delivery) (m : ChatMessage) : Prop where
  mimeType : m.mimeType = some (jsonString del.info.mimeType)
  filename : m.filename = some (jsonString del.info.fileName)
  fromPeer : m.fromPeer = some (jsonString del.fromPeer)

/-- What is added shows a delivery to that body. -/
def AddsShown (dir : DartString) (s : Scan) (a : ScanAction) : Prop :=
  ∀ name m, adds dir s a = some (name, m) →
    ∃ job ∈ s.jobs, job.delivery.name = name ∧ Shows job.delivery m

/-- A read finds a whole sidecar, and not that of a failed download. -/
def ReadsComplete (s : Scan) : ScanAction → Prop
  | .read _ => ∀ name queue, s.scanner = .reading name queue →
      ∃ members, s.files.lookup (sidecarOf name) = some (.whole (.json members)) ∧
        field members "status" ≠ some (dart "failed")
  | _ => True

/-! ## Names -/

theorem isSidecar_sidecarOf (name : Bytes) : IsSidecar (sidecarOf name) := List.suffix_append _ _

private theorem sidecarOf_inj {name name' : Bytes} (h : sidecarOf name = sidecarOf name') :
    name = name' :=
  List.append_cancel_right h

private theorem extensionOf_not_suffix (mimeType : Bytes) :
    (extensionOf mimeType).length = 4 ∧ ¬ extensionOf mimeType <:+ lit ".meta" := by
  unfold extensionOf
  split_ifs <;> decide +kernel

/-- A body is not taken for a sidecar. -/
theorem not_isSidecar_name (del : Delivery) : ¬ IsSidecar del.name := by
  intro h
  obtain ⟨hlen, hnot⟩ := extensionOf_not_suffix del.info.mimeType
  have hmeta : (lit ".meta").length = 5 := by decide +kernel
  refine hnot (List.suffix_of_suffix_length_le (List.suffix_append _ _) h ?_)
  omega

theorem name_ne_sidecarOf (del : Delivery) (name : Bytes) : del.name ≠ sidecarOf name := by
  intro h
  exact not_isSidecar_name del (h ▸ isSidecar_sidecarOf name)

/-! ## A delivery that is not disturbed -/

section

variable (size : FileContent → Nat)

/-- The delivery that `saveMedia` makes of a message. -/
def Delivery.of (env : Surroundings) (pm : PolledMessage) (fromPeer relay : Bytes)
    (info : MediaMeta) : Delivery where
  msgID := pm.msgID
  timestamp := pm.timestamp
  fromPeer := fromPeer
  info := info
  fileData := if info.fileID = [] then none else fetchMedia env relay info.fileID info.fileKeyB64

/-- The files after the four steps. -/
def Delivery.writeAll (del : Delivery) (files : Disk) : Disk :=
  let files := files.insert (sidecarOf del.name) .truncated
  let files := writeTo size files (sidecarOf del.name) (.json del.sidecar)
  let files := files.insert del.name .truncated
  writeTo size files del.name (.raw del.body)

theorem run_delivery (s : Scan) (del : Delivery) :
    run (scanStep size) s (.deliver del :: List.replicate 4 (.daemon s.jobs.length)) =
      some { s with files := del.writeAll size s.files, jobs := s.jobs ++ [⟨del, .done⟩] } := by
  have hjob : ∀ job : Job, (s.jobs ++ [job])[s.jobs.length]? = some job := by
    intro job
    rw [List.getElem?_append_right (Nat.le_refl _), Nat.sub_self]
    rfl
  have hset : ∀ job job' : Job, (s.jobs ++ [job]).set s.jobs.length job' = s.jobs ++ [job'] := by
    intro job job'
    rw [List.set_append_right _ _ (Nat.le_refl _), Nat.sub_self]
    rfl
  simp only [List.replicate, run, scanStep, Option.bind_some, hjob, Job.next, Option.map_some, hset]
  rfl

theorem lookup_writeTo_truncated (files : Disk) (path : Bytes) (content : FileContent) :
    (writeTo size (files.insert path .truncated) path content).lookup path =
      some (.whole content) := by
  rw [writeTo, AList.lookup_insert, AList.lookup_insert, Option.getD_some, Content.write_truncated]

/-- The four steps in a row leave what `saveMedia` writes. -/
theorem writeAll_saveMedia (d : Daemon) (env : Surroundings)
    (hwritable : ∀ path, env.writable path = true) (pm : PolledMessage) (fromPeer relay : Bytes)
    (info : MediaMeta) (files : Disk) :
    let del := Delivery.of env pm fromPeer relay info
    let saved := (d.saveMedia env pm fromPeer relay info).files
    let filePath := d.fileIn (lit "media_received") del.name
    (del.writeAll size files).lookup del.name = (saved.lookup filePath).map .whole ∧
    (del.writeAll size files).lookup (sidecarOf del.name) =
      (saved.lookup (sidecarOf filePath)).map .whole := by
  intro del saved filePath
  have hsaved : saved = (d.files.insert (sidecarOf filePath) (.json del.sidecar)).insert filePath
      (.raw del.body) := by
    simp only [saved, Daemon.saveMedia, Daemon.writeFile, hwritable, if_true]
    rfl
  have hother : sidecarOf filePath ≠ filePath := by
    intro h
    have hlen := congrArg List.length h
    rw [sidecarOf, List.length_append] at hlen
    have hmeta : (lit ".meta").length = 5 := by decide +kernel
    omega
  constructor
  · rw [hsaved, AList.lookup_insert, Delivery.writeAll, lookup_writeTo_truncated, Option.map_some]
  · have hne : sidecarOf del.name ≠ del.name := (name_ne_sidecarOf del del.name).symm
    rw [hsaved, lookup_insert_ite, if_neg hother, AList.lookup_insert, Delivery.writeAll, writeTo,
      AList.lookup_insert_ne hne, AList.lookup_insert_ne hne, lookup_writeTo_truncated,
      Option.map_some]

end

/-! ## What the daemon's steps keep -/

/-- Every body has a sidecar, those listed included, and a whole sidecar is that of a delivery. -/
structure Orderly (s : Scan) : Prop where
  bodies : ∀ name ∈ s.files, ¬ IsSidecar name → sidecarOf name ∈ s.files
  listed : ∀ name ∈ s.scanner.queue, ¬ IsSidecar name → sidecarOf name ∈ s.files
  opened : ∀ job ∈ s.jobs, job.step ≠ .begun → sidecarOf job.delivery.name ∈ s.files
  whole : ∀ name content, s.files.lookup (sidecarOf name) = some (.whole content) →
    ∃ job ∈ s.jobs, job.delivery.name = name ∧ content = .json job.delivery.sidecar

def scanStart : Scan := ⟨∅, [], [], .idle⟩

private theorem orderly_scanStart : Orderly scanStart where
  bodies := by
    intro name h
    exact absurd h (AList.notMem_empty name)
  listed := by
    intro name h
    cases h
  opened := by
    intro job h
    cases h
  whole := by
    intro name content h
    cases h

/-- What a step puts where: into the sidecar, or into the body when the sidecar is there. -/
def Job.Puts (job : Job) (path : Bytes) (content : Content FileContent) : Prop :=
  (path = sidecarOf job.delivery.name ∧ content.Within (fun c => c = .json job.delivery.sidecar)) ∨
    (path = job.delivery.name ∧ job.step ≠ .begun)

theorem Job.next_some {size : FileContent → Nat} {job : Job} {files files' : Disk} {step : FileStep}
    (h : job.next size files = some (files', step)) :
    ∃ path content, files' = files.insert path content ∧ job.Puts path content := by
  unfold Job.next at h
  dsimp only at h
  split at h
  next hstep =>
    obtain ⟨rfl, -⟩ := Prod.mk.inj (Option.some.inj h)
    exact ⟨_, _, rfl, Or.inl ⟨rfl, Content.within_truncated _⟩⟩
  next hstep =>
    obtain ⟨rfl, -⟩ := Prod.mk.inj (Option.some.inj h)
    have hwithin := Content.within_write (p := fun c => c = .json job.delivery.sidecar) size rfl
      ((files.lookup (sidecarOf job.delivery.name)).getD .truncated)
    exact ⟨_, _, rfl, Or.inl ⟨rfl, hwithin⟩⟩
  next hstep =>
    obtain ⟨rfl, -⟩ := Prod.mk.inj (Option.some.inj h)
    exact ⟨_, _, rfl, Or.inr ⟨rfl, hstep ▸ FileStep.noConfusion⟩⟩
  next hstep =>
    obtain ⟨rfl, -⟩ := Prod.mk.inj (Option.some.inj h)
    exact ⟨_, _, rfl, Or.inr ⟨rfl, hstep ▸ FileStep.noConfusion⟩⟩
  next => cases h

/-- Advancing a job keeps the deliveries. -/
theorem exists_delivery_set {jobs : List Job} {k : Nat} {job : Job} (hk : jobs[k]? = some job)
    (step : FileStep) {other : Job} (h : other ∈ jobs) :
    ∃ job' ∈ jobs.set k { job with step := step }, job'.delivery = other.delivery := by
  obtain ⟨i, hi⟩ := List.getElem?_of_mem h
  by_cases hik : k = i
  · subst hik
    obtain rfl := Option.some.inj (hk.symm.trans hi)
    refine ⟨_, List.mem_of_getElem? (List.getElem?_set_self ?_), rfl⟩
    exact (List.getElem?_eq_some_iff.mp hk).1
  · exact ⟨other, List.mem_of_getElem? ((List.getElem?_set_ne hik).trans hi), rfl⟩

theorem Orderly.put {s : Scan} (h : Orderly s) {k : Nat} {job : Job} (hk : s.jobs[k]? = some job)
    {path : Bytes} {content : Content FileContent} (hputs : job.Puts path content)
    (step : FileStep) :
    Orderly { s with
      files := s.files.insert path content
      jobs := s.jobs.set k { job with step := step } } := by
  have hjob := List.mem_of_getElem? hk
  have hkeep : ∀ n ∈ s.files, n ∈ s.files.insert path content :=
    fun n hn => (AList.mem_insert s.files).mpr (Or.inr hn)
  have hsidecar : sidecarOf job.delivery.name ∈ s.files.insert path content := by
    rcases hputs with ⟨rfl, -⟩ | ⟨-, hopen⟩
    · exact (AList.mem_insert s.files).mpr (Or.inl rfl)
    · exact hkeep _ (h.opened job hjob hopen)
  constructor
  · intro name hname hbody
    rcases (AList.mem_insert s.files).mp hname with rfl | hold
    · rcases hputs with ⟨rfl, -⟩ | ⟨rfl, -⟩
      · exact absurd (isSidecar_sidecarOf _) hbody
      · exact hsidecar
    · exact hkeep _ (h.bodies name hold hbody)
  · intro name hname hbody
    exact hkeep _ (h.listed name hname hbody)
  · intro job' hjob' hopen
    rcases List.mem_or_eq_of_mem_set hjob' with hold | rfl
    · exact hkeep _ (h.opened job' hold hopen)
    · exact hsidecar
  · intro name c hc
    have hlookup := lookup_insert_ite s.files path (sidecarOf name) content
    rw [hc] at hlookup
    split at hlookup
    next heq =>
      obtain rfl := Option.some.inj hlookup
      rcases hputs with ⟨hpath, hwithin⟩ | ⟨hpath, -⟩
      · obtain ⟨job', hjob', hdel⟩ := exists_delivery_set hk step hjob
        refine ⟨job', hjob', ?_, ?_⟩
        · rw [hdel]
          exact (sidecarOf_inj (heq.trans hpath)).symm
        · rw [hdel]
          exact hwithin
      · exact absurd (hpath.symm.trans heq.symm) (name_ne_sidecarOf _ _)
    next =>
      obtain ⟨other, hother, hname, hcontent⟩ := h.whole name c hlookup.symm
      obtain ⟨job', hjob', hdel⟩ := exists_delivery_set hk step hother
      exact ⟨job', hjob', by rw [hdel, hname], by rw [hdel, hcontent]⟩

/-! ## What the scanner's steps keep -/

/-- The scanner does not write; what it lists is there. -/
theorem Orderly.scan {s : Scan} (h : Orderly s) {seen : List Bytes} {scanner : Scanner}
    (hqueue : ∀ name ∈ scanner.queue, name ∈ s.scanner.queue ∨ name ∈ s.files) :
    Orderly { s with seen := seen, scanner := scanner } := by
  refine ⟨h.bodies, fun name hname hbody => ?_, h.opened, h.whole⟩
  rcases hqueue name hname with hold | hfile
  · exact h.listed name hold hbody
  · exact h.bodies name hfile hbody

theorem Orderly.deliver {s : Scan} (h : Orderly s) (del : Delivery) :
    Orderly { s with jobs := s.jobs ++ [⟨del, .begun⟩] } := by
  refine ⟨h.bodies, h.listed, fun job hjob hopen => ?_, fun name c hc => ?_⟩
  · rcases List.mem_append.mp hjob with hold | hnew
    · exact h.opened job hold hopen
    · obtain rfl := List.mem_singleton.mp hnew
      exact absurd rfl hopen
  · obtain ⟨job, hjob, hname⟩ := h.whole name c hc
    exact ⟨job, List.mem_append_left _ hjob, hname⟩

private theorem orderly_step (size : FileContent → Nat) (s : Scan) (a : ScanAction) (s' : Scan)
    (h : Orderly s) (hs : scanStep size s a = some s') : Orderly s' := by
  cases a with
  | deliver del =>
    obtain rfl := Option.some.inj hs
    exact h.deliver del
  | daemon k =>
    simp only [scanStep] at hs
    split at hs
    next => cases hs
    next job hk =>
      obtain ⟨⟨files', step⟩, hnext, rfl⟩ := Option.map_eq_some_iff.mp hs
      obtain ⟨path, content, rfl, hputs⟩ := Job.next_some hnext
      exact h.put hk hputs step
  | list hint =>
    simp only [scanStep] at hs
    split at hs
    next =>
      obtain rfl := Option.some.inj hs
      exact h.scan (fun name hname => Or.inr ((mem_rangeOrder _ _ _).mp hname))
    next => cases hs
  | check modified =>
    simp only [scanStep] at hs
    split at hs
    next =>
      obtain rfl := Option.some.inj hs
      exact h.scan (fun name hname => absurd hname List.not_mem_nil)
    next name queue hscanner =>
      have hrest : ∀ n ∈ queue, n ∈ s.scanner.queue ∨ n ∈ s.files := by
        intro n hn
        rw [hscanner]
        exact Or.inl (List.mem_cons_of_mem name hn)
      split at hs
      · obtain rfl := Option.some.inj hs
        exact h.scan hrest
      · split at hs
        · obtain rfl := Option.some.inj hs
          exact h.scan hrest
        · obtain rfl := Option.some.inj hs
          exact h.scan hrest
    next => cases hs
  | read modified =>
    simp only [scanStep] at hs
    split at hs
    next name queue hscanner =>
      obtain rfl := Option.some.inj hs
      refine h.scan (fun n hn => Or.inl ?_)
      rw [hscanner]
      exact hn
    next => cases hs

/-! ## What is added -/

private theorem field_sidecar (del : Delivery) :
    field del.sidecar "mime" = some (jsonString del.info.mimeType) ∧
    field del.sidecar "filename" = some (jsonString del.info.fileName) ∧
    field del.sidecar "sender_pubkey" = some (jsonString del.fromPeer) :=
  ⟨rfl, rfl, rfl⟩

/-- A check adds nothing, since every body that is listed has a sidecar. -/
theorem Orderly.check_adds {s : Scan} (h : Orderly s) (dir : DartString) (modified : Int) :
    adds dir s (.check modified) = none := by
  simp only [adds]
  split
  next name queue hscanner =>
    rw [if_pos]
    by_cases hbody : IsSidecar name
    · exact Or.inl (Or.inl hbody)
    · refine Or.inr (Or.inr (h.listed name ?_ hbody))
      rw [hscanner]
      exact List.mem_cons_self
  next => rfl

/-- What a read adds shows a delivery exactly if the sidecar is whole and not of a failed
download: otherwise the sender or the mime type is missing. -/
theorem Orderly.read_shows_iff {s : Scan} (h : Orderly s) (dir : DartString) (modified : Int)
    (name : Bytes) :
    (∃ job ∈ s.jobs, job.delivery.name = name ∧ Shows job.delivery
      (mediaMessage dir modified name (membersIn (s.files.lookup (sidecarOf name))))) ↔
    ∃ members, s.files.lookup (sidecarOf name) = some (.whole (.json members)) ∧
      field members "status" ≠ some (dart "failed") := by
  constructor
  · intro hshown
    obtain ⟨job, -, -, hshows⟩ := hshown
    have hsender : field (membersIn (s.files.lookup (sidecarOf name))) "sender_pubkey" =
        some (jsonString job.delivery.fromPeer) := hshows.fromPeer
    have hwhole : ∃ members, s.files.lookup (sidecarOf name) = some (.whole (.json members)) := by
      unfold membersIn at hsender
      split at hsender
      next members hc => exact ⟨members, hc⟩
      next => cases hsender
    obtain ⟨members, hc⟩ := hwhole
    refine ⟨members, hc, fun hfailed => ?_⟩
    have hmime := hshows.mimeType
    rw [hc] at hmime
    simp only [mediaMessage, membersIn, hfailed, if_true] at hmime
    cases hmime
  · intro hcomplete
    obtain ⟨members, hc, hstatus⟩ := hcomplete
    obtain ⟨job, hjob, hname, hcontent⟩ := h.whole name _ hc
    obtain rfl : members = job.delivery.sidecar := FileContent.json.inj hcontent
    obtain ⟨hmime, hfilename, hsender⟩ := field_sidecar job.delivery
    refine ⟨job, hjob, hname, ?_⟩
    rw [hc]
    constructor
    · simp only [mediaMessage, membersIn, if_neg hstatus, hmime, Option.getD_some]
    · simp only [mediaMessage, membersIn, hfilename, Option.getD_some]
    · simp only [mediaMessage, membersIn, hsender]

/-- Whatever the daemon and the scanner do in turn, every message that the scanner adds has the
mime type, file name and sender of a delivery to that body exactly if every read finds a whole
sidecar that is not of a failed download. -/
theorem scanner_shows_iff (size : FileContent → Nat) (dir : DartString)
    (actions : List ScanAction) :
    Meets (scanStep size) (AddsShown dir) scanStart actions ↔
      Meets (scanStep size) ReadsComplete scanStart actions := by
  refine meets_iff_of_invariant (fun s a h => ?_)
    (fun s a s' h _ hs => orderly_step size s a s' h hs) orderly_scanStart actions
  cases a with
  | check modified =>
    refine iff_of_true (fun name m hadds => ?_) trivial
    rw [h.check_adds] at hadds
    cases hadds
  | read modified =>
    cases hscanner : s.scanner with
    | reading name queue =>
      have hread := h.read_shows_iff dir modified name
      simp only [AddsShown, ReadsComplete, adds, hscanner, Option.some.injEq, Prod.mk.injEq,
        Scanner.reading.injEq]
      constructor
      · intro hshown name' queue' heq
        rw [← heq.1]
        exact hread.mp (hshown name _ ⟨rfl, rfl⟩)
      · intro hcomplete name' m heq
        rw [← heq.1, ← heq.2]
        exact hread.mpr (hcomplete name queue ⟨rfl, rfl⟩)
    | _ => simp [AddsShown, ReadsComplete, adds, hscanner]
  | _ =>
    refine iff_of_true (fun name m hadds => ?_) trivial
    cases hadds

/-! ### A message that is delivered again -/

def photo : Delivery where
  msgID := sixID
  timestamp := 5
  fromPeer := lit "peer"
  info := ⟨[], lit "image/jpeg", lit "cat.jpg", [7]⟩
  fileData := some [1, 2, 3]

def sizeOfContent : FileContent → Nat
  | .raw data => data.length
  | .json fields => (fields.map (fun f => f.1.length + f.2.length)).sum

/-- The photo is there when the directory is listed and the sidecar is found; then a second
delivery of it opens the sidecar before the scanner reads it. -/
def redelivered : List ScanAction :=
  [.deliver photo, .daemon 0, .daemon 0, .daemon 0, .daemon 0, .list [photo.name], .check 0,
    .deliver photo, .daemon 1]

theorem redelivered_hides :
    ((run (scanStep sizeOfContent) scanStart redelivered).bind
        (fun s => adds (dart "/data") s (.read 0))).map
      (fun r => (r.1, r.2.mimeType, r.2.filename, r.2.fromPeer)) =
    some (photo.name, some (dart "application/octet-stream"), some (jsonString photo.name), none) ∧
    jsonString photo.name ≠ dart "cat.jpg" := by
  refine ⟨by decide +kernel, by decide +kernel⟩

end VRGram.App
