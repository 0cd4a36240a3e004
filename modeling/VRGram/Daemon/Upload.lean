import VRGram.Daemon.Media

/-!
# The file that a stream uploads

The receive loop takes a chunk for a header as long as no chunk has named the transfer. A
header starts a new temporary file and its own data are not written when a peer is known,
so the data of such a chunk are lost.
-/
namespace VRGram.Client

open VRGram.Lib VRGram.Lib.Maps VRGram.Lib.Machine VRGram.Lib.Strings VRGram.Crypto VRGram.Encoding

set_option autoImplicit false

def StreamEvent.data : StreamEvent → Bytes
  | .recv r => r.chunk.data
  | _ => []

/-- The data of all chunks, in stream order. -/
def streamData (events : List StreamEvent) : Bytes := events.flatMap StreamEvent.data

/-- With the given id so far: a chunk that comes before the transfer has a name has no
data, and a later one is written completely. -/
def Lossless : Bytes → List StreamEvent → Prop
  | _, [] => True
  | id, .recv r :: rest =>
    (if id = [] then r.chunk.data = [] else r.chunk.data.length ≤ r.written) ∧
      Lossless (if id = [] then r.chunk.transferId else id) rest
  | id, _ :: rest => Lossless id rest

/-! ## After the loop -/

theorem run_returned {ctx : MediaContext} {s : MediaState} {c : MediaState × StreamPc}
    {result : Except MediaError SendMediaResponse} {events : List StreamEvent}
    (h : run (streamMachine ctx) (s, .returned result) events = some c) :
    events = [] ∧ c = (s, .returned result) := by
  cases events with
  | nil => exact ⟨rfl, (Option.some.inj h).symm⟩
  | cons e rest =>
    obtain ⟨c', hstep, -⟩ := run_cons.mp h
    cases streamStep_cases hstep

/-- What the rest of a successful call does to the uploads, from a state in which no chunk
is received any more. -/
structure Finishes (s t : MediaState) (events : List StreamEvent) (files : List Bytes) : Prop where
  uploads : t.uploads = s.uploads ++ files
  noData : streamData events = []
  lossless : ∀ id, Lossless id events

section Finish

variable {ctx : MediaContext} {s t : MediaState} {v : StreamVars} {events : List StreamEvent}
  {response : SendMediaResponse}

private theorem finishes_handed
    (h : run (streamMachine ctx) (s, .handed v) events = some (t, .returned (.ok response))) :
    Finishes s t events [] := by
  cases events with
  | nil => cases h
  | cons e rest =>
    obtain ⟨c, hstep, hrest⟩ := run_cons.mp h
    obtain ⟨s', pc'⟩ := c
    cases streamStep_cases hstep with
    | closed _ closes =>
      obtain ⟨rfl, heq⟩ := run_returned hrest
      obtain rfl := (Prod.mk.inj heq).1
      exact ⟨by simp, rfl, fun _ => trivial⟩

private theorem finishes_uploaded {info : Media.MediaMessage}
    (h : run (streamMachine ctx) (s, .uploaded v info) events =
      some (t, .returned (.ok response))) : Finishes s t events [] := by
  cases events with
  | nil => cases h
  | cons e rest =>
    obtain ⟨c, hstep, hrest⟩ := run_cons.mp h
    obtain ⟨s', pc'⟩ := c
    cases streamStep_cases hstep with
    | unsealed =>
      obtain ⟨-, heq⟩ := run_returned hrest
      cases heq
    | handed =>
      have hf := finishes_handed hrest
      exact ⟨hf.uploads, hf.noData, hf.lossless⟩

/-- The assembled file goes to the media server if there is a peer. -/
theorem finishes_assembled {file : Bytes}
    (h : run (streamMachine ctx) (s, .assembled v file) events =
      some (t, .returned (.ok response))) :
    Finishes s t events (if v.peerPubkey = [] then [] else [file]) := by
  cases events with
  | nil => cases h
  | cons e rest =>
    obtain ⟨c, hstep, hrest⟩ := run_cons.mp h
    obtain ⟨s', pc'⟩ := c
    cases streamStep_cases hstep with
    | unreadable =>
      obtain ⟨-, heq⟩ := run_returned hrest
      cases heq
    | noPeer _ _ relays x closes hpeer =>
      obtain ⟨rfl, heq⟩ := run_returned hrest
      obtain rfl := (Prod.mk.inj heq).1
      rw [if_pos hpeer]
      exact ⟨by simp, rfl, fun _ => trivial⟩
    | notUploaded =>
      obtain ⟨-, heq⟩ := run_returned hrest
      cases heq
    | uploaded _ _ relays x closes info hpeer hx =>
      have hf := finishes_uploaded hrest
      rw [if_neg hpeer]
      refine ⟨?_, hf.noData, hf.lossless⟩
      simpa using hf.uploads

end Finish

/-! ## The loop -/

private theorem headerOf_nil : headerOf [] = none := rfl

/-- A header without data keeps the peer; one with a peer starts an empty file. -/
theorem header_file (v : StreamVars) (r : Receipt) :
    ∃ file, (v.header r).tempFile = some file ∧ file.length ≤ r.chunk.data.length ∧
      ((v.header r).peerPubkey ≠ [] → file = []) := by
  simp only [StreamVars.header]
  split_ifs with hpeer
  · rw [write_eq]
    refine ⟨r.chunk.data.take r.written, rfl, ?_, fun hne => absurd hpeer hne⟩
    rw [List.length_take]
    exact Nat.min_le_right _ _
  · exact ⟨[], rfl, Nat.zero_le _, fun _ => rfl⟩

private theorem header_peerPubkey_nil {v : StreamVars} {r : Receipt} (h : r.chunk.data = []) :
    (v.header r).peerPubkey = v.peerPubkey := by
  have hread : (v.readHeader r.chunk).peerPubkey = v.peerPubkey := by
    simp only [StreamVars.readHeader, h, headerOf_nil]
  simp only [StreamVars.header]
  split_ifs
  · rw [write_eq]
    exact hread
  · exact hread

/-- What a successful call uploads, from a state in the loop with a file of which nothing
is lost yet (`file`): all of it if no chunk is lost, and else less. -/
structure Outcomes (v : StreamVars) (file : Bytes) (s t : MediaState) (events : List StreamEvent) :
    Prop where
  whole : Lossless v.transferID events →
    t.uploads = s.uploads ++ if v.peerPubkey = [] then [] else [file ++ streamData events]
  less : ¬ Lossless v.transferID events → t.uploads = s.uploads ∨
    ∃ g, t.uploads = s.uploads ++ [g] ∧ g.length < file.length + (streamData events).length

/-- Whatever happens later, no more is uploaded than the file has and the chunks bring. -/
theorem Outcomes.shorter {v : StreamVars} {file : Bytes} {s t : MediaState}
    {events : List StreamEvent} (h : Outcomes v file s t events) {n : Nat}
    (hless : v.peerPubkey ≠ [] → file.length < n) (hle : file.length ≤ n) :
    t.uploads = s.uploads ∨
      ∃ g, t.uploads = s.uploads ++ [g] ∧ g.length < n + (streamData events).length := by
  by_cases hl : Lossless v.transferID events
  · have hw := h.whole hl
    split_ifs at hw with hpeer
    · exact Or.inl (by simpa using hw)
    · refine Or.inr ⟨_, hw, ?_⟩
      have := hless hpeer
      rw [List.length_append]
      omega
  · rcases h.less hl with hnone | ⟨g, hg, hlen⟩
    · exact Or.inl hnone
    · exact Or.inr ⟨g, hg, by omega⟩

theorem streamData_recv (r : Receipt) (events : List StreamEvent) :
    streamData (.recv r :: events) = r.chunk.data ++ streamData events := rfl

theorem lossless_unnamed (r : Receipt) (events : List StreamEvent) :
    Lossless [] (.recv r :: events) ↔ r.chunk.data = [] ∧ Lossless r.chunk.transferId events :=
  Iff.rfl

theorem lossless_named {id : Bytes} (hid : id ≠ []) (r : Receipt) (events : List StreamEvent) :
    Lossless id (.recv r :: events) ↔
      r.chunk.data.length ≤ r.written ∧ Lossless id events := by
  rw [Lossless, if_neg hid, if_neg hid]

private theorem outcomes_header {s t : MediaState} {v : StreamVars} {r : Receipt}
    {file file' : Bytes}
    {events : List StreamEvent} (hid : v.transferID = []) (hempty : v.peerPubkey ≠ [] → file = [])
    (hlen : file'.length ≤ r.chunk.data.length)
    (hstart : (v.header r).peerPubkey ≠ [] → file' = [])
    (h : Outcomes (v.header r) file' (s.track v r) t events) :
    Outcomes v file s t (.recv r :: events) := by
  have hnil : r.chunk.data = [] → file' = [] := by
    intro hdata
    rw [hdata] at hlen
    exact List.eq_nil_of_length_eq_zero (Nat.le_zero.mp hlen)
  constructor
  · intro hl
    rw [hid, lossless_unnamed] at hl
    obtain ⟨hdata, hrest⟩ := hl
    have hw := h.whole (by rw [header_transferID]; exact hrest)
    rw [header_peerPubkey_nil hdata, hnil hdata] at hw
    rw [streamData_recv, hdata]
    split_ifs at hw ⊢ with hpeer
    · exact hw
    · rw [hempty hpeer]
      exact hw
  · intro hl
    rw [hid, lossless_unnamed] at hl
    rw [streamData_recv, List.length_append]
    by_cases hdata : r.chunk.data = []
    · have hrest : ¬ Lossless (v.header r).transferID events := by
        rw [header_transferID]
        exact fun hrest => hl ⟨hdata, hrest⟩
      rcases h.less hrest with hnone | ⟨g, hg, hlt⟩
      · exact Or.inl hnone
      · refine Or.inr ⟨g, hg, ?_⟩
        rw [hnil hdata, List.length_nil] at hlt
        omega
    · -- The data of this chunk are in no later file.
      have hpos : 0 < r.chunk.data.length := List.length_pos_of_ne_nil hdata
      have hshort := h.shorter (n := file.length + r.chunk.data.length) ?_ (by omega)
      · rw [← Nat.add_assoc]
        exact hshort
      · intro hpeer
        rw [hstart hpeer, List.length_nil]
        omega

private theorem append_peerPubkey (v : StreamVars) (r : Receipt) :
    (v.append r).peerPubkey = v.peerPubkey := by
  rw [StreamVars.append, write_eq]

private theorem outcomes_append {s t : MediaState} {v : StreamVars} {r : Receipt} {file : Bytes}
    {events : List StreamEvent} (hid : v.transferID ≠ []) {f : MediaTransfer → MediaTransfer}
    (h : Outcomes (v.append r) (file ++ r.chunk.data.take r.written) (s.modify v.transferID f) t
      events) : Outcomes v file s t (.recv r :: events) := by
  obtain ⟨hwhole, hless⟩ := id h
  rw [append_transferID, modify_uploads] at hwhole hless
  constructor
  · intro hl
    obtain ⟨hwritten, hrest⟩ := (lossless_named hid r events).mp hl
    have hw := hwhole hrest
    rw [append_peerPubkey, List.take_of_length_le hwritten, List.append_assoc] at hw
    exact hw
  · intro hl
    rw [lossless_named hid] at hl
    rw [streamData_recv, List.length_append, ← Nat.add_assoc]
    by_cases hwritten : r.chunk.data.length ≤ r.written
    · have hrest : ¬ Lossless v.transferID events := fun hrest => hl ⟨hwritten, hrest⟩
      rcases hless hrest with hnone | ⟨g, hg, hlt⟩
      · exact Or.inl hnone
      · refine Or.inr ⟨g, hg, ?_⟩
        rw [List.take_of_length_le hwritten, List.length_append] at hlt
        exact hlt
    · -- A short write is not made up for later.
      have htaken : (file ++ r.chunk.data.take r.written).length <
          file.length + r.chunk.data.length := by
        rw [List.length_append, List.length_take]
        omega
      have hshort := h.shorter (fun _ => htaken) (Nat.le_of_lt htaken)
      rw [modify_uploads] at hshort
      exact hshort

private theorem outcomes_assembled {ctx : MediaContext} {s t : MediaState} {v : StreamVars}
    {file : Bytes} {events : List StreamEvent} {response : SendMediaResponse}
    (h : run (streamMachine ctx) (s, .assembled v file) events =
      some (t, .returned (.ok response))) :
    Outcomes v file s t (.recvEOF :: events) := by
  have hf := finishes_assembled h
  constructor
  · intro _
    show t.uploads = s.uploads ++ if v.peerPubkey = [] then [] else [file ++ streamData events]
    rw [hf.noData, List.append_nil]
    exact hf.uploads
  · intro hl
    exact absurd (hf.lossless v.transferID) hl

/-- The induction follows the stream; a file that a later header replaces is empty. -/
theorem outcomes_of_run {ctx : MediaContext} {s t : MediaState} {v : StreamVars} {file : Bytes}
    {events : List StreamEvent} {response : SendMediaResponse} (hfile : v.tempFile = some file)
    (hempty : v.transferID = [] → v.peerPubkey ≠ [] → file = [])
    (h : run (streamMachine ctx) (s, .receiving v) events = some (t, .returned (.ok response))) :
    Outcomes v file s t events := by
  induction events generalizing s v file with
  | nil => cases h
  | cons e rest ih =>
    obtain ⟨c, hstep, hrest⟩ := run_cons.mp h
    obtain ⟨s', pc'⟩ := c
    cases streamStep_cases hstep with
    | header _ r hid htemp =>
      obtain ⟨file', hfile', hlen, hstart⟩ := header_file v r
      exact outcomes_header hid (hempty hid) hlen hstart (ih hfile' (fun _ => hstart) hrest)
    | append _ r hid hsize =>
      have hfile' : (v.append r).tempFile = some (file ++ r.chunk.data.take r.written) := by
        rw [append_tempFile, hfile]
        rfl
      refine outcomes_append hid (ih hfile' (fun hnone => ?_) hrest)
      rw [append_transferID] at hnone
      exact absurd hnone hid
    | assembled _ file' hfile' =>
      obtain rfl : file' = file := Option.some.inj (hfile'.symm.trans hfile)
      exact outcomes_assembled hrest
    | noData _ hnone =>
      rw [hfile] at hnone
      cases hnone
    | _ =>
      obtain ⟨-, heq⟩ := run_returned hrest
      cases heq

/-! ## When every byte is kept -/

private theorem header_peerPubkey_some {v : StreamVars} {r : Receipt} {h : UploadHeader}
    (hheader : headerOf r.chunk.data = some h) (hpeer : h.peerPubkey ≠ []) :
    (v.header r).peerPubkey = h.peerPubkey := by
  have hread : (v.readHeader r.chunk).peerPubkey = h.peerPubkey := by
    simp only [StreamVars.readHeader, hheader]
  simp only [StreamVars.header, hread, if_neg hpeer]

/-- After a header with a peer, a successful call uploads exactly the data of the chunks
that follow, if and only if none of them with data comes before the transfer has a name
and each is written completely. -/
theorem upload_exact_iff (ctx : MediaContext) (s : MediaState) (r : Receipt) (h : UploadHeader)
    (events : List StreamEvent) (t : MediaState) (response : SendMediaResponse)
    (hheader : headerOf r.chunk.data = some h) (hpeer : h.peerPubkey ≠ [])
    (hrun : run (streamMachine ctx) (s, .receiving .initial) (.recv r :: events) =
      some (t, .returned (.ok response))) :
    t.uploads = s.uploads ++ [streamData events] ↔ Lossless r.chunk.transferId events := by
  obtain ⟨c, hstep, hrest⟩ := run_cons.mp hrun
  obtain ⟨s', pc'⟩ := c
  have hpeer' : (StreamVars.initial.header r).peerPubkey ≠ [] := by
    rw [header_peerPubkey_some hheader hpeer]
    exact hpeer
  cases streamStep_cases hstep with
  | noTempFile =>
    obtain ⟨-, heq⟩ := run_returned hrest
    cases heq
  | header _ _ hid htemp =>
    obtain ⟨file, hfile, -, hstart⟩ := header_file .initial r
    obtain rfl : file = [] := hstart hpeer'
    have hout := outcomes_of_run hfile (fun _ _ => rfl) hrest
    obtain ⟨hwhole, hless⟩ := hout
    rw [header_transferID] at hwhole hless
    constructor
    · intro hup
      by_contra hl
      rcases hless hl with hnone | ⟨g, hg, hlt⟩
      · have hlen := congrArg List.length (hup.symm.trans hnone)
        simp [MediaState.track] at hlen
      · have heq : [streamData events] = [g] := List.append_cancel_left (hup.symm.trans hg)
        obtain rfl : streamData events = g := by simpa using heq
        simp at hlt
    · intro hl
      have hw := hwhole hl
      rw [if_neg hpeer', List.nil_append] at hw
      exact hw
  | tooLarge _ _ hid => exact absurd rfl hid
  | append _ _ hid => exact absurd rfl hid

/-- One chunk of one byte after the header, both under the same id. -/
def oneByteChunk (transferId : Bytes) : List StreamEvent :=
  [.recv (received transferId [7]), .recvEOF, .upload true [lit "relay"] answered true,
    .confirm 0 someNonce, .close true]

theorem upload_exact_iff_named : ∃ t response,
    run (streamMachine plainContext) (idleMedia, .receiving .initial)
      (.recv (received (lit "t") headerData) :: oneByteChunk (lit "t")) =
      some (t, .returned (.ok response)) ∧
    Lossless (lit "t") (oneByteChunk (lit "t")) ∧ t.uploads = [[7]] := by
  have hlossless : Lossless (lit "t") (oneByteChunk (lit "t")) := by
    refine (lossless_named (by decide) _ _).mpr ⟨Nat.le_refl 1, trivial⟩
  refine ⟨_, _, rfl, hlossless, ?_⟩
  exact (upload_exact_iff plainContext idleMedia (received (lit "t") headerData)
    ⟨(identityOf 2).pubkeyB64, [], []⟩ (oneByteChunk (lit "t")) _ _ (by decide +kernel)
    (by decide +kernel) rfl).mpr hlossless

/-- When the client leaves the transfer id empty, the byte is taken for another header and
the call succeeds with an empty file. -/
theorem unnamed_data_lost : ∃ t response,
    (headerOf headerData).map UploadHeader.peerPubkey = some (identityOf 2).pubkeyB64 ∧
    run (streamMachine plainContext) (idleMedia, .receiving .initial)
      (.recv (received [] headerData) :: oneByteChunk []) = some (t, .returned (.ok response)) ∧
    streamData (oneByteChunk []) = [7] ∧ t.uploads = [[]] := by
  refine ⟨_, _, ?_, rfl, rfl, rfl⟩
  decide +kernel

end VRGram.Client
