import VRGram.Encoding.Labels
import VRGram.Lib.Dns
import VRGram.Store.Accounting

/-!
# The relay's DNS handler

The handler that `RunServer` registers: name routing, the POLL branch, chunk queries
and store requests. What the handler reads from its surroundings (the verdict of the
rate limiter for the sender's address, the clock, the outcome of the counter's
transaction, the iteration order of a map) comes with the request.
-/
namespace VRGram.Relay

open VRGram.Lib.Strings VRGram.Lib.Dns VRGram.Encoding VRGram.Store

set_option autoImplicit false

/-- The surroundings of one request. -/
structure Context where
  admitted : Bool
  now : Int
  commit : Bool
  hint : List MsgID

/-- `zoneClean`, after `RunServer` has made the zone fully qualified. -/
def zoneClean (zone : Bytes) : Bytes := trimSuffix (fqdn zone) (lit ".")

/-- The labels of a question in front of the zone; `none` outside the zone. -/
def questionLabels (zone qname : Bytes) : Option (List Bytes) :=
  let name := trimSuffix (fqdn qname) (lit ".")
  if hasSuffix name (zoneClean zone) = false then none
  else some (split dot (trimSuffix name (dot :: zoneClean zone)))

/-- One TXT string of a POLL answer: the id alone, or with its time stamp and number. -/
def pollRecord (s : ChunkStore) (id : MsgID) : Bytes :=
  match s.getMessageMeta id with
  | some (ts, seq) =>
    if ts > 0 then
      join 58 [b32 id.val, b32 (putUint64 (UInt64.ofInt ts)).val, b32 (putUint64 seq).val]
    else b32 id.val
  | none => b32 id.val

/-- The POLL branch, on the labels after the first. -/
def answerPoll (s : ChunkStore) (hint : List MsgID) : List Bytes → Msg
  | [] => .failure .formatError
  | peerHash :: _ => .txt ((s.listPeerMessages hint peerHash).map (pollRecord s))

/-- The branch for `TotalChunks == 0`. -/
def answerQuery (s : ChunkStore) (chunk : Chunk) : Msg :=
  match s.getChunk chunk.msgID chunk.chunkIdx with
  | none => .failure .nameError
  | some stored => .txt stored.bodyLabels

theorem answerQuery_found {s : ChunkStore} {chunk stored : Chunk}
    (h : s.getChunk chunk.msgID chunk.chunkIdx = some stored) :
    answerQuery s chunk = .txt stored.bodyLabels := by
  rw [answerQuery, h]

theorem answerQuery_missing {s : ChunkStore} {chunk : Chunk}
    (h : s.getChunk chunk.msgID chunk.chunkIdx = none) :
    answerQuery s chunk = .failure .nameError := by
  rw [answerQuery, h]

/-- The acknowledgement of a store request. -/
def acknowledge (chunk : Chunk) : Msg :=
  .txt [b32 chunk.msgID.val, b32 (be16 chunk.chunkIdx), lit "OK"]

/-- `Store`, then `SetMessageOwner` when the chunk names a recipient. -/
def acceptChunk (ctx : Context) (chunk : Chunk) (s : ChunkStore) : ChunkStore :=
  let stored := (s.store chunk ctx.now ctx.commit).2
  if chunk.recipientHash.length > 0 then
    stored.setMessageOwner chunk.msgID (b32 chunk.recipientHash)
  else stored

/-- What a question under the zone asks for. -/
inductive Query where
  | poll (args : List Bytes)
  | malformed
  | fetch (chunk : Chunk)
  | store (chunk : Chunk)

/-- The dispatch of the handler on the labels in front of the zone. -/
def classify (zone : Bytes) (labels : List Bytes) : Query :=
  match labels with
  | first :: args =>
    if first = lit "POLL" then .poll args
    else match decodeChunkFromLabels (labels ++ [zoneClean zone]) (zoneClean zone) with
      | .error _ => .malformed
      | .ok chunk => if chunk.totalChunks = 0 then .fetch chunk else .store chunk
  | [] => .malformed

def serve (ctx : Context) (s : ChunkStore) : Query → Msg × ChunkStore
  | .poll args => (answerPoll s ctx.hint args, s)
  | .malformed => (.failure .formatError, s)
  | .fetch chunk => (answerQuery s chunk, s)
  | .store chunk => (acknowledge chunk, acceptChunk ctx chunk s)

/-- The whole handler on the questions of a request. -/
def handleRequest (zone : Bytes) (ctx : Context) (question : List Bytes) (s : ChunkStore) :
    Msg × ChunkStore :=
  if ctx.admitted = false then (.failure .refused, s)
  else match question with
    | [] => (.failure .formatError, s)
    | qname :: _ =>
      match questionLabels zone qname with
      | none => (.failure .refused, s)
      | some labels => serve ctx s (classify zone labels)

/-! ## Names built by a client reach the handler as the same labels -/

/-- A zone that `fqdn` closes with a real dot. It excludes only zones that end in an
odd number of backslashes. -/
def ZoneOk (zone : Bytes) : Prop := isFqdn (fqdn zone) = true

instance (zone : Bytes) : Decidable (ZoneOk zone) := inferInstanceAs (Decidable (_ = true))

/-- Whatever stands in front of a zone arrives split at its dots. -/
theorem questionLabels_front (front : Bytes) {zone : Bytes} (hne : zone ≠ []) (hz : ZoneOk zone) :
    questionLabels zone (fqdn (front ++ dot :: zone)) = some (split dot front) := by
  have hlit : lit "." = [dot] := by decide
  obtain ⟨z, hzf⟩ := fqdn_eq_concat zone
  have hclean : zoneClean zone = z := by rw [zoneClean, hzf, hlit, trimSuffix_append]
  have hq : isFqdn (front ++ dot :: fqdn zone) = true := by
    rw [isFqdn_append_dot _ (by rw [hzf]; simp)]
    exact hz
  have hassoc : front ++ dot :: (z ++ [dot]) = (front ++ dot :: z) ++ [dot] := by simp
  have hsuffix : hasSuffix (front ++ dot :: z) z = true := by
    have hs := hasSuffix_append (front ++ [dot]) z
    rw [List.append_assoc, List.singleton_append] at hs
    exact hs
  rw [fqdn_append_dot _ hne]
  simp only [questionLabels]
  rw [fqdn_of_isFqdn hq, hclean, hzf, hlit, hassoc, trimSuffix_append, if_neg (by simp [hsuffix]),
    trimSuffix_append]

theorem questionLabels_questionName {labels : List Bytes} {zone : Bytes} (hz : ZoneOk zone)
    (h : PlainLabels labels) : questionLabels zone (questionName labels zone) = some labels := by
  have hsplit := split_join h.no_dot h.ne_nil
  rw [questionName, join_concat h.ne_nil]
  by_cases hzone : zone = []
  · -- For the empty zone the separator closes the name.
    subst hzone
    have hlit : lit "." = [dot] := by decide
    obtain ⟨pre, c, hj, hdot, hback⟩ := h.join_eq
    have hq : isFqdn (join dot labels ++ [dot]) = true := by
      rw [isFqdn_concat, hj]
      simp [hback]
    have hclean : zoneClean [] = [] := by decide
    simp only [questionLabels]
    rw [fqdn_of_isFqdn hq, fqdn_of_isFqdn hq, hlit, trimSuffix_append, hclean, if_neg, hj,
      trimSuffix_dot_of_ne hdot, ← hj, hsplit]
    simp [hasSuffix]
  · rw [questionLabels_front _ hzone hz, hsplit]

theorem plain_bodyLabels (c : Chunk) : PlainLabels c.bodyLabels where
  ne_nil := bodyLabels_ne_nil c
  no_dot := notMem_bodyLabels (by decide) c
  no_backslash := notMem_bodyLabels (by decide) c
  last := fun l hl => bodyLabels_all_ne_nil c l (List.mem_of_getLast? hl)

/-- The query a chunk's labels stand for. -/
def chunkQuery (c : Chunk) : Query := if c.totalChunks = 0 then .fetch c else .store c

theorem classify_bodyLabels {c : Chunk} (h : c.HashOk) (zone : Bytes) :
    classify zone c.bodyLabels = chunkQuery c := by
  obtain ⟨first, rest, hbody, hlen⟩ := bodyLabels_head h
  have hpoll : first ≠ lit "POLL" := by
    intro he
    have hfour : (lit "POLL").length = 4 := by decide
    rw [he, hfour] at hlen
    omega
  have hdecode : decodeChunkFromLabels (c.bodyLabels ++ [zoneClean zone]) (zoneClean zone) = .ok c :=
    decode_encodeToLabels h (zoneClean zone)
  rw [hbody] at hdecode ⊢
  simp only [classify, if_neg hpoll, hdecode, chunkQuery]

/-- The name of a chunk is answered as that chunk's query. -/
theorem handleRequest_chunk {c : Chunk} (h : c.HashOk) {zone : Bytes} (hz : ZoneOk zone)
    {ctx : Context} (hadm : ctx.admitted = true) (more : List Bytes) (s : ChunkStore) :
    handleRequest zone ctx (questionName c.bodyLabels zone :: more) s =
      serve ctx s (chunkQuery c) := by
  rw [handleRequest, if_neg (by simp [hadm])]
  simp only [questionLabels_questionName hz (plain_bodyLabels c), classify_bodyLabels h]

private theorem plain_poll {peerID : Bytes} (hne : peerID ≠ []) (hdot : dot ∉ peerID)
    (hback : backslash ∉ peerID) : PlainLabels [lit "POLL", peerID] := by
  have hd : dot ∉ lit "POLL" := by decide
  have hb : backslash ∉ lit "POLL" := by decide
  constructor
  · simp
  · simp [hd, hdot]
  · simp [hb, hback]
  · simpa using hne

/-- A POLL for a digest is answered with the records of that mailbox. -/
theorem handleRequest_poll {digest : Bytes} (hne : digest ≠ []) {zone : Bytes} (hz : ZoneOk zone)
    {ctx : Context} (hadm : ctx.admitted = true) (more : List Bytes) (s : ChunkStore) :
    handleRequest zone ctx (questionName [lit "POLL", b32 digest] zone :: more) s =
      (.txt ((s.listPeerMessages ctx.hint (b32 digest)).map (pollRecord s)), s) := by
  have hplain : PlainLabels [lit "POLL", b32 digest] :=
    plain_poll (b32_ne_nil hne) (Lib.Base32Hex.notMem_encode (by decide) digest)
      (Lib.Base32Hex.notMem_encode (by decide) digest)
  rw [handleRequest, if_neg (by simp [hadm])]
  simp only [questionLabels_questionName hz hplain]
  rfl

/-! ## A POLL at a relay of any zone -/

/-- A name keeps its front when it is made fully qualified and loses its final dot. -/
theorem name_front (front w : Bytes) :
    ∃ tail, trimSuffix (fqdn (fqdn (front ++ dot :: w))) (lit ".") = front ++ tail ∧
      (tail = [] ∨ ∃ r, tail = dot :: r) := by
  have hfqdn : ∀ v, ∃ v', fqdn (front ++ dot :: v) = front ++ dot :: v' := by
    intro v
    unfold fqdn
    split
    · exact ⟨v, rfl⟩
    · exact ⟨v ++ [dot], by simp⟩
  have hlit : lit "." = [dot] := by decide
  obtain ⟨v, hv⟩ := hfqdn w
  obtain ⟨u, hu⟩ := hfqdn v
  rw [hv, hu, hlit]
  rcases trimSuffix_cases (front ++ dot :: u) [dot] with hsame | hcut
  · exact ⟨dot :: u, hsame, Or.inr ⟨u, rfl⟩⟩
  · generalize trimSuffix (front ++ dot :: u) [dot] = cut at hcut
    rcases List.eq_nil_or_concat u with rfl | ⟨init, c, rfl⟩
    · exact ⟨[], by rw [List.append_nil]; exact List.append_cancel_right hcut, Or.inl rfl⟩
    · refine ⟨dot :: init, ?_, Or.inr ⟨init, rfl⟩⟩
      rw [List.concat_eq_append, ← List.cons_append, ← List.append_assoc] at hcut
      exact (List.append_inj' hcut rfl).1

/-- Whatever zone a relay serves, the name of a POLL is outside its zone, loses its second
label to the zone, or is read as a POLL for the peer that the client meant. -/
theorem questionLabels_poll (relayZone zone : Bytes) {peerID : Bytes} (hdot : dot ∉ peerID) :
    questionLabels relayZone (questionName [lit "POLL", peerID] zone) = none ∨
    questionLabels relayZone (questionName [lit "POLL", peerID] zone) = some [lit "POLL"] ∨
    ∃ more, questionLabels relayZone (questionName [lit "POLL", peerID] zone) =
      some (lit "POLL" :: peerID :: more) := by
  have hpoll : dot ∉ lit "POLL" := by decide
  have hjoin : join dot [lit "POLL", peerID] = lit "POLL" ++ dot :: peerID := by
    simp [join, List.intercalate]
  obtain ⟨tail, hname, htail⟩ := name_front (lit "POLL" ++ dot :: peerID) zone
  -- what is left of the name after the cut starts with the two labels
  have hlong : ∀ r, (r = [] ∨ ∃ r', r = dot :: r') →
      ∃ more, split dot ((lit "POLL" ++ dot :: peerID) ++ r) = lit "POLL" :: peerID :: more := by
    intro r hr
    rw [List.append_assoc, List.cons_append, split_append hpoll]
    rcases hr with rfl | ⟨r', rfl⟩
    · exact ⟨[], by rw [List.append_nil, split_of_notMem hdot]⟩
    · exact ⟨split dot r', by rw [split_append hdot]⟩
  rw [questionName, join_concat (by simp), hjoin]
  simp only [questionLabels, hname]
  split
  · exact Or.inl rfl
  rcases trimSuffix_cases ((lit "POLL" ++ dot :: peerID) ++ tail) (dot :: zoneClean relayZone) with
    hsame | hcut
  · obtain ⟨more, hsplit⟩ := hlong tail htail
    exact Or.inr (Or.inr ⟨more, by rw [hsame, hsplit]⟩)
  · generalize trimSuffix _ _ = body at hcut ⊢
    rcases List.append_eq_append_iff.mp hcut with ⟨a, hfront, hrest⟩ | ⟨c, hbody, hrest⟩
    · -- the zone reaches into the two labels
      cases a with
      | nil =>
        obtain ⟨more, hsplit⟩ := hlong [] (Or.inl rfl)
        rw [List.append_nil] at hfront hsplit
        exact Or.inr (Or.inr ⟨more, by rw [← hfront, hsplit]⟩)
      | cons x a =>
        have hx : x = dot := by
          rw [List.cons_append] at hrest
          exact (List.cons.inj hrest).1.symm
        subst hx
        have hsplit := congrArg (split dot) hfront
        rw [split_append hpoll, split_of_notMem hdot, split_append_split] at hsplit
        -- both sides of the cut have at least one label, so the first has one
        have hbody := split_ne_nil dot body
        have ha := split_ne_nil dot a
        cases hb : split dot body with
        | nil => exact absurd hb hbody
        | cons p ps =>
          rw [hb] at hsplit
          cases ps with
          | nil =>
            rw [List.singleton_append] at hsplit
            exact Or.inr (Or.inl (by rw [(List.cons.inj hsplit).1]))
          | cons q qs =>
            have hlen := congrArg List.length hsplit
            have hpos := List.length_pos_iff.mpr ha
            simp only [List.length_append, List.length_cons, List.length_nil] at hlen
            omega
    · obtain ⟨more, hsplit⟩ := hlong c (by
        rcases htail with rfl | ⟨r, rfl⟩
        · cases c with
          | nil => exact Or.inl rfl
          | cons x c => cases hrest
        · cases c with
          | nil => exact Or.inl rfl
          | cons x c => exact Or.inr ⟨c, by rw [(List.cons.inj hrest).1]⟩)
      exact Or.inr (Or.inr ⟨more, by rw [hbody, hsplit]⟩)

/-! ## The store request as critical sections -/

/-- The critical sections of a store request, in order. -/
def sections (ctx : Context) (chunk : Chunk) : List Action :=
  .store chunk ctx.now ctx.commit ::
    (if chunk.recipientHash.length > 0 then
      [.setMessageOwner chunk.msgID (b32 chunk.recipientHash)] else [])

/-- Undisturbed, the sections of a request do what the handler's branch does. -/
theorem run_sections (ctx : Context) (chunk : Chunk) (s : ChunkStore) :
    Lib.Machine.run Shared.step ⟨s, .idle⟩ (sections ctx chunk) =
      some ⟨acceptChunk ctx chunk s, .idle⟩ := by
  unfold sections acceptChunk
  by_cases h : chunk.recipientHash.length > 0
  · simp only [if_pos h]
    rfl
  · simp only [if_neg h]
    rfl

end VRGram.Relay
