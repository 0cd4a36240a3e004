import VRGram.App.ChatOps

/-!
# What the bubbles of sent messages show

`sendMessage`, `sendMediaProvider` and `startMediaStatusPolling` change the loaded chat list from
several asynchronous calls and timers at once. Every bubble shows what its own calls reported
last, whatever else goes on, and its status is final exactly if nothing under way concerns it.
There is one `_pollTimer` for all files, so that a file can lose its timer to another file. The ids
are version 4 UUIDs, which do not repeat.
-/
namespace VRGram.App

open VRGram.Lib VRGram.Lib.Machine

set_option autoImplicit false

/-! ## Entries -/

/-- The last part of `split`. -/
def lastPart (separator : UInt16) (s : DartString) : DartString :=
  (s.reverse.takeWhile (fun unit => unit != separator)).reverse

/-- `split('/').last.split('\\').last`. -/
def displayName (filePath : DartString) : DartString := lastPart 92 (lastPart 47 filePath)

/-- A call of `sendFile` that is under way. -/
structure Upload where
  msgId : DartString
  peerPubkey : DartString
  filePath : DartString
  mimeType : DartString
  deriving DecidableEq

/-- The entry of a text; the key of the peer has been sanitized. -/
def textMessage (msgId text : DartString) (now : Int) (pubkey : DartString) : ChatMessage where
  id := msgId
  text := text
  timestamp := now
  isSent := true
  status := .sent
  fromPeer := none
  toPeer := some pubkey
  mimeType := none
  filename := none
  estimatedSeconds := none
  mediaMessageId := none
  localFilePath := none
  sequenceNumber := none
  serverTimestamp := none

/-- The entry of a file that is being sent, before and after the daemon has accepted it. -/
def Upload.sendingMessage (u : Upload) (now : Int) (estimatedSeconds : Option Int)
    (mediaMessageId : Option DartString) : ChatMessage where
  id := u.msgId
  text := displayName u.filePath
  timestamp := now
  isSent := true
  status := .sending
  fromPeer := none
  toPeer := some u.peerPubkey
  mimeType := some u.mimeType
  filename := some (displayName u.filePath)
  estimatedSeconds := estimatedSeconds
  mediaMessageId := mediaMessageId
  localFilePath := none
  sequenceNumber := none
  serverTimestamp := none

/-- The entry of a file that could not be sent, with the error as its text. -/
def Upload.failedMessage (u : Upload) (now : Int) (error : DartString) : ChatMessage where
  id := u.msgId
  text := dart "Send failed: " ++ error
  timestamp := now
  isSent := true
  status := .failed
  fromPeer := none
  toPeer := some u.peerPubkey
  mimeType := none
  filename := some (displayName u.filePath)
  estimatedSeconds := none
  mediaMessageId := none
  localFilePath := none
  sequenceNumber := none
  serverTimestamp := none

/-! ## Calls and timers -/

/-- How the call of `SendMessage` ends; a time-out and an error do the same. -/
inductive TextAnswer where
  | queued | sent | failed
  deriving DecidableEq

def TextAnswer.status : TextAnswer → MessageStatus
  | .queued => .queued
  | .sent => .sent
  | .failed => .failed

/-- `MediaStatusResponse_Status`. -/
inductive MediaStatus where
  | queued | sending | arriving | complete | failed
  deriving DecidableEq

def protoStatusToMessage : MediaStatus → MessageStatus
  | .queued => .sending
  | .sending => .sending
  | .arriving => .sending
  | .complete => .sent
  | .failed => .failed

/-- The bubble and the transfer that a timer, or a question that it asked, is about. -/
structure StatusPoll where
  msgId : DartString
  mediaMessageId : DartString
  deriving DecidableEq

/-- The list, the texts that wait for an answer, those whose two minutes in the queue run, the
files that wait for an answer, `_pollTimer` while it is not cancelled, and the questions that its
ticks asked. -/
structure Outgoing where
  chat : Chat
  awaiting : List DartString
  delayed : List DartString
  uploads : List Upload
  pollTimer : Option StatusPoll
  asked : List StatusPoll
  deriving DecidableEq

inductive SendEvent where
  | sendText (msgId text : DartString) (now : Int) (pubkey : DartString)
  | textAnswered (msgId : DartString) (answer : TextAnswer)
  | textDelayed (msgId : DartString)
  | sendFile (u : Upload) (now : Int)
  | fileAccepted (u : Upload) (now : Int) (estimatedSeconds : Int) (mediaMessageId : DartString)
  | fileFailed (u : Upload) (now : Int) (error : DartString)
  | tick
  | statusAnswered (poll : StatusPoll) (status : MediaStatus) (progress : Double)
  | statusFailed (poll : StatusPoll)
  | received (msg : ChatMessage)

/-- The check after two minutes: the first entry with this id is in the queue. -/
def Chat.inQueue (c : Chat) (id : DartString) : Bool :=
  (c.messages.find? (fun m => m.id = id)).any (fun m => m.status = .queued)

/-- The operations that an event performs on the list. -/
def SendEvent.ops (c : Chat) : SendEvent → List ChatOp
  | .sendText msgId text now pubkey => [.add (textMessage msgId text now pubkey)]
  | .textAnswered msgId answer => [.updateStatus msgId answer.status]
  | .textDelayed msgId => if c.inQueue msgId then [.updateStatus msgId .failed] else []
  | .sendFile u now => [.add (u.sendingMessage now none none)]
  | .fileAccepted u now estimatedSeconds mediaMessageId =>
    [.updateMessage u.msgId (u.sendingMessage now (some estimatedSeconds) (some mediaMessageId))]
  | .fileFailed u now error => [.updateMessage u.msgId (u.failedMessage now error)]
  | .tick => []
  | .statusAnswered poll status progress =>
    [.updateMediaProgress poll.msgId progress,
      .updateStatus poll.msgId (protoStatusToMessage status)]
  | .statusFailed _ => []
  | .received msg => [.add msg]

/-- What an event does to the calls and timers; an answer needs a call that is under way. -/
def Outgoing.turn (s : Outgoing) : SendEvent → Option Outgoing
  | .sendText msgId _ _ _ =>
    if (ids s.chat.messages).contains msgId then none
    else some { s with awaiting := msgId :: s.awaiting }
  | .textAnswered msgId answer =>
    if s.awaiting.contains msgId then
      some { s with
        awaiting := s.awaiting.erase msgId
        delayed := if answer = .queued then msgId :: s.delayed else s.delayed }
    else none
  | .textDelayed msgId =>
    if s.delayed.contains msgId then some { s with delayed := s.delayed.erase msgId } else none
  | .sendFile u _ =>
    if (ids s.chat.messages).contains u.msgId then none
    else some { s with uploads := u :: s.uploads }
  | .fileAccepted u _ _ mediaMessageId =>
    -- the timer that runs is cancelled, whichever file it is about
    if s.uploads.contains u then
      some { s with uploads := s.uploads.erase u, pollTimer := some ⟨u.msgId, mediaMessageId⟩ }
    else none
  | .fileFailed u _ _ =>
    if s.uploads.contains u then some { s with uploads := s.uploads.erase u } else none
  | .tick => s.pollTimer.map (fun poll => { s with asked := poll :: s.asked })
  | .statusAnswered poll status _ =>
    -- here too: the timer of now, not the one that asked
    if s.asked.contains poll then
      some { s with
        asked := s.asked.erase poll
        pollTimer := if status = .complete ∨ status = .failed then none else s.pollTimer }
    else none
  | .statusFailed poll =>
    if s.asked.contains poll then some { s with asked := s.asked.erase poll } else none
  | .received _ => some s

section

variable (sort : List ChatMessage → List ChatMessage)

def Chat.performAll (c : Chat) (ops : List ChatOp) : Chat :=
  ops.foldl (fun c op => c.perform sort op) c

def outgoingStep (s : Outgoing) (e : SendEvent) : Option Outgoing :=
  (s.turn e).map (fun t => { t with chat := s.chat.performAll sort (e.ops s.chat) })

end

/-- The app with the list loaded and nothing under way. -/
def Outgoing.start (messages : List ChatMessage) : Outgoing :=
  ⟨⟨messages, true⟩, [], [], [], none, []⟩

/-! ## What a bubble ought to show -/

/-- The status with which an event adds a bubble. -/
def SendEvent.initial (id : DartString) : SendEvent → Option MessageStatus
  | .sendText msgId _ _ _ => if msgId = id then some .sent else none
  | .sendFile u _ => if u.msgId = id then some .sending else none
  | _ => none

/-- What an event makes of the status of a bubble. -/
def SendEvent.restate (id : DartString) (status : MessageStatus) : SendEvent → MessageStatus
  | .textAnswered msgId answer => if msgId = id then answer.status else status
  | .textDelayed msgId => if msgId = id ∧ status = .queued then .failed else status
  | .fileAccepted u _ _ _ => if u.msgId = id then .sending else status
  | .fileFailed u _ _ => if u.msgId = id then .failed else status
  | .statusAnswered poll answer _ =>
    if poll.msgId = id then protoStatusToMessage answer else status
  | _ => status

def SendEvent.report (id : DartString) (reported : Option MessageStatus) (e : SendEvent) :
    Option MessageStatus :=
  match reported with
  | some status => some (e.restate id status)
  | none => e.initial id

/-- What the calls for a bubble have reported, by the events alone. -/
def reported (id : DartString) (events : List SendEvent) : Option MessageStatus :=
  events.foldl (fun status e => e.report id status) none

/-- The bubble is in the list, with this status. -/
structure Chat.Shows (c : Chat) (id : DartString) (status : MessageStatus) : Prop where
  mem : id ∈ ids c.messages
  status_eq : ∀ m ∈ c.messages, m.id = id → m.status = status

/-- Nothing that is under way concerns the bubble. -/
structure Outgoing.Settled (s : Outgoing) (id : DartString) : Prop where
  answered : id ∉ s.awaiting
  undelayed : id ∈ s.delayed → s.chat.inQueue id = false
  uploaded : ∀ u ∈ s.uploads, u.msgId ≠ id
  unpolled : ∀ poll ∈ s.pollTimer, poll.msgId ≠ id
  unasked : ∀ poll ∈ s.asked, poll.msgId ≠ id

theorem Chat.Shows.unique {c : Chat} {id : DartString} {status status' : MessageStatus}
    (h : c.Shows id status) (h' : c.Shows id status') : status = status' := by
  obtain ⟨m, hm, hid⟩ := List.mem_map.mp h.mem
  rw [← h.status_eq m hm hid, h'.status_eq m hm hid]

theorem Chat.Shows.inQueue {c : Chat} {id : DartString} {status : MessageStatus}
    (h : c.Shows id status) : c.inQueue id = decide (status = .queued) := by
  unfold Chat.inQueue
  cases hfind : c.messages.find? (fun m => m.id = id) with
  | none =>
    obtain ⟨m, hm, hid⟩ := List.mem_map.mp h.mem
    have hnone := List.find?_eq_none.mp hfind m hm
    exact absurd (decide_eq_true hid) hnone
  | some m =>
    have hfound := List.find?_some hfind
    have hid : m.id = id := of_decide_eq_true hfound
    rw [Option.any_some, h.status_eq m (List.mem_of_find?_eq_some hfind) hid]

/-! ## Operations -/

/-- Entries are changed where they stand, by a change that keeps ids. -/
theorem Chat.Shows.changeEntries {c : Chat} {id target : DartString}
    {status status' : MessageStatus} {change : ChatMessage → ChatMessage}
    (h : c.Shows id status) (hid : ∀ m, m.id = target → (change m).id = target)
    (hchange : target = id → ∀ m, m.status = status → (change m).status = status')
    (hother : target ≠ id → status' = status) :
    Chat.Shows { c with messages := changeEntries c.messages target change } id status' := by
  refine ⟨(ids_changeEntries hid c.messages).symm ▸ h.mem, ?_⟩
  intro m hm hmid
  obtain ⟨old, hold, rfl⟩ := List.mem_map.mp hm
  by_cases htarget : old.id = target
  · rw [if_pos htarget] at hmid ⊢
    have hsame : target = id := (hid old htarget).symm.trans hmid
    exact hchange hsame old (h.status_eq old hold (htarget.trans hsame))
  · rw [if_neg htarget] at hmid ⊢
    rw [hother (fun hsame => htarget (hmid.trans hsame.symm))]
    exact h.status_eq old hold hmid

section Run

variable {sort : List ChatMessage → List ChatMessage} (hsort : ∀ l, (sort l).Perm l)
include hsort

/-- A message that is added leaves the other bubbles, and its own if it is known. -/
theorem Chat.Shows.add {c : Chat} {id : DartString} {status : MessageStatus}
    (h : c.Shows id status) (msg : ChatMessage) :
    (c.perform sort (.add msg)).Shows id status := by
  refine ⟨(mem_ids_addMessage hsort c.messages msg id).mpr (Or.inl h.mem), ?_⟩
  intro m hm hid
  simp only [Chat.perform] at hm
  by_cases hknown : msg.id ∈ ids c.messages
  · obtain ⟨front, existing, back, hsplit, hexisting, hfront⟩ := mem_ids_split hknown
    have hall := h.status_eq
    rw [hsplit] at hm hall
    rw [addMessage_known sort back hfront hexisting, List.mem_append, List.mem_cons] at hm
    rcases hm with hm | rfl | hm
    · exact hall m (List.mem_append_left _ hm) hid
    · exact hall existing (List.mem_append_right _ List.mem_cons_self) hid
    · exact hall m (List.mem_append_right _ (List.mem_cons_of_mem _ hm)) hid
  · rw [addMessage_of_fresh sort hknown, (hsort _).mem_iff, List.mem_append,
      List.mem_singleton] at hm
    rcases hm with hm | rfl
    · exact h.status_eq m hm hid
    · exact absurd (hid ▸ h.mem) hknown

theorem shows_new {c : Chat} (msg : ChatMessage) (hfresh : msg.id ∉ ids c.messages) :
    (c.perform sort (.add msg)).Shows msg.id msg.status := by
  refine ⟨(mem_ids_addMessage hsort c.messages msg msg.id).mpr (Or.inr rfl), ?_⟩
  intro m hm hid
  simp only [Chat.perform] at hm
  rw [addMessage_of_fresh sort hfresh, (hsort _).mem_iff, List.mem_append,
    List.mem_singleton] at hm
  rcases hm with hm | rfl
  · exact absurd (List.mem_map.mpr ⟨m, hm, hid⟩) hfresh
  · rfl

/-! ## Events -/

/-- A bubble that is there shows after an event what the event makes of its status. -/
theorem Chat.Shows.event {c : Chat} {id : DartString} {status : MessageStatus}
    (h : c.Shows id status) (e : SendEvent) :
    (c.performAll sort (e.ops c)).Shows id (e.restate id status) := by
  have hset : ∀ {c : Chat} {old : MessageStatus} (target : DartString) (new : MessageStatus),
      c.Shows id old → (c.perform sort (.updateStatus target new)).Shows id
        (if target = id then new else old) := by
    intro c old target new hold
    refine hold.changeEntries (fun _ hm => hm) (fun hsame m _ => ?_) (fun hne => if_neg hne)
    rw [if_pos hsame]
    rfl
  have hreplace : ∀ (target : DartString) (updated : ChatMessage), updated.id = target →
      (c.perform sort (.updateMessage target updated)).Shows id
        (if target = id then updated.status else status) := by
    intro target updated hid
    refine h.changeEntries (fun _ _ => hid) (fun hsame m _ => ?_) (fun hne => if_neg hne)
    rw [if_pos hsame]
  cases e with
  | sendText msgId text now pubkey => exact h.add hsort _
  | textAnswered msgId answer => exact hset msgId answer.status h
  | textDelayed msgId =>
    simp only [SendEvent.ops, SendEvent.restate]
    by_cases hsame : msgId = id
    · -- the check reads the status of this very bubble
      subst hsame
      rw [h.inQueue]
      by_cases hqueued : status = .queued
      · have hfailed := hset msgId .failed h
        rw [if_pos rfl] at hfailed
        rw [if_pos (decide_eq_true hqueued), if_pos ⟨rfl, hqueued⟩]
        exact hfailed
      · rw [if_neg (fun hd => hqueued (of_decide_eq_true hd)), if_neg (fun hb => hqueued hb.2)]
        exact h
    · have hkeep : (if msgId = id ∧ status = .queued then .failed else status) = status :=
        if_neg (fun hboth => hsame hboth.1)
      rw [hkeep]
      split
      next =>
        have hkept := hset msgId .failed h
        rw [if_neg hsame] at hkept
        exact hkept
      next => exact h
  | sendFile u now => exact h.add hsort _
  | fileAccepted u now estimatedSeconds mediaMessageId => exact hreplace u.msgId _ rfl
  | fileFailed u now error => exact hreplace u.msgId _ rfl
  | tick => exact h
  | statusAnswered poll answer progress =>
    have hprogress : (c.perform sort (.updateMediaProgress poll.msgId progress)).Shows id status :=
      h.changeEntries (fun _ hm => hm) (fun _ _ hm => hm) (fun _ => rfl)
    exact hset poll.msgId (protoStatusToMessage answer) hprogress
  | statusFailed poll => exact h
  | received msg => exact h.add hsort msg

omit hsort in
theorem outgoingStep_iff {s s' : Outgoing} {e : SendEvent} :
    outgoingStep sort s e = some s' ↔
      ∃ t, s.turn e = some t ∧
        { t with chat := s.chat.performAll sort (e.ops s.chat) } = s' := by
  rw [outgoingStep, Option.map_eq_some_iff]

omit hsort in
theorem outgoingStep_of_turn {s t : Outgoing} {e : SendEvent} (hturn : s.turn e = some t) :
    outgoingStep sort s e =
      some { t with chat := s.chat.performAll sort (e.ops s.chat) } := by
  rw [outgoingStep, hturn, Option.map_some]

theorem Chat.Shows.step {s s' : Outgoing} {e : SendEvent} {id : DartString}
    {status : MessageStatus} (h : s.chat.Shows id status)
    (hs : outgoingStep sort s e = some s') : s'.chat.Shows id (e.restate id status) := by
  obtain ⟨t, -, rfl⟩ := outgoingStep_iff.mp hs
  exact h.event hsort e

/-- A bubble that an event adds shows the status it is added with. -/
theorem shows_initial {s s' : Outgoing} {e : SendEvent} {id : DartString} {status : MessageStatus}
    (hs : outgoingStep sort s e = some s') (hinitial : e.initial id = some status) :
    s'.chat.Shows id status := by
  obtain ⟨t, hturn, rfl⟩ := outgoingStep_iff.mp hs
  have hfresh : ∀ {msgId : DartString} {u : Outgoing},
      (if (ids s.chat.messages).contains msgId then none else some u) = some t →
      msgId ∉ ids s.chat.messages := by
    intro msgId u hif hmem
    rw [if_pos (List.contains_iff_mem.mpr hmem)] at hif
    cases hif
  cases e with
  | sendText msgId text now pubkey =>
    simp only [SendEvent.initial, Option.ite_none_right_eq_some, Option.some.injEq] at hinitial
    obtain ⟨rfl, rfl⟩ := hinitial
    exact shows_new hsort (textMessage msgId text now pubkey) (hfresh hturn)
  | sendFile u now =>
    simp only [SendEvent.initial, Option.ite_none_right_eq_some, Option.some.injEq] at hinitial
    obtain ⟨rfl, rfl⟩ := hinitial
    exact shows_new hsort (u.sendingMessage now none none) (hfresh hturn)
  | _ => cases hinitial

/-- What was reported for a bubble is what it shows. -/
theorem shows_report {s s' : Outgoing} {e : SendEvent} {id : DartString}
    {before : Option MessageStatus} (h : ∀ status, before = some status → s.chat.Shows id status)
    (hs : outgoingStep sort s e = some s') :
    ∀ status, e.report id before = some status → s'.chat.Shows id status := by
  intro status hreport
  cases before with
  | none => exact shows_initial hsort hs hreport
  | some old =>
    obtain rfl := Option.some.inj hreport
    exact (h old rfl).step hsort hs

/-! ## Settled bubbles -/

omit hsort in
/-- Every event that changes the status of a bubble answers something that is under way. -/
theorem Outgoing.Settled.restate {s t : Outgoing} {e : SendEvent} {id : DartString}
    {status : MessageStatus} (h : s.Settled id) (hshows : s.chat.Shows id status)
    (hturn : s.turn e = some t) : e.restate id status = status := by
  cases e with
  | textAnswered msgId answer =>
    simp only [Outgoing.turn, Option.ite_none_right_eq_some, List.contains_iff_mem] at hturn
    refine if_neg ?_
    rintro rfl
    exact h.answered hturn.1
  | textDelayed msgId =>
    simp only [Outgoing.turn, Option.ite_none_right_eq_some, List.contains_iff_mem] at hturn
    refine if_neg ?_
    rintro ⟨rfl, rfl⟩
    have hqueue := h.undelayed hturn.1
    rw [hshows.inQueue] at hqueue
    cases hqueue
  | fileAccepted u now estimatedSeconds mediaMessageId =>
    simp only [Outgoing.turn, Option.ite_none_right_eq_some, List.contains_iff_mem] at hturn
    exact if_neg (h.uploaded u hturn.1)
  | fileFailed u now error =>
    simp only [Outgoing.turn, Option.ite_none_right_eq_some, List.contains_iff_mem] at hturn
    exact if_neg (h.uploaded u hturn.1)
  | statusAnswered poll answer progress =>
    simp only [Outgoing.turn, Option.ite_none_right_eq_some, List.contains_iff_mem] at hturn
    exact if_neg (h.unasked poll hturn.1)
  | _ => rfl

omit hsort in
/-- No event starts anything for a bubble that is there already. -/
theorem Outgoing.Settled.turn {s t : Outgoing} {e : SendEvent} {id : DartString} {c : Chat}
    (h : s.Settled id) (hmem : id ∈ ids s.chat.messages) (hqueue : c.inQueue id = s.chat.inQueue id)
    (hturn : s.turn e = some t) : Outgoing.Settled { t with chat := c } id := by
  have hdelayed : id ∈ s.delayed → c.inQueue id = false := by
    rw [hqueue]
    exact h.undelayed
  cases e with
  | sendText msgId text now pubkey =>
    simp only [Outgoing.turn, Option.ite_none_left_eq_some, List.contains_iff_mem,
      Option.some.injEq] at hturn
    obtain ⟨hfresh, rfl⟩ := hturn
    refine ⟨?_, hdelayed, h.uploaded, h.unpolled, h.unasked⟩
    rintro (_ | ⟨_, hawaiting⟩)
    · exact hfresh hmem
    · exact h.answered hawaiting
  | textAnswered msgId answer =>
    simp only [Outgoing.turn, Option.ite_none_right_eq_some, List.contains_iff_mem,
      Option.some.injEq] at hturn
    obtain ⟨hawaiting, rfl⟩ := hturn
    refine ⟨fun hid => h.answered (List.mem_of_mem_erase hid), fun hid => hdelayed ?_,
      h.uploaded, h.unpolled, h.unasked⟩
    -- only a text that was waiting for its answer is put on the two minutes
    have hne : id ≠ msgId := by
      rintro rfl
      exact h.answered hawaiting
    dsimp only at hid
    split at hid
    next => exact (List.mem_cons.mp hid).resolve_left hne
    next => exact hid
  | textDelayed msgId =>
    simp only [Outgoing.turn, Option.ite_none_right_eq_some, Option.some.injEq] at hturn
    obtain ⟨-, rfl⟩ := hturn
    exact ⟨h.answered, fun hid => hdelayed (List.mem_of_mem_erase hid), h.uploaded, h.unpolled,
      h.unasked⟩
  | sendFile u now =>
    simp only [Outgoing.turn, Option.ite_none_left_eq_some, List.contains_iff_mem,
      Option.some.injEq] at hturn
    obtain ⟨hfresh, rfl⟩ := hturn
    refine ⟨h.answered, hdelayed, ?_, h.unpolled, h.unasked⟩
    rintro v (_ | ⟨_, hv⟩)
    · rintro rfl
      exact hfresh hmem
    · exact h.uploaded v hv
  | fileAccepted u now estimatedSeconds mediaMessageId =>
    simp only [Outgoing.turn, Option.ite_none_right_eq_some, List.contains_iff_mem,
      Option.some.injEq] at hturn
    obtain ⟨hupload, rfl⟩ := hturn
    refine ⟨h.answered, hdelayed, fun v hv => h.uploaded v (List.mem_of_mem_erase hv), ?_,
      h.unasked⟩
    rintro poll ⟨⟩
    exact h.uploaded u hupload
  | fileFailed u now error =>
    simp only [Outgoing.turn, Option.ite_none_right_eq_some, Option.some.injEq] at hturn
    obtain ⟨-, rfl⟩ := hturn
    exact ⟨h.answered, hdelayed, fun v hv => h.uploaded v (List.mem_of_mem_erase hv), h.unpolled,
      h.unasked⟩
  | tick =>
    obtain ⟨poll, hpoll, rfl⟩ := Option.map_eq_some_iff.mp hturn
    refine ⟨h.answered, hdelayed, h.uploaded, h.unpolled, ?_⟩
    rintro question (_ | ⟨_, hquestion⟩)
    · exact h.unpolled poll hpoll
    · exact h.unasked question hquestion
  | statusAnswered poll answer progress =>
    simp only [Outgoing.turn, Option.ite_none_right_eq_some, Option.some.injEq] at hturn
    obtain ⟨-, rfl⟩ := hturn
    refine ⟨h.answered, hdelayed, h.uploaded, fun timer htimer => ?_,
      fun question hq => h.unasked question (List.mem_of_mem_erase hq)⟩
    dsimp only at htimer
    split at htimer
    next => cases htimer
    next => exact h.unpolled timer htimer
  | statusFailed poll =>
    simp only [Outgoing.turn, Option.ite_none_right_eq_some, Option.some.injEq] at hturn
    obtain ⟨-, rfl⟩ := hturn
    exact ⟨h.answered, hdelayed, h.uploaded, h.unpolled,
      fun question hq => h.unasked question (List.mem_of_mem_erase hq)⟩
  | received msg =>
    obtain rfl := Option.some.inj hturn
    exact ⟨h.answered, hdelayed, h.uploaded, h.unpolled, h.unasked⟩

/-- The bubble shows this status now and in every continuation. -/
def Final (sort : List ChatMessage → List ChatMessage) (s : Outgoing) (id : DartString)
    (status : MessageStatus) : Prop :=
  ∀ later t, run (outgoingStep sort) s later = some t → t.chat.Shows id status

private theorem final_of_settled {s : Outgoing} {id : DartString} {status : MessageStatus}
    (h : s.Settled id) (hshows : s.chat.Shows id status) : Final sort s id status := by
  intro later t hrun
  have hstep : ∀ (s : Outgoing) (e : SendEvent) (s' : Outgoing),
      s.Settled id ∧ s.chat.Shows id status → outgoingStep sort s e = some s' →
      s'.Settled id ∧ s'.chat.Shows id status := by
    rintro s e s' ⟨hsettled, hshows⟩ hs
    have hshows' := hshows.step hsort hs
    obtain ⟨t, hturn, rfl⟩ := outgoingStep_iff.mp hs
    rw [hsettled.restate hshows hturn] at hshows'
    refine ⟨hsettled.turn hshows.mem ?_ hturn, hshows'⟩
    rw [hshows.inQueue]
    exact hshows'.inQueue
  exact (run_invariant hstep ⟨h, hshows⟩ hrun).2

omit hsort in
theorem Final.shows {s : Outgoing} {id : DartString} {status : MessageStatus}
    (h : Final sort s id status) : s.chat.Shows id status :=
  h [] s (run_nil s)

omit hsort in
theorem Final.next {s s' : Outgoing} {e : SendEvent} {id : DartString} {status : MessageStatus}
    (h : Final sort s id status) (hs : outgoingStep sort s e = some s') :
    Final sort s' id status :=
  fun later t hrun => h (e :: later) t (run_cons.mpr ⟨s', hs, hrun⟩)

/-- An event that is possible does not change a final status. -/
theorem Final.restate {s t : Outgoing} {e : SendEvent} {id : DartString} {status : MessageStatus}
    (h : Final sort s id status) (hturn : s.turn e = some t) : e.restate id status = status := by
  have hs : outgoingStep sort s e =
      some { t with chat := s.chat.performAll sort (e.ops s.chat) } := outgoingStep_of_turn hturn
  exact (h.shows.step hsort hs).unique (h.next hs).shows

theorem Final.unasked {s : Outgoing} {id : DartString} {status : MessageStatus}
    (h : Final sort s id status) : ∀ poll ∈ s.asked, poll.msgId ≠ id := by
  rintro poll hpoll rfl
  have hany : ∀ answer, protoStatusToMessage answer = status := by
    intro answer
    have hrestate := h.restate hsort (e := .statusAnswered poll answer 0)
      (if_pos (List.contains_iff_mem.mpr hpoll))
    rwa [SendEvent.restate, if_pos rfl] at hrestate
  exact absurd ((hany .complete).trans (hany .failed).symm) (by decide)

/-- The converse: whatever is under way for a bubble can still change its status. -/
theorem settled_of_final {s : Outgoing} {id : DartString} {status : MessageStatus}
    (h : Final sort s id status) : s.Settled id where
  answered hawaiting := by
    have hany : ∀ answer : TextAnswer, answer.status = status := by
      intro answer
      have hrestate := h.restate hsort (e := .textAnswered id answer)
        (if_pos (List.contains_iff_mem.mpr hawaiting))
      rwa [SendEvent.restate, if_pos rfl] at hrestate
    exact absurd ((hany .sent).trans (hany .failed).symm) (by decide)
  undelayed hdelayed := by
    have hrestate := h.restate hsort (e := .textDelayed id)
      (if_pos (List.contains_iff_mem.mpr hdelayed))
    rw [h.shows.inQueue]
    refine decide_eq_false ?_
    rintro rfl
    rw [SendEvent.restate, if_pos ⟨rfl, rfl⟩] at hrestate
    cases hrestate
  uploaded := by
    rintro u hu rfl
    have haccepted := h.restate hsort (e := .fileAccepted u 0 0 [])
      (if_pos (List.contains_iff_mem.mpr hu))
    have hfailed := h.restate hsort (e := .fileFailed u 0 [])
      (if_pos (List.contains_iff_mem.mpr hu))
    rw [SendEvent.restate, if_pos rfl] at haccepted
    rw [SendEvent.restate, if_pos rfl] at hfailed
    exact absurd (haccepted.trans hfailed.symm) (by decide)
  unpolled := by
    intro poll hpoll
    -- the next tick asks, and the answer may be any
    have htick : s.turn .tick = some { s with asked := poll :: s.asked } :=
      Option.map_eq_some_iff.mpr ⟨poll, hpoll, rfl⟩
    have hnext := h.next (outgoingStep_of_turn htick)
    exact hnext.unasked hsort poll List.mem_cons_self
  unasked := h.unasked hsort

end Run

/-- In every run, whatever the order of the calls, answers and ticks: a bubble shows what its own
calls reported last, and its status is final exactly if nothing under way concerns it. -/
theorem bubble_final_iff (sort : List ChatMessage → List ChatMessage)
    (hsort : ∀ l, (sort l).Perm l) (messages : List ChatMessage) {events : List SendEvent}
    {s : Outgoing} (hrun : run (outgoingStep sort) (Outgoing.start messages) events = some s) :
    (∀ id status, reported id events = some status → s.chat.Shows id status) ∧
    ∀ id status, s.chat.Shows id status → (Final sort s id status ↔ s.Settled id) := by
  refine ⟨fun id => ?_, fun id status hshows => ?_⟩
  · have hstep : ∀ (s : Outgoing) (e : SendEvent) (s' : Outgoing) (before : Option MessageStatus),
        (∀ status, before = some status → s.chat.Shows id status) →
        outgoingStep sort s e = some s' →
        ∀ status, e.report id before = some status → s'.chat.Shows id status :=
      fun _ _ _ _ h hs => shows_report hsort h hs
    have hstart : ∀ status, (none : Option MessageStatus) = some status →
        (Outgoing.start messages).chat.Shows id status := nofun
    exact run_history hstep hstart hrun
  · exact ⟨settled_of_final hsort, fun h => final_of_settled hsort h hshows⟩

/-- The answer for the first file comes when the second is polled, and cancels its timer. -/
def crossedFiles : List SendEvent :=
  [.sendFile ⟨dart "a", dart "peer", dart "d/a.png", dart "image/png"⟩ 1,
    .fileAccepted ⟨dart "a", dart "peer", dart "d/a.png", dart "image/png"⟩ 2 9 (dart "ta"),
    .tick,
    .sendFile ⟨dart "b", dart "peer", dart "d/b.png", dart "image/png"⟩ 3,
    .fileAccepted ⟨dart "b", dart "peer", dart "d/b.png", dart "image/png"⟩ 4 9 (dart "tb"),
    .statusAnswered ⟨dart "a", dart "ta"⟩ .complete 0]

/-- The second file is shown as being sent for good, whatever becomes of it. -/
theorem bubble_final_iff_crossedFiles :
    ∃ s, run (outgoingStep byOrder) (Outgoing.start []) crossedFiles = some s ∧
      s.chat.Shows (dart "a") .sent ∧ Final byOrder s (dart "b") .sending := by
  obtain ⟨s, hs⟩ : ∃ s, run (outgoingStep byOrder) (Outgoing.start []) crossedFiles = some s :=
    Option.isSome_iff_exists.mp (by decide +kernel)
  obtain ⟨hshows, hfinal⟩ := bubble_final_iff byOrder (List.perm_insertionSort _) [] hs
  have hidle : (run (outgoingStep byOrder) (Outgoing.start []) crossedFiles).map
      (fun t => { t with chat := ⟨[], true⟩ }) = some (Outgoing.start []) := by decide +kernel
  rw [hs, Option.map_some, Option.some.injEq, Outgoing.start, Outgoing.mk.injEq] at hidle
  obtain ⟨-, hawaiting, hdelayed, huploads, htimer, hasked⟩ := hidle
  have hb := hshows (dart "b") .sending (by decide +kernel)
  refine ⟨s, hs, hshows (dart "a") .sent (by decide +kernel), (hfinal _ _ hb).mpr ?_⟩
  exact ⟨by simp [hawaiting], by simp [hdelayed], by simp [huploads], by simp [htimer],
    by simp [hasked]⟩

end VRGram.App
