import Mathlib.Data.List.Sort
import VRGram.Daemon.Groups
import VRGram.Lib.Machine

/-!
# The offline queue

`OfflineQueue` is a table whose id column is `AUTOINCREMENT`. `SendMessage` and
`JoinViaCode` add a row when the engine fails, and one goroutine, `processQueue`, reads the
table at the start of each pass and sends what it read, message by message. The attempts it
has made are kept beside the table as a history.
-/
namespace VRGram.Client

open VRGram.Lib VRGram.Lib.Maps VRGram.Lib.Machine VRGram.Lib.Strings

set_option autoImplicit false

/-! ## The table -/

structure QueueRow where
  peerKey : Bytes
  ciphertext : Bytes
  createdAt : Int
  retries : Nat
  lastError : Option Bytes
  deriving DecidableEq

structure QueuedMessage where
  id : Nat
  peerKey : Bytes
  ciphertext : Bytes
  createdAt : Int
  retries : Nat
  deriving DecidableEq

/-- The rows by id, and the largest id given out so far. -/
structure OfflineQueue where
  rows : GoMap Nat QueueRow
  sequence : Nat
  numbered : ∀ id ∈ rows, id ≤ sequence

def newOfflineQueue : OfflineQueue where
  rows := ∅
  sequence := 0
  numbered := fun id h => absurd h (AList.notMem_empty id)

def OfflineQueue.enqueue (q : OfflineQueue) (peerKey ciphertext : Bytes) (now : Int) :
    OfflineQueue where
  rows := q.rows.insert (q.sequence + 1) ⟨peerKey, ciphertext, now, 0, none⟩
  sequence := q.sequence + 1
  numbered := by
    intro id h
    rcases (AList.mem_insert q.rows).mp h with rfl | h
    · exact Nat.le_refl _
    · exact Nat.le_succ_of_le (q.numbered id h)

def QueueRow.message (id : Nat) (row : QueueRow) : QueuedMessage :=
  ⟨id, row.peerKey, row.ciphertext, row.createdAt, row.retries⟩

/-- `ORDER BY created_at`; the order of rows of one second is left to the hint. -/
def OfflineQueue.pending (q : OfflineQueue) (hint : List Nat) : List QueuedMessage :=
  ((rangeOrder hint q.rows).filterMap
    (fun id => (q.rows.lookup id).map (QueueRow.message id))).insertionSort
    (fun a b => a.createdAt ≤ b.createdAt)

def QueueRow.fail (errMsg : Bytes) (row : QueueRow) : QueueRow :=
  { row with retries := row.retries + 1, lastError := some errMsg }

def OfflineQueue.markFailed (q : OfflineQueue) (id : Nat) (errMsg : Bytes) : OfflineQueue where
  rows :=
    match q.rows.lookup id with
    | none => q.rows
    | some row => q.rows.insert id (row.fail errMsg)
  sequence := q.sequence
  numbered := by
    intro j h
    cases hid : q.rows.lookup id with
    | none =>
      simp only [hid] at h
      exact q.numbered j h
    | some row =>
      simp only [hid] at h
      rcases (AList.mem_insert q.rows).mp h with rfl | h
      · exact q.numbered _ (mem_iff_lookup.mpr ⟨row, hid⟩)
      · exact q.numbered j h

def OfflineQueue.remove (q : OfflineQueue) (id : Nat) : OfflineQueue where
  rows := q.rows.erase id
  sequence := q.sequence
  numbered := fun j h => q.numbered j (AList.mem_erase.mp h).2

section Table

variable (q : OfflineQueue) (id j : Nat)

theorem OfflineQueue.lookup_enqueue (peerKey ciphertext : Bytes) (now : Int) :
    (q.enqueue peerKey ciphertext now).rows.lookup j =
      if j = q.sequence + 1 then some ⟨peerKey, ciphertext, now, 0, none⟩ else q.rows.lookup j :=
  lookup_insert_ite q.rows (q.sequence + 1) j _

theorem OfflineQueue.lookup_markFailed (errMsg : Bytes) :
    (q.markFailed id errMsg).rows.lookup j =
      if j = id then (q.rows.lookup id).map (QueueRow.fail errMsg) else q.rows.lookup j := by
  cases hid : q.rows.lookup id with
  | none =>
    simp only [OfflineQueue.markFailed, hid, Option.map_none]
    split_ifs with hj
    · rw [hj, hid]
    · rfl
  | some row =>
    simp only [OfflineQueue.markFailed, hid, Option.map_some]
    exact lookup_insert_ite q.rows id j _

theorem OfflineQueue.lookup_remove :
    (q.remove id).rows.lookup j = if j = id then none else q.rows.lookup j :=
  lookup_erase_ite q.rows id j

theorem OfflineQueue.lookup_of_sequence_lt {j : Nat} (h : q.sequence < j) :
    q.rows.lookup j = none := by
  rw [AList.lookup_eq_none]
  intro hmem
  have := q.numbered j hmem
  omega

theorem OfflineQueue.mem_pending (hint : List Nat) (msg : QueuedMessage) :
    msg ∈ q.pending hint ↔ ∃ row, q.rows.lookup msg.id = some row ∧ row.message msg.id = msg := by
  rw [OfflineQueue.pending, (List.perm_insertionSort _ _).mem_iff, List.mem_filterMap]
  constructor
  · rintro ⟨id, -, h⟩
    obtain ⟨row, hrow, rfl⟩ := Option.map_eq_some_iff.mp h
    exact ⟨row, hrow, rfl⟩
  · rintro ⟨row, hrow, hmsg⟩
    refine ⟨msg.id, (mem_rangeOrder hint q.rows msg.id).mpr (mem_iff_lookup.mpr ⟨row, hrow⟩), ?_⟩
    rw [hrow, Option.map_some, hmsg]

theorem OfflineQueue.pending_nodup (hint : List Nat) :
    ((q.pending hint).map QueuedMessage.id).Nodup := by
  have hids : (rangeOrder hint q.rows).filterMap
      (fun id => ((q.rows.lookup id).map (QueueRow.message id)).map QueuedMessage.id) =
      rangeOrder hint q.rows := by
    conv_rhs => rw [← List.filterMap_some (l := rangeOrder hint q.rows)]
    apply List.filterMap_congr
    intro id hid
    obtain ⟨row, hrow⟩ := mem_iff_lookup.mp ((mem_rangeOrder hint q.rows id).mp hid)
    rw [hrow]
    rfl
  rw [OfflineQueue.pending, ((List.perm_insertionSort _ _).map QueuedMessage.id).nodup_iff,
    List.map_filterMap, hids]
  exact rangeOrder_nodup hint q.rows

end Table

/-! ## The processor -/

def maxQueueRetries : Nat := 20

/-- A send that returned: the row it was for, what went to the engine, and its error. -/
structure Attempt where
  id : Nat
  sent : Outgoing
  err : Option Bytes
  deriving DecidableEq

/-- Where the goroutine is: asleep, at the head of its loop, in `engine.SendMessage`, or
back from it with the row still as it was. -/
inductive Processor where
  | sleeping
  | looping (rest : List QueuedMessage)
  | sending (msg : QueuedMessage) (rest : List QueuedMessage)
  | returned (msg : QueuedMessage) (rest : List QueuedMessage) (err : Option Bytes)

structure QueueState where
  queue : OfflineQueue
  processor : Processor
  attempts : List Attempt

/-- Other goroutines add rows at any moment; the processor takes its steps in turn. -/
inductive QueueEvent where
  | enqueue (peerKey ciphertext : Bytes) (now : Int)
  | readPending (hint : List Nat)
  | next
  | sendReturns (err : Option Bytes)
  | settle
  deriving DecidableEq

def QueueState.start : QueueState := ⟨newOfflineQueue, .sleeping, []⟩

def queueStep (s : QueueState) : QueueEvent → Option QueueState
  | .enqueue peerKey ciphertext now =>
    some { s with queue := s.queue.enqueue peerKey ciphertext now }
  | .readPending hint =>
    match s.processor with
    | .sleeping => some { s with processor := .looping (s.queue.pending hint) }
    | _ => none
  | .next =>
    match s.processor with
    | .looping [] => some { s with processor := .sleeping }
    | .looping (msg :: rest) =>
      -- decided by the retries the pass has read, not by those of the row
      if maxQueueRetries ≤ msg.retries then
        some { s with queue := s.queue.remove msg.id, processor := .looping rest }
      else some { s with processor := .sending msg rest }
    | _ => none
  | .sendReturns err =>
    match s.processor with
    | .sending msg rest =>
      some { s with
        processor := .returned msg rest err
        attempts := s.attempts ++ [⟨msg.id, ⟨msg.ciphertext, msg.peerKey⟩, err⟩] }
    | _ => none
  | .settle =>
    match s.processor with
    | .returned msg rest (some errMsg) =>
      some { s with queue := s.queue.markFailed msg.id errMsg, processor := .looping rest }
    | .returned msg rest none =>
      some { s with queue := s.queue.remove msg.id, processor := .looping rest }
    | _ => none

/-- The ways through a step of the processor. -/
inductive ProcessorStep (s : QueueState) : QueueState → Prop where
  | wakes (hint : List Nat) (h : s.processor = .sleeping) :
      ProcessorStep s { s with processor := .looping (s.queue.pending hint) }
  | ends (h : s.processor = .looping []) : ProcessorStep s { s with processor := .sleeping }
  | givesUp {msg : QueuedMessage} {rest : List QueuedMessage}
      (h : s.processor = .looping (msg :: rest)) (hmax : maxQueueRetries ≤ msg.retries) :
      ProcessorStep s { s with queue := s.queue.remove msg.id, processor := .looping rest }
  | sends {msg : QueuedMessage} {rest : List QueuedMessage}
      (h : s.processor = .looping (msg :: rest)) (hmax : msg.retries < maxQueueRetries) :
      ProcessorStep s { s with processor := .sending msg rest }
  | returns {msg : QueuedMessage} {rest : List QueuedMessage} (err : Option Bytes)
      (h : s.processor = .sending msg rest) :
      ProcessorStep s { s with
        processor := .returned msg rest err
        attempts := s.attempts ++ [⟨msg.id, ⟨msg.ciphertext, msg.peerKey⟩, err⟩] }
  | failed {msg : QueuedMessage} {rest : List QueuedMessage} {errMsg : Bytes}
      (h : s.processor = .returned msg rest (some errMsg)) :
      ProcessorStep s
        { s with queue := s.queue.markFailed msg.id errMsg, processor := .looping rest }
  | delivered {msg : QueuedMessage} {rest : List QueuedMessage}
      (h : s.processor = .returned msg rest none) :
      ProcessorStep s { s with queue := s.queue.remove msg.id, processor := .looping rest }

def QueueEvent.ofProcessor : QueueEvent → Bool
  | .enqueue _ _ _ => false
  | _ => true

theorem queueStep_processor {s t : QueueState} {e : QueueEvent} (he : e.ofProcessor = true)
    (h : queueStep s e = some t) : ProcessorStep s t := by
  cases e with
  | enqueue peerKey ciphertext now => cases he
  | readPending hint =>
    cases hp : s.processor with
    | sleeping =>
      simp only [queueStep, hp, Option.some.injEq] at h
      exact h ▸ .wakes hint hp
    | _ => simp only [queueStep, hp, reduceCtorEq] at h
  | next =>
    cases hp : s.processor with
    | looping rest =>
      cases rest with
      | nil =>
        simp only [queueStep, hp, Option.some.injEq] at h
        exact h ▸ .ends hp
      | cons msg rest =>
        simp only [queueStep, hp] at h
        by_cases hmax : maxQueueRetries ≤ msg.retries
        · rw [if_pos hmax, Option.some.injEq] at h
          exact h ▸ .givesUp hp hmax
        · rw [if_neg hmax, Option.some.injEq] at h
          exact h ▸ .sends hp (Nat.lt_of_not_le hmax)
    | _ => simp only [queueStep, hp, reduceCtorEq] at h
  | sendReturns err =>
    cases hp : s.processor with
    | sending msg rest =>
      simp only [queueStep, hp, Option.some.injEq] at h
      exact h ▸ .returns err hp
    | _ => simp only [queueStep, hp, reduceCtorEq] at h
  | settle =>
    cases hp : s.processor with
    | returned msg rest err =>
      cases err with
      | none =>
        simp only [queueStep, hp, Option.some.injEq] at h
        exact h ▸ .delivered hp
      | some errMsg =>
        simp only [queueStep, hp, Option.some.injEq] at h
        exact h ▸ .failed hp
    | _ => simp only [queueStep, hp, reduceCtorEq] at h

theorem queueStep_cases {s t : QueueState} {e : QueueEvent} (h : queueStep s e = some t) :
    (∃ peerKey ciphertext now, t = { s with queue := s.queue.enqueue peerKey ciphertext now }) ∨
      ProcessorStep s t := by
  cases e with
  | enqueue peerKey ciphertext now => exact Or.inl ⟨peerKey, ciphertext, now, (Option.some.inj h).symm⟩
  | _ => exact Or.inr (queueStep_processor rfl h)

/-! ## The history agrees with the table -/

/-- The messages of the pass that are still to be settled, the current one first. -/
def Processor.messages : Processor → List QueuedMessage
  | .sleeping => []
  | .looping rest => rest
  | .sending msg rest => msg :: rest
  | .returned msg rest _ => msg :: rest

/-- The message that the processor is in the middle of handling. -/
def Processor.handling : Processor → Option QueuedMessage
  | .sending msg _ => some msg
  | .returned msg _ _ => some msg
  | _ => none

def Processor.Handles (p : Processor) (id : Nat) : Prop := ∃ msg, p.handling = some msg ∧ msg.id = id

/-- Whether each send of the row, in turn, succeeded. -/
def QueueState.outcomes (s : QueueState) (id : Nat) : List Bool :=
  (s.attempts.filter (fun a => a.id = id)).map (fun a => a.err.isNone)

/-- A send of the row that returned and is not yet entered in the table. -/
def Processor.unsettled (id : Nat) : Processor → List Bool
  | .returned msg _ err => if msg.id = id then [err.isNone] else []
  | _ => []

/-- The row was in the table and no longer is. -/
def QueueState.Left (s : QueueState) (id : Nat) : Prop :=
  0 < id ∧ id ≤ s.queue.sequence ∧ id ∉ s.queue.rows

/-- The sends of a row that left: up to its first success, or as many failures as are allowed. -/
def Finished (outcomes : List Bool) : Prop :=
  outcomes = List.replicate maxQueueRetries false ∨
    ∃ k < maxQueueRetries, outcomes = List.replicate k false ++ [true]

structure Conserved (s : QueueState) : Prop where
  /-- What the pass has read of a row it has not settled is still what the row holds. -/
  current : ∀ msg ∈ s.processor.messages,
    ∃ row, s.queue.rows.lookup msg.id = some row ∧ row.message msg.id = msg
  distinct : (s.processor.messages.map QueuedMessage.id).Nodup
  handled : ∀ msg, s.processor.handling = some msg → msg.retries < maxQueueRetries
  bounded : ∀ id row, s.queue.rows.lookup id = some row → row.retries ≤ maxQueueRetries
  queued : ∀ id row, s.queue.rows.lookup id = some row →
    s.outcomes id = List.replicate row.retries false ++ s.processor.unsettled id
  left : ∀ id, s.Left id → Finished (s.outcomes id)
  fresh : ∀ id, s.queue.sequence < id → s.outcomes id = []

private theorem conserved_start : Conserved QueueState.start where
  current := fun _ h => nomatch h
  distinct := List.nodup_nil
  handled := fun _ h => nomatch h
  bounded := fun _ _ h => nomatch h
  queued := fun _ _ h => nomatch h
  left := fun _ h => absurd h.2.1 (Nat.not_le_of_lt h.1)
  fresh := fun _ _ => rfl

section Steps

variable {s : QueueState} {msg : QueuedMessage} {rest : List QueuedMessage}

private theorem unsettled_of_ne (h : s.processor.messages = msg :: rest) {id : Nat}
    (hid : id ≠ msg.id) :
    s.processor.unsettled id = [] := by
  cases hp : s.processor with
  | returned m r err =>
    rw [hp] at h
    obtain ⟨rfl, rfl⟩ := List.cons.inj h
    exact if_neg (Ne.symm hid)
  | _ => rfl

/-- A send that is not yet settled is of a row in the table. -/
theorem Conserved.unsettled_of_absent (h : Conserved s) {id : Nat}
    (hid : s.queue.rows.lookup id = none) : s.processor.unsettled id = [] := by
  cases hp : s.processor with
  | returned m r err =>
    have hm : m ∈ s.processor.messages := by rw [hp]; exact List.mem_cons_self
    obtain ⟨row, hrow, -⟩ := h.current m hm
    refine if_neg ?_
    rintro rfl
    rw [hid] at hrow
    cases hrow
  | _ => rfl

theorem Conserved.enqueue (h : Conserved s) (peerKey ciphertext : Bytes) (now : Int) :
    Conserved { s with queue := s.queue.enqueue peerKey ciphertext now } where
  current := by
    intro m hm
    obtain ⟨row, hrow, hmsg⟩ := h.current m hm
    refine ⟨row, ?_, hmsg⟩
    have hle : m.id ≤ s.queue.sequence := s.queue.numbered _ (mem_iff_lookup.mpr ⟨row, hrow⟩)
    rw [OfflineQueue.lookup_enqueue, if_neg (by omega), hrow]
  distinct := h.distinct
  handled := h.handled
  bounded := by
    intro id row hrow
    rw [OfflineQueue.lookup_enqueue] at hrow
    split_ifs at hrow with hid
    · obtain rfl := Option.some.inj hrow
      exact Nat.zero_le _
    · exact h.bounded id row hrow
  queued := by
    intro id row hrow
    rw [OfflineQueue.lookup_enqueue] at hrow
    split_ifs at hrow with hid
    · obtain rfl := Option.some.inj hrow
      have hlt : s.queue.sequence < id := by omega
      show s.outcomes id = [] ++ s.processor.unsettled id
      rw [h.fresh id hlt, h.unsettled_of_absent (s.queue.lookup_of_sequence_lt hlt)]
      rfl
    · exact h.queued id row hrow
  left := by
    rintro id ⟨hpos, hle, hnot⟩
    rw [← AList.lookup_eq_none, OfflineQueue.lookup_enqueue] at hnot
    split_ifs at hnot with hid
    have hle' : id ≤ s.queue.sequence + 1 := hle
    exact h.left id ⟨hpos, by omega, AList.lookup_eq_none.mp hnot⟩
  fresh := fun id hid => h.fresh id (Nat.lt_of_succ_lt hid)

/-- Settling the message at hand: no other row changes, and its own row, if it is still
there, counts the failures so far. -/
theorem Conserved.settle (h : Conserved s) (hm : s.processor.messages = msg :: rest)
    {q : OfflineQueue} (hseq : q.sequence = s.queue.sequence)
    (hother : ∀ id, id ≠ msg.id → q.rows.lookup id = s.queue.rows.lookup id)
    (hkept : ∀ row, q.rows.lookup msg.id = some row →
      row.retries ≤ maxQueueRetries ∧ s.outcomes msg.id = List.replicate row.retries false)
    (hgone : q.rows.lookup msg.id = none → Finished (s.outcomes msg.id)) :
    Conserved { s with queue := q, processor := .looping rest } := by
  have hd := h.distinct
  rw [hm, List.map_cons, List.nodup_cons] at hd
  constructor
  case current =>
    intro m hrest
    have hne : m.id ≠ msg.id := fun he => hd.1 (he ▸ List.mem_map_of_mem hrest)
    obtain ⟨row, hrow, hmsg⟩ := h.current m (hm ▸ List.mem_cons_of_mem msg hrest)
    exact ⟨row, (hother m.id hne).trans hrow, hmsg⟩
  case distinct => exact hd.2
  case handled => exact fun _ hh => nomatch hh
  case bounded =>
    intro id row hrow
    by_cases hid : id = msg.id
    · exact (hkept row (hid ▸ hrow)).1
    · exact h.bounded id row ((hother id hid).symm.trans hrow)
  case queued =>
    intro id row hrow
    show s.outcomes id = List.replicate row.retries false ++ []
    rw [List.append_nil]
    by_cases hid : id = msg.id
    · rw [hid] at hrow ⊢
      exact (hkept row hrow).2
    · have hq := h.queued id row ((hother id hid).symm.trans hrow)
      rwa [unsettled_of_ne hm hid, List.append_nil] at hq
  case left =>
    rintro id ⟨hpos, hle, hnot⟩
    rw [← AList.lookup_eq_none] at hnot
    by_cases hid : id = msg.id
    · rw [hid] at hnot ⊢
      exact hgone hnot
    · rw [hother id hid, AList.lookup_eq_none] at hnot
      exact h.left id ⟨hpos, hseq ▸ hle, hnot⟩
  case fresh => exact fun id hid => h.fresh id (hseq ▸ hid)

theorem Conserved.remove (h : Conserved s) (hm : s.processor.messages = msg :: rest)
    (hfin : Finished (s.outcomes msg.id)) :
    Conserved { s with queue := s.queue.remove msg.id, processor := .looping rest } := by
  refine h.settle (q := s.queue.remove msg.id) hm rfl ?_ ?_ ?_
  · intro id hid
    rw [OfflineQueue.lookup_remove, if_neg hid]
  · intro row hrow
    rw [OfflineQueue.lookup_remove, if_pos rfl] at hrow
    cases hrow
  · exact fun _ => hfin

theorem Conserved.markFailed (h : Conserved s) {errMsg : Bytes}
    (hp : s.processor = .returned msg rest (some errMsg)) :
    Conserved { s with queue := s.queue.markFailed msg.id errMsg, processor := .looping rest } := by
  have hm : s.processor.messages = msg :: rest := by rw [hp]; rfl
  obtain ⟨row, hrow, hmsg⟩ := h.current msg (hm ▸ List.mem_cons_self)
  have hself : (s.queue.markFailed msg.id errMsg).rows.lookup msg.id = some (row.fail errMsg) := by
    rw [OfflineQueue.lookup_markFailed, if_pos rfl, hrow]
    rfl
  refine h.settle (q := s.queue.markFailed msg.id errMsg) hm rfl ?_ ?_ ?_
  · intro id hid
    rw [OfflineQueue.lookup_markFailed, if_neg hid]
  · intro r hr
    obtain rfl : row.fail errMsg = r := Option.some.inj (hself.symm.trans hr)
    have hretries : row.retries = msg.retries := by rw [← hmsg]; rfl
    have hlt : msg.retries < maxQueueRetries := h.handled msg (by rw [hp]; rfl)
    have hq := h.queued msg.id row hrow
    simp only [hp, Processor.unsettled, Option.isNone_some, if_true] at hq
    refine ⟨?_, ?_⟩
    · show row.retries + 1 ≤ maxQueueRetries
      omega
    · show s.outcomes msg.id = List.replicate (row.retries + 1) false
      rw [hq, List.replicate_succ']
  · intro hnone
    rw [hself] at hnone
    cases hnone

theorem outcomes_attempt (a : Attempt) (p : Processor) (id : Nat) :
    QueueState.outcomes { s with processor := p, attempts := s.attempts ++ [a] } id =
      s.outcomes id ++ if a.id = id then [a.err.isNone] else [] := by
  simp only [QueueState.outcomes, List.filter_append, List.map_append]
  by_cases hid : a.id = id <;> simp [hid]

theorem Conserved.returns (h : Conserved s) (hp : s.processor = .sending msg rest)
    (err : Option Bytes) (sent : Outgoing) :
    Conserved { s with
      processor := .returned msg rest err
      attempts := s.attempts ++ [⟨msg.id, sent, err⟩] } := by
  have hm : s.processor.messages = msg :: rest := by rw [hp]; rfl
  have hcurrent := h.current
  have hdistinct := h.distinct
  rw [hm] at hcurrent hdistinct
  obtain ⟨row, hrow, -⟩ := hcurrent msg List.mem_cons_self
  have hother : ∀ id, id ≠ msg.id → QueueState.outcomes { s with
      processor := .returned msg rest err
      attempts := s.attempts ++ [⟨msg.id, sent, err⟩] } id = s.outcomes id := by
    intro id hid
    rw [outcomes_attempt, if_neg (Ne.symm hid), List.append_nil]
  constructor
  case current => exact hcurrent
  case distinct => exact hdistinct
  case handled =>
    intro m hh
    obtain rfl : msg = m := Option.some.inj hh
    exact h.handled msg (by rw [hp]; rfl)
  case bounded => exact h.bounded
  case queued =>
    intro id r hr
    rw [outcomes_attempt, h.queued id r hr, hp]
    show (_ ++ []) ++ _ = _ ++ Processor.unsettled id (.returned msg rest err)
    rw [List.append_nil]
    rfl
  case left =>
    intro id hleft
    have hne : id ≠ msg.id := by
      rintro rfl
      exact hleft.2.2 (mem_iff_lookup.mpr ⟨row, hrow⟩)
    rw [hother id hne]
    exact h.left id hleft
  case fresh =>
    intro id hid
    have hne : id ≠ msg.id := by
      rintro rfl
      have := s.queue.numbered _ (mem_iff_lookup.mpr ⟨row, hrow⟩)
      have hid' : s.queue.sequence < msg.id := hid
      omega
    rw [hother id hne]
    exact h.fresh id hid

/-- A step that only moves the processor on, with no send to enter. -/
theorem Conserved.move (h : Conserved s) (hp : ∀ id, s.processor.unsettled id = [])
    {p : Processor} (hp' : ∀ id, p.unsettled id = [])
    (hcurrent : ∀ m ∈ p.messages,
      ∃ row, s.queue.rows.lookup m.id = some row ∧ row.message m.id = m)
    (hdistinct : (p.messages.map QueuedMessage.id).Nodup)
    (hhandled : ∀ m, p.handling = some m → m.retries < maxQueueRetries) :
    Conserved { s with processor := p } where
  current := hcurrent
  distinct := hdistinct
  handled := hhandled
  bounded := h.bounded
  queued := by
    intro id row hrow
    have hq := h.queued id row hrow
    rw [hp id] at hq
    rw [hp' id]
    exact hq
  left := h.left
  fresh := h.fresh

end Steps

theorem Conserved.processorStep {s t : QueueState} (h : Conserved s) (hst : ProcessorStep s t) :
    Conserved t := by
  cases hst with
  | wakes hint hp =>
    apply h.move
    · intro id; rw [hp]; rfl
    · intro id; rfl
    · exact fun m hm => (s.queue.mem_pending hint m).mp hm
    · exact s.queue.pending_nodup hint
    · exact fun _ hh => nomatch hh
  | ends hp =>
    apply h.move
    · intro id; rw [hp]; rfl
    · intro id; rfl
    · exact fun _ hm => nomatch hm
    · exact List.nodup_nil
    · exact fun _ hh => nomatch hh
  | @givesUp msg rest hp hmax =>
    have hm : s.processor.messages = msg :: rest := by rw [hp]; rfl
    apply h.remove hm
    obtain ⟨row, hrow, hmsg⟩ := h.current msg (hm ▸ List.mem_cons_self)
    have hretries : row.retries = msg.retries := by rw [← hmsg]; rfl
    have hle := h.bounded msg.id row hrow
    have hq := h.queued msg.id row hrow
    rw [hp] at hq
    refine Or.inl (hq.trans ?_)
    show List.replicate row.retries false ++ [] = _
    rw [List.append_nil, show row.retries = maxQueueRetries by omega]
  | @sends msg rest hp hmax =>
    have hcurrent := h.current
    have hdistinct := h.distinct
    rw [hp] at hcurrent hdistinct
    apply h.move
    · intro id; rw [hp]; rfl
    · intro id; rfl
    · exact hcurrent
    · exact hdistinct
    · intro m hh
      obtain rfl : msg = m := Option.some.inj hh
      exact hmax
  | returns err hp => exact h.returns hp err _
  | failed hp => exact h.markFailed hp
  | @delivered msg rest hp =>
    have hm : s.processor.messages = msg :: rest := by rw [hp]; rfl
    apply h.remove hm
    obtain ⟨row, hrow, hmsg⟩ := h.current msg (hm ▸ List.mem_cons_self)
    have hretries : row.retries = msg.retries := by rw [← hmsg]; rfl
    have hlt : msg.retries < maxQueueRetries := h.handled msg (by rw [hp]; rfl)
    have hq := h.queued msg.id row hrow
    simp only [hp, Processor.unsettled, Option.isNone_none, if_true] at hq
    exact Or.inr ⟨row.retries, by omega, hq⟩

theorem Conserved.step {s t : QueueState} {e : QueueEvent} (h : Conserved s)
    (hst : queueStep s e = some t) : Conserved t := by
  rcases queueStep_cases hst with ⟨peerKey, ciphertext, now, rfl⟩ | hst
  · exact h.enqueue peerKey ciphertext now
  · exact h.processorStep hst

/-- Every state of every run accounts for its sends. -/
theorem conserved_run {s : QueueState} {events : List QueueEvent}
    (h : run queueStep QueueState.start events = some s) : Conserved s :=
  run_invariant (fun _ _ _ => Conserved.step) conserved_start h

/-! ## Leaving the queue -/

theorem Conserved.row_of_handles {s : QueueState} (h : Conserved s) {id : Nat}
    (hid : s.processor.Handles id) : id ∈ s.queue.rows := by
  obtain ⟨msg, hmsg, rfl⟩ := hid
  have hm : msg ∈ s.processor.messages := by
    cases hp : s.processor with
    | sending m rest =>
      rw [hp] at hmsg
      obtain rfl := Option.some.inj hmsg
      exact List.mem_cons_self
    | returned m rest err =>
      rw [hp] at hmsg
      obtain rfl := Option.some.inj hmsg
      exact List.mem_cons_self
    | _ =>
      rw [hp] at hmsg
      cases hmsg
  obtain ⟨row, hrow, -⟩ := h.current msg hm
  exact mem_iff_lookup.mpr ⟨row, hrow⟩

/-- The attempts on one row, with what was sent. -/
def QueueState.attemptsOn (s : QueueState) (id : Nat) : List Attempt :=
  s.attempts.filter (fun a => a.id = id)

theorem ProcessorStep.rows {s t : QueueState} (h : ProcessorStep s t) {id : Nat}
    (hid : ∀ msg, s.processor.messages.head? = some msg → msg.id ≠ id) :
    t.queue.sequence = s.queue.sequence ∧
      t.queue.rows.lookup id = s.queue.rows.lookup id := by
  cases h with
  | givesUp hp _ =>
    have hne := hid _ (by rw [hp]; rfl)
    exact ⟨rfl, by rw [OfflineQueue.lookup_remove, if_neg (Ne.symm hne)]⟩
  | failed hp =>
    have hne := hid _ (by rw [hp]; rfl)
    exact ⟨rfl, by rw [OfflineQueue.lookup_markFailed, if_neg (Ne.symm hne)]⟩
  | delivered hp =>
    have hne := hid _ (by rw [hp]; rfl)
    exact ⟨rfl, by rw [OfflineQueue.lookup_remove, if_neg (Ne.symm hne)]⟩
  | _ => exact ⟨rfl, rfl⟩

/-- A row that has left stays away, and nothing is sent for it. -/
theorem Conserved.left_step {s t : QueueState} {e : QueueEvent} (h : Conserved s) {id : Nat}
    (hleft : s.Left id) (hst : queueStep s e = some t) :
    t.Left id ∧ t.attemptsOn id = s.attemptsOn id := by
  obtain ⟨hpos, hle, hnot⟩ := hleft
  rcases queueStep_cases hst with ⟨peerKey, ciphertext, now, rfl⟩ | hst
  · refine ⟨⟨hpos, Nat.le_succ_of_le hle, ?_⟩, rfl⟩
    rw [← AList.lookup_eq_none, OfflineQueue.lookup_enqueue, if_neg (by omega)]
    exact AList.lookup_eq_none.mpr hnot
  · have hid : ∀ msg, s.processor.messages.head? = some msg → msg.id ≠ id := by
      rintro msg hmsg rfl
      obtain ⟨row, hrow, -⟩ := h.current msg (List.mem_of_mem_head? hmsg)
      exact hnot (mem_iff_lookup.mpr ⟨row, hrow⟩)
    obtain ⟨hseq, hrows⟩ := hst.rows hid
    refine ⟨⟨hpos, hseq ▸ hle, ?_⟩, ?_⟩
    · rw [← AList.lookup_eq_none, hrows]
      exact AList.lookup_eq_none.mpr hnot
    · cases hst with
      | returns err hp =>
        have hne := hid _ (by rw [hp]; rfl)
        simp [QueueState.attemptsOn, hne]
      | _ => rfl

private theorem left_run {s t : QueueState} {events : List QueueEvent} (h : Conserved s) {id : Nat}
    (hleft : s.Left id) (hr : run queueStep s events = some t) :
    Conserved t ∧ t.Left id ∧ t.attemptsOn id = s.attemptsOn id := by
  let Inv : QueueState → Prop := fun u => Conserved u ∧ u.Left id ∧ u.attemptsOn id = s.attemptsOn id
  have hstep : ∀ u e v, Inv u → queueStep u e = some v → Inv v := by
    rintro u e v ⟨hu, hleft, hsame⟩ huv
    obtain ⟨hleft', hsame'⟩ := hu.left_step hleft huv
    exact ⟨hu.step huv, hleft', hsame'.trans hsame⟩
  exact run_invariant hstep (⟨h, hleft, rfl⟩ : Inv s) hr

/-- Conservation over whole runs: a row that is not being handled counts its failed sends and
has had no other; a row that left had its first success or all the failures it was allowed;
nothing is sent for it afterwards; and the processor changes the row at hand alone. -/
theorem offlineQueue_conserves {s : QueueState} {events : List QueueEvent}
    (h : run queueStep QueueState.start events = some s) :
    (∀ id row, s.queue.rows.lookup id = some row → ¬ s.processor.Handles id →
      s.outcomes id = List.replicate row.retries false) ∧
    (∀ id, s.Left id → Finished (s.outcomes id)) ∧
    (∀ id later t, s.Left id → run queueStep s later = some t →
      t.Left id ∧ ¬ t.processor.Handles id ∧ t.attemptsOn id = s.attemptsOn id) ∧
    (∀ e t id, e.ofProcessor = true → queueStep s e = some t →
      (∀ msg, s.processor.messages.head? = some msg → msg.id ≠ id) →
      t.queue.rows.lookup id = s.queue.rows.lookup id) := by
  have hc := conserved_run h
  refine ⟨?_, hc.left, ?_, ?_⟩
  · intro id row hrow hnot
    have hq := hc.queued id row hrow
    cases hp : s.processor with
    | returned msg rest err =>
      have hne : msg.id ≠ id := fun he => hnot ⟨msg, by rw [hp]; rfl, he⟩
      rwa [hp, Processor.unsettled, if_neg hne, List.append_nil] at hq
    | _ =>
      rw [hp] at hq
      exact hq.trans (List.append_nil _)
  · intro id later t hleft hr
    obtain ⟨ht, hleft', hsame⟩ := left_run hc hleft hr
    exact ⟨hleft', fun hh => hleft'.2.2 (ht.row_of_handles hh), hsame⟩
  · intro e t id he hst hid
    exact ((queueStep_processor he hst).rows hid).2

/-- Two rows, the first failing while a third is added, the second delivered. -/
def oneFailsOneArrives : List QueueEvent :=
  [.enqueue (lit "a") [1] 5, .enqueue (lit "b") [2] 5, .readPending [1, 2], .next,
    .sendReturns (some (lit "timeout")), .enqueue (lit "c") [3] 6, .settle, .next,
    .sendReturns none, .settle, .next]

theorem offlineQueue_conserves_oneFailsOneArrives :
    ∃ s, run queueStep QueueState.start oneFailsOneArrives = some s ∧
      (∃ row, s.queue.rows.lookup 1 = some row ∧ row.retries = 1 ∧ s.outcomes 1 = [false]) ∧
      s.Left 2 ∧ Finished (s.outcomes 2) := by
  have hrow : ∃ s, run queueStep QueueState.start oneFailsOneArrives = some s ∧
      (s.queue.rows.lookup 1).map QueueRow.retries = some 1 ∧ s.processor.handling = none ∧
      s.Left 2 := ⟨_, rfl, rfl, rfl, by decide, by decide, by decide⟩
  obtain ⟨s, hrun, hrow, hidle, hgone⟩ := hrow
  obtain ⟨row, hlookup, hretries⟩ := Option.map_eq_some_iff.mp hrow
  obtain ⟨hqueued, hleft, -, -⟩ := offlineQueue_conserves hrun
  refine ⟨s, hrun, ⟨row, hlookup, hretries, ?_⟩, hgone, hleft 2 hgone⟩
  have hfree : ¬ s.processor.Handles 1 := by
    rintro ⟨msg, hmsg, -⟩
    rw [hidle] at hmsg
    cases hmsg
  rw [hqueued 1 row hlookup hfree, hretries]
  rfl

end VRGram.Client
