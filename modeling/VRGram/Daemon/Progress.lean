import VRGram.Daemon.Cancellation

/-!
# The progress of a transfer

Any number of calls of `SendMedia` and `SendMediaStream`, interleaved with `CancelSend` and
`cleanupTransfers`. A stream reports a tenth of the number of its chunks, in 32 bits, and only the
bytes of a stream are limited. So what `GetMediaStatus` reports is a percentage exactly as long as
the chunks that are counted for a listed transfer are few enough.
-/
namespace VRGram.Client

open VRGram.Lib VRGram.Lib.Maps VRGram.Lib.Machine VRGram.Lib.Strings VRGram.Crypto VRGram.Encoding

set_option autoImplicit false

/-! ## Concurrent calls -/

/-- The daemon's transfers and the calls that have begun. -/
structure MediaCalls where
  state : MediaState
  senders : List Sender

inductive CallAction where
  | sendMedia (req : SendMediaRequest)
  | sendMediaStream
  | send (k : Nat) (e : SenderEvent)
  | stale (k : Nat) (e : SendMediaEvent)
  | cancelSend (messageId : Bytes)
  | cleanupTransfers (now : Int) (hint : List Bytes)

/-- A stale step of `SendMedia` writes through its pointer to a transfer that another call has
replaced in the map, where nobody sees it. -/
def MediaCalls.step (ctx : MediaContext) (calls : MediaCalls) : CallAction → Option MediaCalls
  | .sendMedia req => some { calls with senders := calls.senders ++ [.media req .start] }
  | .sendMediaStream =>
    some { calls with senders := calls.senders ++ [.stream (.receiving .initial)] }
  | .send k e =>
    match calls.senders[k]? with
    | some sender =>
      (sender.step ctx calls.state e).map (fun r => ⟨r.1, calls.senders.set k r.2⟩)
    | none => none
  | .stale k e =>
    match calls.senders[k]? with
    | some (.media _ .start) => none
    | some (.media req pc) =>
      (sendMediaStep ctx req calls.state pc e).map (fun r =>
        ⟨{ r.1 with transfers := calls.state.transfers }, calls.senders.set k (.media req r.2)⟩)
    | _ => none
  | .cancelSend messageId =>
    match calls.state.cancelSend messageId with
    | .ok state => some { calls with state := state }
    | .error _ => some calls
  | .cleanupTransfers now hint =>
    some { calls with state := calls.state.cleanupTransfers now hint }

/-- A daemon that has just started. -/
def newCalls (store : Option Media.TransferStore) : MediaCalls := ⟨⟨∅, store, [], [], []⟩, []⟩

/-! ## Percentages -/

def IsPercent (p : Int32) : Prop := 0 ≤ p ∧ p ≤ 100

instance (p : Int32) : Decidable (IsPercent p) := inferInstanceAs (Decidable (_ ∧ _))

/-- Whatever transfer is asked for, a percentage is reported. -/
def MediaCalls.ReportsPercent (calls : MediaCalls) : Prop :=
  ∀ messageId r, calls.state.getMediaStatus messageId = .ok r → IsPercent r.progressPct

/-- Hundred times the count, wrapped to 32 bits, is a percentage when it is divided by 1000. -/
def LowCount (n : Int32) : Prop :=
  -1000 < (n.toInt * 100).bmod (2 ^ 32) ∧ (n.toInt * 100).bmod (2 ^ 32) < 101000

instance (n : Int32) : Decidable (LowCount n) := inferInstanceAs (Decidable (_ ∧ _))

/-- The division rounds towards zero. -/
theorem tdiv_percent (x : Int) :
    (0 ≤ x.tdiv 1000 ↔ -1000 < x) ∧ (x.tdiv 1000 ≤ 100 ↔ x < 101000) := by
  rcases Int.le_total 0 x with h | h
  · rw [Int.tdiv_eq_ediv_of_nonneg h]
    omega
  · obtain ⟨y, rfl⟩ : ∃ y, x = -y := ⟨-x, by omega⟩
    rw [Int.neg_tdiv, Int.tdiv_eq_ediv_of_nonneg (by omega)]
    omega

private theorem isPercent_iff (n : Int32) : IsPercent (n * 100 / 1000) ↔ LowCount n := by
  have hmul : (n * 100).toInt = (n.toInt * 100).bmod (2 ^ 32) := Int32.toInt_mul n 100
  have hdiv : (n * 100 / 1000).toInt = (n * 100).toInt.tdiv 1000 :=
    Int32.toInt_div_of_ne_right _ _ (by decide)
  unfold IsPercent LowCount
  rw [Int32.le_iff_toInt_le, Int32.le_iff_toInt_le, hdiv, hmul]
  exact and_congr (tdiv_percent _).1 (tdiv_percent _).2

/-- Up to the first overflow, the limit is 1009 chunks. -/
theorem lowCount_iff {n : Int32} (hlow : 0 ≤ n.toInt) (hhigh : n.toInt ≤ 21474836) :
    LowCount n ↔ n.toInt ≤ 1009 := by
  have hsame : (n.toInt * 100).bmod (2 ^ 32) = n.toInt * 100 := by
    apply Int.bmod_eq_of_le
    · omega
    · omega
  unfold LowCount
  rw [hsame]
  omega

/-! ## What the writes do to the percentages -/

def MediaState.Percents (s : MediaState) : Prop :=
  ∀ id t, s.transfers.lookup id = some t → IsPercent t.progress

theorem reportsPercent_iff (calls : MediaCalls) : calls.ReportsPercent ↔ calls.state.Percents := by
  unfold MediaCalls.ReportsPercent MediaState.Percents MediaState.getMediaStatus
  constructor
  · intro h id t ht
    exact h id ⟨id, t.status.toProto, t.progress, t.error⟩ (by simp only [ht])
  · intro h id r hr
    cases ht : calls.state.transfers.lookup id with
    | none =>
      rw [ht] at hr
      cases hr
    | some t =>
      rw [ht] at hr
      obtain rfl := Except.ok.inj hr
      exact h id t ht

section Writes

variable {s : MediaState} (h : s.Percents)
include h

theorem MediaState.Percents.of_sub {s' : MediaState}
    (hsub : ∀ id t, s'.transfers.lookup id = some t → s.transfers.lookup id = some t) :
    s'.Percents :=
  fun id t ht => h id t (hsub id t ht)

theorem MediaState.Percents.register (id : Bytes) (created : Int) :
    (s.register id created).Percents := by
  intro j t ht
  rw [MediaState.register_transfers, lookup_insert_ite] at ht
  split at ht
  next =>
    obtain rfl := Option.some.inj ht
    exact (by decide : IsPercent 0)
  next => exact h j t ht

/-- A write to a listed transfer is all that counts. -/
theorem percents_modify (id : Bytes) (f : MediaTransfer → MediaTransfer) :
    (s.modify id f).Percents ↔
      ∀ t, s.transfers.lookup id = some t → IsPercent (f t).progress := by
  constructor
  · intro hafter t ht
    refine hafter id (f t) ?_
    rw [lookup_modify, if_pos rfl, ht, Option.map_some]
  · intro hf j t ht
    rw [lookup_modify] at ht
    split at ht
    next =>
      obtain ⟨t₀, ht₀, rfl⟩ := Option.map_eq_some_iff.mp ht
      exact hf t₀ ht₀
    next => exact h j t ht

/-- Every write but the count of a stream. -/
theorem MediaState.Percents.modify (id : Bytes) {f : MediaTransfer → MediaTransfer}
    (hf : ∀ t, IsPercent t.progress → IsPercent (f t).progress) : (s.modify id f).Percents :=
  (percents_modify h id f).mpr (fun t ht => hf t (h id t ht))

theorem MediaState.Percents.fail (id : Bytes) (e : MediaError) :
    (s.modify id (MediaTransfer.fail e)).Percents :=
  h.modify id (fun _ ht => ht)

/-- A fixed progress is written. -/
theorem MediaState.Percents.assign (id : Bytes) {p : Int32} (hp : IsPercent p)
    {f : MediaTransfer → MediaTransfer} (hf : ∀ t, (f t).progress = p) : (s.modify id f).Percents :=
  h.modify id (fun t _ => (hf t).symm ▸ hp)

theorem MediaState.Percents.cancelSend {s' : MediaState} {id : Bytes}
    (hs : s.cancelSend id = .ok s') : s'.Percents := by
  unfold MediaState.cancelSend at hs
  split at hs
  next => cases hs
  next t ht =>
    split_ifs at hs
    cases hs
    intro j t' ht'
    rw [lookup_insert_ite] at ht'
    split at ht'
    next =>
      obtain rfl := Option.some.inj ht'
      exact h id t ht
    next => exact h j t' ht'

/-! ## Steps -/

private theorem sendMediaStep_percents {ctx : MediaContext} {req : SendMediaRequest}
    {s' : MediaState} {pc pc' : SendMediaPc} {e : SendMediaEvent}
    (hs : sendMediaStep ctx req s pc e = some (s', pc')) : s'.Percents := by
  cases sendMediaStep_cases hs with
  | register unixNano created => exact h.register _ created
  | noRelays msgID => exact h.fail msgID _
  | relays msgID relay relays =>
    exact h.assign msgID (by decide : IsPercent 10) (fun _ => rfl)
  | notUploaded msgID x => exact h.fail msgID _
  | uploaded msgID x info hx =>
    have hlogged : ({ s with uploads := s.uploads ++ [req.mediaData] } : MediaState).Percents := h
    exact hlogged.assign msgID (by decide : IsPercent 50) (fun _ => rfl)
  | unsealed msgID info unixMilli nonce e => exact h.fail msgID _
  | handed msgID info unixMilli nonce out => exact h
  | accepted msgID => exact h.assign msgID (by decide : IsPercent 100) (fun _ => rfl)
  | refused msgID => exact h.fail msgID _

/-- The count of a stream goes to its transfer if that is listed. -/
theorem percents_append (v : StreamVars) (r : Receipt) :
    (s.modify v.transferID (v.append r).progress).Percents ↔
      (v.transferID ∈ s.transfers → LowCount (v.append r).chunkCount) := by
  rw [percents_modify h, mem_iff_lookup, ← isPercent_iff]
  constructor
  · rintro hf ⟨t, ht⟩
    exact hf t ht
  · intro hf t ht
    exact hf ⟨t, ht⟩

/-- Every step of a stream but the receipt of data. -/
theorem streamStep_percents {ctx : MediaContext} {s' : MediaState} {pc pc' : StreamPc}
    {e : StreamEvent} (hs : streamStep ctx s pc e = some (s', pc'))
    (hlow : ∀ v r, pc = .receiving v → e = .recv r → v.transferID ≠ [] →
      ¬ (v.append r).totalSize > Int64.ofNat Media.mediaMaxHardCap →
      v.transferID ∈ s.transfers → LowCount (v.append r).chunkCount) : s'.Percents := by
  cases streamStep_cases hs with
  | noTempFile v r hid htemp => exact h
  | header v r hid htemp => exact h.register _ r.created
  | tooLarge v r hid hsize => exact h
  | append v r hid hsize => exact (percents_append h v r).mpr (hlow v r rfl rfl hid hsize)
  | noData v hfile => exact h
  | assembled v file hfile => exact h
  | lostUnnamed v hid => exact h
  | lost v hid => exact h.fail v.transferID _
  | unreadable v file relays x closes => exact h
  | noPeer v file relays x closes hpeer => exact h
  | notUploaded v file relays x closes e hpeer => exact h.fail v.transferID _
  | uploaded v file relays x closes info hpeer hx => exact h
  | unsealed v info unixMilli nonce e hseal => exact h.fail v.transferID _
  | handed v info unixMilli nonce ciphertext dropped hseal => exact h
  | closed v closes => exact h.assign v.transferID (by decide : IsPercent 100) (fun _ => rfl)

end Writes

/-- A chunk that a stream receives as data for a listed transfer, within the size limit, is counted
low. -/
def CallAction.CountsLow (calls : MediaCalls) : CallAction → Prop
  | .send k (.stream (.recv r)) => ∀ v, calls.senders[k]? = some (.stream (.receiving v)) →
      v.transferID ≠ [] → ¬ (v.append r).totalSize > Int64.ofNat Media.mediaMaxHardCap →
      v.transferID ∈ calls.state.transfers → LowCount (v.append r).chunkCount
  | _ => True

private theorem step_percents {ctx : MediaContext} {calls calls' : MediaCalls} {a : CallAction}
    (h : calls.state.Percents) (hlow : a.CountsLow calls)
    (hs : calls.step ctx a = some calls') : calls'.state.Percents := by
  cases a with
  | sendMedia req =>
    cases hs
    exact h
  | sendMediaStream =>
    cases hs
    exact h
  | send k e =>
    simp only [MediaCalls.step] at hs
    split at hs
    next sender hk =>
      obtain ⟨⟨s', sender'⟩, hstep, rfl⟩ := Option.map_eq_some_iff.mp hs
      rcases Sender.step_cases hstep with
        ⟨req, pc, pc', ev, rfl, rfl, rfl, hmedia⟩ | ⟨pc, pc', ev, rfl, rfl, rfl, hstream⟩
      · exact sendMediaStep_percents h hmedia
      · refine streamStep_percents h hstream ?_
        rintro v r rfl rfl
        exact hlow v hk
    next => cases hs
  | stale k e =>
    simp only [MediaCalls.step] at hs
    split at hs
    next => cases hs
    next =>
      obtain ⟨r, -, rfl⟩ := Option.map_eq_some_iff.mp hs
      exact h
    next => cases hs
  | cancelSend messageId =>
    simp only [MediaCalls.step] at hs
    split at hs <;> cases hs
    · exact h.cancelSend ‹_›
    · exact h
  | cleanupTransfers now hint =>
    cases hs
    exact h.of_sub (fun _ _ ht => cleanupTransfers_sub _ _ _ ht)

/-- A chunk that is counted too high spoils the report. -/
theorem countsLow_of_percents {ctx : MediaContext} {calls : MediaCalls} {a : CallAction}
    (h : calls.state.Percents)
    (hafter : ∀ calls', calls.step ctx a = some calls' → calls'.state.Percents) :
    a.CountsLow calls := by
  cases a with
  | send k e =>
    cases e with
    | media e => trivial
    | stream e =>
      cases e with
      | recv r =>
        intro v hk hid hsize
        have hstep : calls.step ctx (.send k (.stream (.recv r))) =
            some ⟨calls.state.modify v.transferID (v.append r).progress,
              calls.senders.set k (.stream (.receiving (v.append r)))⟩ := by
          simp only [MediaCalls.step, hk, Sender.step, streamStep, if_neg hid, if_neg hsize,
            Option.map_some]
        exact (percents_append h v r).mp (hafter _ hstep)
      | _ => trivial
  | _ => trivial

/-- In every run of calls, what `GetMediaStatus` reports is a percentage all the time exactly if
every chunk that a stream counts for a listed transfer is counted low. -/
theorem progress_percent_iff (ctx : MediaContext) (store : Option Media.TransferStore)
    (actions : List CallAction) :
    Always (MediaCalls.step ctx) MediaCalls.ReportsPercent (newCalls store) actions ↔
      Meets (MediaCalls.step ctx) (fun calls a => a.CountsLow calls) (newCalls store) actions := by
  have hnew : (newCalls store).ReportsPercent := by
    rw [reportsPercent_iff]
    intro id t ht
    cases ht
  rw [always_iff_meets, and_iff_right hnew]
  refine meets_iff_of_invariant ?_ (fun _ _ calls' _ hok hs => hok calls' hs) hnew actions
  intro calls a h
  simp only [reportsPercent_iff] at h ⊢
  constructor
  · intro hafter
    exact countsLow_of_percents h hafter
  · intro hlow calls' hs
    exact step_percents h hlow hs

/-! ## A stream of empty chunks -/

/-- One stream, which gets a first chunk and `n` more, all of them empty. -/
def emptyStream (n : Nat) : List CallAction :=
  .sendMediaStream :: .send 0 (.stream (.recv (received [1] []))) ::
    List.replicate n (.send 0 (.stream (.recv (received [1] []))))

/-- The variables of the stream after some empty chunks. -/
def emptyVars (count : Int32) : StreamVars := ⟨[1], some [], 0, [], [], [], count⟩

theorem emptyChunk_step (ctx : MediaContext) (s : MediaState) (count : Int32) :
    MediaCalls.step ctx ⟨s, [.stream (.receiving (emptyVars count))]⟩
        (.send 0 (.stream (.recv (received [1] [])))) =
      some ⟨s.modify [1] (emptyVars (count + 1)).progress,
        [.stream (.receiving (emptyVars (count + 1)))]⟩ :=
  rfl

/-- Each chunk is counted, whatever it holds. -/
theorem emptyChunks_reported (ctx : MediaContext) (n : Nat) {s : MediaState} {count : Int32}
    {t : MediaTransfer} (ht : s.transfers.lookup [1] = some t) :
    ∃ calls, run (MediaCalls.step ctx) ⟨s, [.stream (.receiving (emptyVars count))]⟩
        (List.replicate (n + 1) (.send 0 (.stream (.recv (received [1] []))))) = some calls ∧
      calls.state.getMediaStatus [1] =
        .ok ⟨[1], .sending, (count + Int32.ofNat (n + 1)) * 100 / 1000, t.error⟩ := by
  have hlisted : (s.modify [1] (emptyVars (count + 1)).progress).transfers.lookup [1] =
      some ((emptyVars (count + 1)).progress t) := by
    rw [lookup_modify, if_pos rfl, ht, Option.map_some]
  induction n generalizing s count t with
  | zero =>
    refine ⟨_, run_cons.mpr ⟨_, emptyChunk_step ctx s count, rfl⟩, ?_⟩
    rw [MediaState.getMediaStatus]
    simp only [hlisted]
    rfl
  | succ n ih =>
    have hnext : ((s.modify [1] (emptyVars (count + 1)).progress).modify [1]
        (emptyVars (count + 1 + 1)).progress).transfers.lookup [1] =
        some ((emptyVars (count + 1 + 1)).progress ((emptyVars (count + 1)).progress t)) := by
      rw [lookup_modify, if_pos rfl, hlisted, Option.map_some]
    obtain ⟨calls, hrun, hreport⟩ := ih hlisted hnext
    refine ⟨calls, run_cons.mpr ⟨_, emptyChunk_step ctx s count, hrun⟩, ?_⟩
    have hcount : count + 1 + Int32.ofNat (n + 1) = count + Int32.ofNat (n + 1 + 1) := by
      rw [Int32.ofNat_add (n + 1) 1, Int32.add_assoc, Int32.add_comm 1]
      rfl
    rw [hreport, hcount]
    rfl

theorem emptyStream_reported (ctx : MediaContext) (store : Option Media.TransferStore) (n : Nat) :
    ∃ calls, run (MediaCalls.step ctx) (newCalls store) (emptyStream (n + 1)) = some calls ∧
      calls.state.getMediaStatus [1] =
        .ok ⟨[1], .sending, Int32.ofNat (n + 2) * 100 / 1000, none⟩ := by
  have hopened : MediaCalls.step ctx (newCalls store) .sendMediaStream =
      some ⟨(newCalls store).state, [.stream (.receiving .initial)]⟩ := rfl
  have hheader : MediaCalls.step ctx ⟨(newCalls store).state, [.stream (.receiving .initial)]⟩
      (.send 0 (.stream (.recv (received [1] [])))) =
      some ⟨(newCalls store).state.track .initial (received [1] []),
        [.stream (.receiving (emptyVars 1))]⟩ := rfl
  have hlisted : ((newCalls store).state.track .initial (received [1] [])).transfers.lookup [1] =
      some ⟨.queued, 0, 0, none, 0⟩ := rfl
  obtain ⟨calls, hrun, hreport⟩ := @emptyChunks_reported ctx n _ 1 _ hlisted
  refine ⟨calls, run_cons.mpr ⟨_, hopened, run_cons.mpr ⟨_, hheader, hrun⟩⟩, ?_⟩
  have hcount : 1 + Int32.ofNat (n + 1) = Int32.ofNat (n + 2) := by
    rw [Int32.ofNat_add (n + 1) 1, Int32.add_comm]
    rfl
  rw [hreport, hcount]

/-- A stream of 1010 empty chunks is at 101 percent, and one of 21474837 below zero. -/
theorem progress_leaves_range :
    (∃ calls, run (MediaCalls.step plainContext) (newCalls none) (emptyStream 1009) = some calls ∧
      calls.state.getMediaStatus [1] = .ok ⟨[1], .sending, 101, none⟩) ∧
    ∃ calls, run (MediaCalls.step plainContext) (newCalls none) (emptyStream 21474836) = some calls ∧
      calls.state.getMediaStatus [1] = .ok ⟨[1], .sending, -2147483, none⟩ :=
  ⟨emptyStream_reported plainContext none 1008, emptyStream_reported plainContext none 21474835⟩

end VRGram.Client
