import VRGram.Daemon.StateFiles
import VRGram.Lib.Machine
import VRGram.Lib.OpenFiles

/-!
# The peers file under concurrent calls

A call that changes the peers updates the map under its lock and calls `savePeers`, which marshals
the map under the read lock and then, outside of any lock, truncates the file and writes the bytes.
The calls run at the same time, so that their steps come in any order: a copy can be written after
a newer one, and two calls that have the file open at once can leave a mixture of their texts.
-/
namespace VRGram.Client

open VRGram.Lib VRGram.Lib.Maps VRGram.Lib.Machine VRGram.Lib.Strings VRGram.Lib.Utf8
open VRGram.Lib.OpenFiles

set_option autoImplicit false

/-! ## Interleavings -/

/-- Called; after the update; holding the marshalled text; in `os.WriteFile` with the file open,
at a position of the text; back. -/
inductive SavePhase where
  | called
  | updated
  | marshalled (data : Bytes)
  | writing (data : Bytes) (position : Nat)
  | returned
  deriving DecidableEq

/-- The map, the file, and where each call stands. -/
structure PeersState where
  peers : Pointers PeerInfoEntry
  file : Option Bytes
  phases : List SavePhase

/-- The steps of call `k`; a write puts at most `n` bytes into the file. -/
inductive SaveAct where
  | update (k : Nat)
  | marshal (k : Nat)
  | openFile (k : Nat)
  | write (k n : Nat)
  | close (k : Nat)
  deriving DecidableEq

/-- `loadPeers` when the daemon starts. -/
def restarted (hint : List Bytes) : Option Bytes → Pointers PeerInfoEntry
  | some data => loadPeersFile hint ∅ data
  | none => ∅

def PeersState.start (calls : List PeersCall) (peers : Pointers PeerInfoEntry)
    (file : Option Bytes) : PeersState :=
  ⟨peers, file, calls.map (fun _ => .called)⟩

def PeersState.enter (s : PeersState) (k : Nat) (phase : SavePhase) : PeersState :=
  { s with phases := s.phases.set k phase }

def saveStep (calls : List PeersCall) (s : PeersState) : SaveAct → Option PeersState
  | .update k =>
    match calls[k]?, s.phases[k]? with
    | some call, some .called => some { s.enter k .updated with peers := call.store s.peers }
    | _, _ => none
  | .marshal k =>
    match s.phases[k]? with
    | some .updated => some (s.enter k (.marshalled (peersText s.peers)))
    | _ => none
  | .openFile k =>
    match s.phases[k]? with
    | some (.marshalled data) => some { s.enter k (.writing data 0) with file := some [] }
    | _ => none
  | .write k n =>
    match s.phases[k]? with
    | some (.writing data position) =>
      let part := slice data position n
      some { s.enter k (.writing data (position + part.length)) with
        file := s.file.map (fun file => writeAt file position part) }
    | _ => none
  | .close k =>
    match s.phases[k]? with
    | some (.writing data position) =>
      if position = data.length then some (s.enter k .returned) else none
    | _ => none

/-- What a step can do. -/
inductive SaveStep (calls : List PeersCall) (s : PeersState) : SaveAct → PeersState → Prop where
  | update (k : Nat) (call : PeersCall) (hcall : calls[k]? = some call)
      (hphase : s.phases[k]? = some .called) :
      SaveStep calls s (.update k) { s.enter k .updated with peers := call.store s.peers }
  | marshal (k : Nat) (hphase : s.phases[k]? = some .updated) :
      SaveStep calls s (.marshal k) (s.enter k (.marshalled (peersText s.peers)))
  | openFile (k : Nat) (data : Bytes) (hphase : s.phases[k]? = some (.marshalled data)) :
      SaveStep calls s (.openFile k) { s.enter k (.writing data 0) with file := some [] }
  | write (k n : Nat) (data : Bytes) (position : Nat)
      (hphase : s.phases[k]? = some (.writing data position)) :
      SaveStep calls s (.write k n)
        { s.enter k (.writing data (position + (slice data position n).length)) with
          file := s.file.map (fun file => writeAt file position (slice data position n)) }
  | close (k : Nat) (data : Bytes) (hphase : s.phases[k]? = some (.writing data data.length)) :
      SaveStep calls s (.close k) (s.enter k .returned)

private theorem saveStep_cases {calls : List PeersCall} {s t : PeersState} {a : SaveAct}
    (h : saveStep calls s a = some t) : SaveStep calls s a t := by
  cases a with
  | update k =>
    simp only [saveStep] at h
    split at h
    next call hcall hphase =>
      obtain rfl := Option.some.inj h
      exact .update k call hcall hphase
    next => cases h
  | marshal k =>
    simp only [saveStep] at h
    split at h
    next hphase =>
      obtain rfl := Option.some.inj h
      exact .marshal k hphase
    next => cases h
  | openFile k =>
    simp only [saveStep] at h
    split at h
    next data hphase =>
      obtain rfl := Option.some.inj h
      exact .openFile k data hphase
    next => cases h
  | write k n =>
    simp only [saveStep] at h
    split at h
    next data position hphase =>
      obtain rfl := Option.some.inj h
      exact .write k n data position hphase
    next => cases h
  | close k =>
    simp only [saveStep] at h
    split at h
    next data position hphase =>
      rw [Option.ite_none_right_eq_some, Option.some.injEq] at h
      obtain ⟨rfl, rfl⟩ := h
      exact .close k data hphase
    next => cases h

/-! ## Which updates have reached the file -/

/-- The calls that have updated the map, in their order; for each call those that had when it
marshalled the map; and those that had when the copy that was written last was marshalled. -/
structure SaveHistory where
  applied : List Nat
  copied : Nat → List Nat
  saved : List Nat

def SaveHistory.step (h : SaveHistory) : SaveAct → SaveHistory
  | .update k => { h with applied := h.applied ++ [k] }
  | .marshal k => { h with copied := Function.update h.copied k h.applied }
  | .openFile _ => h
  | .write _ _ => h
  | .close k => { h with saved := h.copied k }

def SaveHistory.start : SaveHistory := ⟨[], fun _ => [], []⟩

def historyOf (schedule : List SaveAct) : SaveHistory :=
  schedule.foldl SaveHistory.step SaveHistory.start

/-- The last of the calls that names the peer. -/
def lastCallOn (calls : List PeersCall) (ks : List Nat) (pubkey : Bytes) : Option PeersCall :=
  (ks.filterMap (fun k => calls[k]?)).reverse.find? (fun call => call.pubkey = pubkey)

/-- What the calls make of the peer's entry, one after the other. -/
def entryAfter (calls : List PeersCall) (start : Pointers PeerInfoEntry) (ks : List Nat)
    (pubkey : Bytes) : Option (Option PeerInfoEntry) :=
  match lastCallOn calls ks pubkey with
  | some call => call.entry.map some
  | none => start.lookup pubkey

private theorem entryAfter_concat (calls : List PeersCall) (start : Pointers PeerInfoEntry)
    (ks : List Nat) {k : Nat} {call : PeersCall} (hk : calls[k]? = some call) (pubkey : Bytes) :
    entryAfter calls start (ks ++ [k]) pubkey =
      if call.pubkey = pubkey then call.entry.map some
      else entryAfter calls start ks pubkey := by
  by_cases hp : call.pubkey = pubkey <;> simp [entryAfter, lastCallOn, hk, hp]

/-- A map that holds what the given calls have made of the peers. -/
def Reflects (calls : List PeersCall) (start : Pointers PeerInfoEntry) (ks : List Nat)
    (peers : Pointers PeerInfoEntry) : Prop :=
  ∀ pubkey, peers.lookup pubkey = entryAfter calls start ks pubkey

/-- A text that `savePeers` makes of what the given calls have made of the peers. -/
def TextOf (calls : List PeersCall) (start : Pointers PeerInfoEntry) (ks : List Nat)
    (data : Bytes) : Prop :=
  ∃ peers, data = peersText peers ∧ Storable peers ∧ Reflects calls start ks peers

theorem TextOf.restarted {calls : List PeersCall} {start : Pointers PeerInfoEntry} {ks : List Nat}
    {data : Bytes} (h : TextOf calls start ks data) (hint : List Bytes) :
    Reflects calls start ks (restarted hint (some data)) := by
  obtain ⟨peers, rfl, hstorable, hreflects⟩ := h
  intro pubkey
  exact (lookup_loadPeersFile hstorable hint pubkey).trans (hreflects pubkey)

/-! ## One writer at a time -/

/-- The text that a call is going to write. -/
def SavePhase.text : SavePhase → Option Bytes
  | .marshalled data => some data
  | .writing data _ => some data
  | _ => none

def SavePhase.writes : SavePhase → Bool
  | .writing _ _ => true
  | _ => false

/-- Nobody has the file open. -/
def PeersState.Closed (s : PeersState) : Prop := ∀ phase ∈ s.phases, phase.writes = false

instance (s : PeersState) : Decidable s.Closed :=
  inferInstanceAs (Decidable (∀ phase ∈ s.phases, phase.writes = false))

/-- The file is opened only while nobody else has it open. -/
def SaveAct.Alone (s : PeersState) : SaveAct → Prop
  | .openFile _ => s.Closed
  | _ => True

instance (s : PeersState) : (a : SaveAct) → Decidable (a.Alone s)
  | .openFile _ => inferInstanceAs (Decidable s.Closed)
  | .update _ => inferInstanceAs (Decidable True)
  | .marshal _ => inferInstanceAs (Decidable True)
  | .write _ _ => inferInstanceAs (Decidable True)
  | .close _ => inferInstanceAs (Decidable True)

theorem PeersState.Closed.not_writing {s : PeersState} (h : s.Closed) {k : Nat} {data : Bytes}
    {n : Nat} : s.phases[k]? ≠ some (.writing data n) := by
  intro hk
  have hwrites := h _ (List.mem_of_getElem? hk)
  cases hwrites

/-- What the memory, the copies and the file stand for. While the file is open, it holds the text of
the one call that writes it up to the position of that call. -/
structure Recorded (calls : List PeersCall) (start : Pointers PeerInfoEntry) (s : PeersState)
    (h : SaveHistory) : Prop where
  memory : Reflects calls start h.applied s.peers
  storable : Storable s.peers
  copies : ∀ (k : Nat) phase data, s.phases[k]? = some phase → phase.text = some data →
    TextOf calls start (h.copied k) data
  single : ∀ (j k : Nat) data data' n n', s.phases[j]? = some (.writing data n) →
    s.phases[k]? = some (.writing data' n') → j = k
  opened : ∀ (k : Nat) data n, s.phases[k]? = some (.writing data n) →
    ∃ file, s.file = some file ∧ n ≤ data.length ∧ WrittenUpTo data file n
  closed : s.Closed → ∀ hint, Reflects calls start h.saved (restarted hint s.file)

theorem enter_self {s : PeersState} {k : Nat} {old : SavePhase} (h : s.phases[k]? = some old)
    (phase : SavePhase) : (s.enter k phase).phases[k]? = some phase := by
  obtain ⟨hk, -⟩ := List.getElem?_eq_some_iff.mp h
  exact List.getElem?_set_self hk

theorem enter_other (s : PeersState) {j k : Nat} (h : j ≠ k) (phase : SavePhase) :
    (s.enter k phase).phases[j]? = s.phases[j]? :=
  List.getElem?_set_ne h.symm

/-- After a step of call `k` the other calls stand where they stood. -/
theorem phase_enter_cases {s : PeersState} {k : Nat} {old phase : SavePhase}
    (h : s.phases[k]? = some old) {j : Nat} {found : SavePhase}
    (hj : (s.enter k phase).phases[j]? = some found) :
    (j = k ∧ found = phase) ∨ (j ≠ k ∧ s.phases[j]? = some found) := by
  by_cases hjk : j = k
  · subst hjk
    rw [enter_self h] at hj
    exact Or.inl ⟨rfl, (Option.some.inj hj).symm⟩
  · rw [enter_other s hjk] at hj
    exact Or.inr ⟨hjk, hj⟩

/-- A step between phases in which the file is not open does not open it. -/
theorem closed_of_enter {s : PeersState} {k : Nat} {old phase : SavePhase}
    (h : s.phases[k]? = some old) (hold : old.writes = false) (hclosed : (s.enter k phase).Closed) :
    s.Closed := by
  intro found hfound
  obtain ⟨j, hj⟩ := List.getElem?_of_mem hfound
  by_cases hjk : j = k
  · subst hjk
    obtain rfl := Option.some.inj (h.symm.trans hj)
    exact hold
  · rw [← enter_other s hjk phase] at hj
    exact hclosed found (List.mem_of_getElem? hj)

/-- A write is of what is left of the text. -/
theorem slice_slice_length (text : Bytes) (position n : Nat) :
    slice text position n = slice text position (slice text position n).length := by
  rw [slice, slice, List.length_take, ← List.take_eq_take_min]

section Step

variable {calls : List PeersCall} {start : Pointers PeerInfoEntry} {s : PeersState}
  {h : SaveHistory}

/-- A step that leaves the file alone, given what it does to the map and the copies. -/
theorem Recorded.apart (hr : Recorded calls start s h) {k : Nat} {old phase : SavePhase}
    (hphase : s.phases[k]? = some old) (hold : old.writes = false) (hnew : phase.writes = false)
    {peers : Pointers PeerInfoEntry} {h' : SaveHistory}
    (hmemory : Reflects calls start h'.applied peers) (hstorable : Storable peers)
    (hcopied : ∀ j, j ≠ k → h'.copied j = h.copied j)
    (htext : ∀ data, phase.text = some data → TextOf calls start (h'.copied k) data)
    (hsaved : h'.saved = h.saved) :
    Recorded calls start { s.enter k phase with peers := peers } h' := by
  have hwriting : ∀ {j : Nat} {data : Bytes} {n : Nat},
      (s.enter k phase).phases[j]? = some (.writing data n) →
      s.phases[j]? = some (.writing data n) := by
    intro j data n hj
    rcases phase_enter_cases hphase hj with ⟨-, rfl⟩ | ⟨-, hbefore⟩
    · cases hnew
    · exact hbefore
  refine ⟨hmemory, hstorable, ?_, ?_, ?_, ?_⟩
  · intro j found data hj hdata
    rcases phase_enter_cases hphase hj with ⟨rfl, rfl⟩ | ⟨hjk, hbefore⟩
    · exact htext data hdata
    · rw [hcopied j hjk]
      exact hr.copies j found data hbefore hdata
  · intro i j data data' n n' hi hj
    exact hr.single i j data data' n n' (hwriting hi) (hwriting hj)
  · intro j data n hj
    exact hr.opened j data n (hwriting hj)
  · intro hclosed
    rw [hsaved]
    exact hr.closed (closed_of_enter hphase hold hclosed)

theorem Recorded.update (hr : Recorded calls start s h) {k : Nat} {call : PeersCall}
    (hcall : calls[k]? = some call) (hwell : call.WellFormed)
    (hphase : s.phases[k]? = some .called) :
    Recorded calls start { s.enter k .updated with peers := call.store s.peers }
      (h.step (.update k)) := by
  refine hr.apart hphase rfl rfl (fun pubkey => ?_) (hr.storable.store hwell) (fun _ _ => rfl)
    (fun _ hdata => by cases hdata) rfl
  rw [lookup_store, hr.memory pubkey]
  exact (entryAfter_concat calls start h.applied hcall pubkey).symm

theorem Recorded.marshal (hr : Recorded calls start s h) {k : Nat}
    (hphase : s.phases[k]? = some .updated) :
    Recorded calls start (s.enter k (.marshalled (peersText s.peers))) (h.step (.marshal k)) := by
  refine hr.apart hphase rfl rfl hr.memory hr.storable (fun j hj => ?_) (fun data hdata => ?_) rfl
  · exact Function.update_of_ne hj _ _
  · obtain rfl := Option.some.inj hdata
    refine ⟨s.peers, rfl, hr.storable, ?_⟩
    simp only [SaveHistory.step, Function.update_self]
    exact hr.memory

/-- A step of a call that keeps its text. -/
theorem Recorded.copies_enter (hr : Recorded calls start s h) {k : Nat} {old phase : SavePhase}
    (hphase : s.phases[k]? = some old)
    (htext : ∀ data, phase.text = some data → old.text = some data) (j : Nat) (found : SavePhase)
    (data : Bytes) (hj : (s.enter k phase).phases[j]? = some found)
    (hdata : found.text = some data) : TextOf calls start (h.copied j) data := by
  rcases phase_enter_cases hphase hj with ⟨rfl, rfl⟩ | ⟨-, hbefore⟩
  · exact hr.copies j old data hphase (htext data hdata)
  · exact hr.copies j found data hbefore hdata

/-- A step of the one call that has the file open, given how far it has come with its text. -/
theorem Recorded.alone (hr : Recorded calls start s h) {k : Nat} {old : SavePhase} {data : Bytes}
    {position : Nat} (hphase : s.phases[k]? = some old) (htext : old.text = some data)
    (hothers : ∀ (j : Nat) data' n, s.phases[j]? = some (.writing data' n) → j = k)
    {file : Option Bytes} (hfile : ∃ text, file = some text ∧ position ≤ data.length ∧
      WrittenUpTo data text position) :
    Recorded calls start { s.enter k (.writing data position) with file := file } h := by
  have honly : ∀ (j : Nat) data' n, (s.enter k (.writing data position)).phases[j]? =
      some (.writing data' n) → j = k ∧ data' = data ∧ n = position := by
    intro j data' n hj
    rcases phase_enter_cases hphase hj with ⟨rfl, heq⟩ | ⟨hjk, hbefore⟩
    · exact ⟨rfl, SavePhase.writing.inj heq⟩
    · exact absurd (hothers j data' n hbefore) hjk
  refine ⟨hr.memory, hr.storable, ?_, ?_, ?_, ?_⟩
  · exact hr.copies_enter hphase (fun _ hsame => htext.trans hsame)
  · intro i j data' data'' n n' hi hj
    exact (honly i data' n hi).1.trans (honly j data'' n' hj).1.symm
  · intro j data' n hj
    obtain ⟨-, rfl, rfl⟩ := honly j data' n hj
    exact hfile
  · intro hclosed
    exact absurd (enter_self hphase _) hclosed.not_writing

theorem Recorded.openFile (hr : Recorded calls start s h) {k : Nat} {data : Bytes}
    (hphase : s.phases[k]? = some (.marshalled data)) (hclosed : s.Closed) :
    Recorded calls start { s.enter k (.writing data 0) with file := some [] } h := by
  refine hr.alone hphase rfl (fun j data' n hj => ?_) ⟨[], rfl, Nat.zero_le _, writtenUpTo_nil data⟩
  exact absurd hj hclosed.not_writing

theorem Recorded.write (hr : Recorded calls start s h) {k : Nat} {data : Bytes} {position : Nat}
    (hphase : s.phases[k]? = some (.writing data position)) (n : Nat) :
    Recorded calls start
      { s.enter k (.writing data (position + (slice data position n).length)) with
        file := s.file.map (fun file => writeAt file position (slice data position n)) } h := by
  obtain ⟨file, hfile, hle, hwritten⟩ := hr.opened k data position hphase
  have hfits : position + (slice data position n).length ≤ data.length := by
    rw [slice_length]
    omega
  refine hr.alone hphase rfl (fun j data' m hj => ?_) ⟨_, by rw [hfile, Option.map_some], hfits, ?_⟩
  · exact hr.single j k data' data m position hj hphase
  · have hreached : ∀ i < position + (slice data position n).length,
        i < position ∨ (position ≤ i ∧ i < position + (slice data position n).length) := by
      omega
    have hwrite := hwritten.write hfits hreached
    rwa [← slice_slice_length] at hwrite

theorem Recorded.close (hr : Recorded calls start s h) {k : Nat} {data : Bytes}
    (hphase : s.phases[k]? = some (.writing data data.length)) :
    Recorded calls start (s.enter k .returned) (h.step (.close k)) := by
  have hnone : ∀ (j : Nat) data' n, (s.enter k .returned).phases[j]? ≠ some (.writing data' n) := by
    intro j data' n hj
    rcases phase_enter_cases hphase hj with ⟨-, heq⟩ | ⟨hjk, hbefore⟩
    · cases heq
    · exact hjk (hr.single j k data' data n data.length hbefore hphase)
  refine ⟨hr.memory, hr.storable, hr.copies_enter hphase (fun _ hdata => by cases hdata), ?_, ?_, ?_⟩
  · intro i j data' data'' n n' hi
    exact absurd hi (hnone i data' n)
  · intro j data' n hj
    exact absurd hj (hnone j data' n)
  · intro _ hint
    obtain ⟨file, hfile, -, hwritten⟩ := hr.opened k data data.length hphase
    have hwhole : (s.enter k .returned).file = some data := by
      rw [PeersState.enter, hfile, hwritten.complete]
    rw [hwhole]
    exact (hr.copies k _ data hphase rfl).restarted hint

theorem Recorded.step (hr : Recorded calls start s h) (hcalls : ∀ call ∈ calls, call.WellFormed)
    {a : SaveAct} {t : PeersState} (halone : a.Alone s) (hst : saveStep calls s a = some t) :
    Recorded calls start t (h.step a) := by
  cases saveStep_cases hst with
  | update k call hcall hphase =>
    exact hr.update hcall (hcalls call (List.mem_of_getElem? hcall)) hphase
  | marshal k hphase => exact hr.marshal hphase
  | openFile k data hphase => exact hr.openFile hphase halone
  | write k n data position hphase => exact hr.write hphase n
  | close k data hphase => exact hr.close hphase

end Step

/-! ## After the calls -/

/-- A daemon that has loaded its file, whose texts are UTF-8. -/
structure Loaded (start : Pointers PeerInfoEntry) (file : Option Bytes) : Prop where
  storable : Storable start
  found : ∀ hint pubkey, (restarted hint file).lookup pubkey = start.lookup pubkey

/-- A daemon that finds the file of an earlier run. -/
theorem loaded_written {peers : Pointers PeerInfoEntry} (h : Storable peers) :
    Loaded peers (some (peersText peers)) :=
  ⟨h, lookup_loadPeersFile h⟩

theorem Loaded.recorded {start : Pointers PeerInfoEntry} {file : Option Bytes}
    (h : Loaded start file) (calls : List PeersCall) :
    Recorded calls start (PeersState.start calls start file) SaveHistory.start := by
  have hcalled : ∀ {k : Nat} {phase : SavePhase},
      (PeersState.start calls start file).phases[k]? = some phase → phase = .called := by
    intro k phase hk
    obtain ⟨call, -, hphase⟩ := List.mem_map.mp (List.mem_of_getElem? hk)
    exact hphase.symm
  refine ⟨fun _ => rfl, h.storable, ?_, ?_, ?_, fun _ hint pubkey => h.found hint pubkey⟩
  · intro k phase data hk hdata
    rw [hcalled hk] at hdata
    cases hdata
  · intro j k data data' n n' hj
    cases hcalled hj
  · intro k data n hk
    cases hcalled hk

/-- Where the file is opened only while nobody else has it open: once all calls are back, a restart
finds the peers in memory exactly if for every peer the last update of it and the last one that the
copy written last has seen leave the same entry. -/
theorem peersFile_current_iff {start : Pointers PeerInfoEntry} {file : Option Bytes}
    (hstart : Loaded start file) {calls : List PeersCall}
    (hcalls : ∀ call ∈ calls, call.WellFormed) {schedule : List SaveAct} {s : PeersState}
    (hrun : run (saveStep calls) (PeersState.start calls start file) schedule = some s)
    (hreturned : ∀ phase ∈ s.phases, phase = .returned)
    (halone : Meets (saveStep calls) (fun s a => a.Alone s) (PeersState.start calls start file)
      schedule) (hint : List Bytes) :
    (∀ pubkey, (restarted hint s.file).lookup pubkey = s.peers.lookup pubkey) ↔
      ∀ pubkey, entryAfter calls start (historyOf schedule).saved pubkey =
        entryAfter calls start (historyOf schedule).applied pubkey := by
  have hrecorded : Recorded calls start s (historyOf schedule) :=
    run_history_guarded (fun _ _ _ _ h hok hst => h.step hcalls hok hst) (hstart.recorded calls)
      halone hrun
  have hclosed : s.Closed := by
    intro phase hphase
    rw [hreturned phase hphase]
    rfl
  refine forall_congr' (fun pubkey => ?_)
  rw [hrecorded.closed hclosed hint pubkey, hrecorded.memory pubkey]

/-- Ann is added and removed again. -/
def addThenRemove : List PeersCall := [addPeerCall (lit "Ann") (lit "A"), removePeerCall (lit "A")]

/-- The second call updates while the first one writes, and writes when the first one is back. -/
def inTurn : List SaveAct :=
  [.update 0, .marshal 0, .openFile 0, .write 0 5, .update 1, .write 0 200, .close 0, .marshal 1,
    .openFile 1, .write 1 200, .close 1]

/-- A daemon that knows Bob from an earlier run. -/
def knowsBob : Pointers PeerInfoEntry := (addPeerCall (lit "Bob") (lit "B")).store ∅

def knowsBobStart : PeersState :=
  PeersState.start addThenRemove knowsBob (some (peersText knowsBob))

theorem peersFile_current_iff_inTurn :
    ∃ s, run (saveStep addThenRemove) knowsBobStart inTurn = some s ∧
      ∀ pubkey, (restarted [] s.file).lookup pubkey = s.peers.lookup pubkey := by
  obtain ⟨s, hs⟩ : ∃ s, run (saveStep addThenRemove) knowsBobStart inTurn = some s :=
    Option.isSome_iff_exists.mp (by decide +kernel)
  have hphases : (run (saveStep addThenRemove) knowsBobStart inTurn).map PeersState.phases =
      some [.returned, .returned] := by decide +kernel
  rw [hs, Option.map_some, Option.some.injEq] at hphases
  have hreturned : ∀ phase ∈ s.phases, phase = .returned := by
    rw [hphases]
    decide
  have hstorable : Storable knowsBob :=
    Storable.store (fun _ _ h => by cases h) (by decide +kernel)
  exact ⟨s, hs, (peersFile_current_iff (loaded_written hstorable) (by decide +kernel) hs hreturned
    (by decide +kernel) []).mpr (fun _ => rfl)⟩

/-- What memory and a restart have for a peer when all calls are back. -/
def atTheEnd (calls : List PeersCall) (schedule : List SaveAct) (pubkey : Bytes) :
    Option (List SavePhase × Option (Option PeerInfoEntry) × Option (Option PeerInfoEntry)) :=
  (run (saveStep calls) (PeersState.start calls ∅ none) schedule).map
    (fun s => (s.phases, s.peers.lookup pubkey, (restarted [] s.file).lookup pubkey))

/-- The older copy is written last, and the files are never open at the same time. -/
def olderLast : List SaveAct :=
  [.update 0, .marshal 0, .update 1, .marshal 1, .openFile 1, .write 1 100, .close 1,
    .openFile 0, .write 0 100, .close 0]

def addTwo : List PeersCall :=
  [addPeerCall (lit "Ann") (lit "A"), addPeerCall (lit "Bob") (lit "B")]

/-- Both calls have the file open; the copy of the second one, which has both peers, is closed
last. -/
def overlappingSaves : List SaveAct :=
  [.update 0, .marshal 0, .update 1, .marshal 1, .openFile 0, .openFile 1, .write 1 200,
    .write 0 100, .close 0, .close 1]

/-- A removed peer is back after a restart, and of two writes at the same time a mixture is left, in
which a restart finds no peer at all. -/
theorem peersFile_stale :
    atTheEnd addThenRemove olderLast (lit "A") =
      some ([.returned, .returned], none, some (some ⟨lit "Ann", lit "A"⟩)) ∧
    atTheEnd addTwo overlappingSaves (lit "A") =
      some ([.returned, .returned], some (some ⟨lit "Ann", lit "A"⟩), none) ∧
    atTheEnd addTwo overlappingSaves (lit "B") =
      some ([.returned, .returned], some (some ⟨lit "Bob", lit "B"⟩), none) :=
  ⟨by decide +kernel, by decide +kernel, by decide +kernel⟩

end VRGram.Client
