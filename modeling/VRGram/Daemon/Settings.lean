import VRGram.Client.Naming
import VRGram.Lib.JsonText
import VRGram.Lib.Machine
import VRGram.Lib.SharedFile
import VRGram.Lib.Trim

/-!
# Settings that travel through files

The settings screen of the app writes the transport mode and the chunk size into two files; two
goroutines of the daemon read them every five seconds and apply what is new to the engine. Nothing
orders the writes of the app among each other and against the reads. The RPCs of the same names
set the engine directly. Lower case is that of ASCII letters; no other letter becomes one of those
in `tcp` and `udp`.
-/
namespace VRGram.Client

open VRGram.Lib VRGram.Lib.Strings VRGram.Lib.Json VRGram.Lib.Trim VRGram.Lib.Machine
open VRGram.Lib.SharedFile

set_option autoImplicit false

/-! ## Texts -/

def toLower (s : Bytes) : Bytes := s.map (fun c => if 65 ≤ c ∧ c ≤ 90 then c + 32 else c)

def transportModeFromString (s : Bytes) : TransportMode :=
  let s := trimSpace (toLower s)
  if s = lit "tcp" then .tcp else if s = lit "udp" then .udp else .auto

/-- `strconv.Atoi`. -/
def atoi (s : Bytes) : Option Int :=
  (parseDigits (if s.head? = some 43 ∨ s.head? = some 45 then s.tail else s)).bind (fun n =>
    let value : Int := if s.head? = some 45 then -n else n
    if -2 ^ 63 ≤ value ∧ value < 2 ^ 63 then some value else none)

/-! ## The app -/

def TransportMode.name : TransportMode → Bytes
  | .auto => lit "auto"
  | .tcp => lit "tcp"
  | .udp => lit "udp"

/-- `size.clamp(min, max)` of `ChunkSizeNotifier`. -/
def clampedSize (size : Int) : Nat := (max 32 (min 200 size)).toNat

def sizeText (size : Int) : Bytes := decimal (clampedSize size)

/-! ## The machine -/

/-- The two files, what the two goroutines applied last, and the engine. -/
structure Settings where
  modeFile : Shared
  sizeFile : Shared
  lastMode : Bytes
  lastSize : Int
  engine : DNSClientEngine

inductive SettingsEvent where
  | setMode (mode : TransportMode) (stage : Stage)
  | setSize (size : Int) (stage : Stage)
  | watchTransportMode (reads : Bool)
  | watchChunkSize (reads : Bool)
  | rpcTransportMode (mode : TransportMode)
  | rpcChunkSize (size : Int32)
  | restart

def DNSClientEngine.setTransportMode (e : DNSClientEngine) (mode : TransportMode) :
    DNSClientEngine :=
  { e with transportMode := mode }

def Settings.start (relays : List Bytes) (zone : Bytes) : Settings :=
  ⟨⟨none, []⟩, ⟨none, []⟩, [], 0, newDNSClientEngine relays zone⟩

/-- One round of the loop of `watchTransportMode`. -/
def Settings.watchTransportMode (s : Settings) (reads : Bool) : Settings :=
  match if reads then s.modeFile.content else none with
  | none => s
  | some data =>
    let mode := trimSpace data
    if mode = s.lastMode then s
    else { s with
      lastMode := mode
      engine := s.engine.setTransportMode (transportModeFromString mode) }

/-- One round of the loop of `watchChunkSize`. -/
def Settings.watchChunkSize (s : Settings) (reads : Bool) : Settings :=
  match (if reads then s.sizeFile.content else none).bind (fun data => atoi (trimSpace data)) with
  | none => s
  | some size =>
    if size < 32 ∨ size > 200 then s
    else if size = s.lastSize then s
    else { s with lastSize := size, engine := s.engine.setChunkSize (Int64.ofInt size) }

def settingsStep (s : Settings) : SettingsEvent → Option Settings
  | .setMode mode stage =>
    (s.modeFile.step mode.name stage).map (fun file => { s with modeFile := file })
  | .setSize size stage =>
    (s.sizeFile.step (sizeText size) stage).map (fun file => { s with sizeFile := file })
  | .watchTransportMode reads => some (s.watchTransportMode reads)
  | .watchChunkSize reads => some (s.watchChunkSize reads)
  | .rpcTransportMode mode => some { s with engine := s.engine.setTransportMode mode }
  | .rpcChunkSize size => some { s with engine := s.engine.setChunkSize size.toInt64 }
  | .restart =>
    some { s with
      lastMode := []
      lastSize := 0
      engine := newDNSClientEngine s.engine.fallbackRelays s.engine.zone }

/-- The modes that the user chose or a client asked for. -/
def chosenModes (events : List SettingsEvent) : List TransportMode :=
  events.filterMap fun
    | .setMode mode _ => some mode
    | .rpcTransportMode mode => some mode
    | _ => none

def chosenSizes (events : List SettingsEvent) : List Int :=
  events.filterMap fun
    | .setSize size _ => some size
    | .rpcChunkSize size => some size.toInt
    | _ => none

/-! ## What the files can be taken for -/

/-- The first character of a file in lower case decides what it can be taken for. -/
theorem lowered_head {file : Bytes} {c d : UInt8} (hc : Graphic c) (hlower : toLower [c] = [c])
    (hfile : file.head? = some c) (hd : (trimSpace (toLower (trimSpace file))).head? = some d) :
    d = c := by
  cases htrim : trimSpace file with
  | nil =>
    rw [htrim] at hd
    cases hd
  | cons x rest =>
    have hx : x = c := trimSpace_head hc hfile (by rw [htrim]; rfl)
    subst hx
    have hhead : (toLower (x :: rest)).head? = some x := by
      rw [show toLower (x :: rest) = toLower [x] ++ toLower rest from rfl, hlower]
      rfl
    rw [htrim] at hd
    exact trimSpace_head hc hhead hd

private theorem mode_of_overlaid {modes : List TransportMode} {file : Bytes}
    (h : Overlaid (modes.map TransportMode.name) file) :
    transportModeFromString (trimSpace file) = .auto ∨
      transportModeFromString (trimSpace file) ∈ modes := by
  rcases h.front with rfl | ⟨text, htext, rest, rfl⟩
  · exact Or.inl (by decide)
  obtain ⟨mode, hmode, rfl⟩ := List.mem_map.mp htext
  -- the text that was written last gives the first character
  unfold transportModeFromString
  simp only
  split
  next htcp =>
    cases mode with
    | tcp => exact Or.inr hmode
    | auto => cases lowered_head (by decide : Graphic 97) (by decide) rfl (by rw [htcp]; rfl)
    | udp => cases lowered_head (by decide : Graphic 117) (by decide) rfl (by rw [htcp]; rfl)
  next =>
    split
    next hudp =>
      cases mode with
      | udp => exact Or.inr hmode
      | auto => cases lowered_head (by decide : Graphic 97) (by decide) rfl (by rw [hudp]; rfl)
      | tcp => cases lowered_head (by decide : Graphic 116) (by decide) rfl (by rw [hudp]; rfl)
    next => exact Or.inl rfl

theorem graphic_of_isDigit {c : UInt8} (h : isDigit c = true) : Graphic c := by
  simp only [isDigit, inRange, Bool.and_eq_true, decide_eq_true_eq] at h
  unfold Graphic
  omega

/-- A text of digits alone is the number they denote, if it is one and fits. -/
theorem atoi_digits {s : Bytes} (h : ∀ c ∈ s, isDigit c = true) :
    atoi s = (parseDigits s).bind (fun n => if n < 2 ^ 63 then some (n : Int) else none) := by
  have hunsigned : ∀ sign : UInt8, isDigit sign = false → s.head? ≠ some sign := by
    intro sign hsign hhead
    rw [h sign (List.mem_of_head? hhead)] at hsign
    cases hsign
  have hplus := hunsigned 43 (by decide)
  have hminus := hunsigned 45 (by decide)
  have hfits : ∀ n : Nat, (-2 ^ 63 ≤ (n : Int) ∧ (n : Int) < 2 ^ 63) ↔ n < 2 ^ 63 := by
    intro n
    omega
  simp only [atoi, hplus, hminus, or_self, if_false, hfits]

theorem clampedSize_bounds (size : Int) : 32 ≤ clampedSize size ∧ clampedSize size ≤ 200 := by
  unfold clampedSize
  omega

/-- A size over the end of another is far too large, and an empty file is no number. -/
theorem size_of_overlaid {sizes : List Int} {file : Bytes}
    (h : Overlaid (sizes.map sizeText) file) {size : Int}
    (hread : atoi (trimSpace file) = some size) (hmax : size ≤ 200) :
    ∃ chosen ∈ sizes, size = clampedSize chosen := by
  have hdigits : ∀ c ∈ file, isDigit c = true := by
    intro c hc
    obtain ⟨j, hj, rfl⟩ := List.mem_iff_getElem.mp hc
    obtain ⟨text, htext, heq⟩ := h.octets j hj
    obtain ⟨chosen, -, rfl⟩ := List.mem_map.mp htext
    rw [List.getElem?_eq_getElem hj] at heq
    exact isDigit_decimal _ _ (List.mem_of_getElem? heq)
  rw [trimSpace_visible (fun c hc => graphic_of_isDigit (hdigits c hc))] at hread
  have hvalue : size = digitsValue file := by
    rw [atoi_digits hdigits] at hread
    obtain ⟨n, hn, hsize⟩ := Option.bind_eq_some_iff.mp hread
    unfold parseDigits at hn
    split_ifs at hn hsize
    rw [← Option.some.inj hsize, Option.some.inj hn]
  rcases h.front with rfl | ⟨text, htext, rest, rfl⟩
  · cases hread
  obtain ⟨chosen, hchosen, rfl⟩ := List.mem_map.mp htext
  have hdecimal : digitsValue (sizeText chosen) = clampedSize chosen := digitsValue_decimal _
  cases rest with
  | nil =>
    rw [List.append_nil, hdecimal] at hvalue
    exact ⟨chosen, hchosen, hvalue⟩
  | cons c rest =>
    have hlonger := digitsValue_longer (sizeText chosen) c rest
    have hbounds := clampedSize_bounds chosen
    rw [hdecimal] at hlonger
    omega

/-! ## Runs -/

/-- The files hold chosen texts, and the engine has its defaults or what was chosen. -/
structure Settings.Sound (s : Settings) (events : List SettingsEvent) : Prop where
  modeFile : s.modeFile.Holds ((chosenModes events).map TransportMode.name)
  sizeFile : s.sizeFile.Holds ((chosenSizes events).map sizeText)
  mode : s.engine.transportMode = .auto ∨ s.engine.transportMode ∈ chosenModes events
  size : s.engine.chunkSize = defaultChunkSize ∨
    ∃ size ∈ chosenSizes events, s.engine.chunkSize.toInt = clampedSize size

theorem chosenModes_append (events later : List SettingsEvent) :
    chosenModes (events ++ later) = chosenModes events ++ chosenModes later :=
  List.filterMap_append

theorem chosenSizes_append (events later : List SettingsEvent) :
    chosenSizes (events ++ later) = chosenSizes events ++ chosenSizes later :=
  List.filterMap_append

/-- What the engine makes of a size that is in its range. -/
theorem setChunkSize_inRange (e : DNSClientEngine) {size : Int} (hmin : 32 ≤ size)
    (hmax : size ≤ 200) : (e.setChunkSize (Int64.ofInt size)).chunkSize.toInt = size := by
  rw [setChunkSize_toInt, Int64.toInt_ofInt_of_le (by omega) (by omega)]
  omega

private theorem setChunkSize_rpc (e : DNSClientEngine) (size : Int32) :
    (e.setChunkSize size.toInt64).chunkSize.toInt = clampedSize size.toInt := by
  rw [setChunkSize_toInt, Int32.toInt_toInt64, clampedSize]
  omega

/-- What a round of the first loop can do. -/
theorem watchTransportMode_cases (s : Settings) (reads : Bool) :
    s.watchTransportMode reads = s ∨
      ∃ file ∈ s.modeFile.content, s.watchTransportMode reads =
        { s with lastMode := trimSpace file,
                 engine := s.engine.setTransportMode (transportModeFromString (trimSpace file)) } := by
  unfold Settings.watchTransportMode
  split
  next => exact Or.inl rfl
  next file hfile =>
    by_cases hmode : trimSpace file = s.lastMode
    · exact Or.inl (if_pos hmode)
    · split at hfile
      next => exact Or.inr ⟨file, hfile, if_neg hmode⟩
      next => cases hfile

/-- What a round of the second loop can do. -/
theorem watchChunkSize_cases (s : Settings) (reads : Bool) :
    s.watchChunkSize reads = s ∨
      ∃ file ∈ s.sizeFile.content, ∃ size, atoi (trimSpace file) = some size ∧ 32 ≤ size ∧
        size ≤ 200 ∧ s.watchChunkSize reads =
          { s with lastSize := size, engine := s.engine.setChunkSize (Int64.ofInt size) } := by
  unfold Settings.watchChunkSize
  split
  next => exact Or.inl rfl
  next size hsize =>
    obtain ⟨file, hfile, hread⟩ := Option.bind_eq_some_iff.mp hsize
    split
    next => exact Or.inl rfl
    next hrange =>
      split
      next => exact Or.inl rfl
      next =>
        split at hfile
        next => exact Or.inr ⟨file, hfile, size, hread, by omega, by omega, rfl⟩
        next => cases hfile

theorem Settings.Sound.later {s : Settings} {events : List SettingsEvent} (h : s.Sound events)
    (e : SettingsEvent) : s.Sound (events ++ [e]) := by
  have hmodes := List.subset_append_left (chosenModes events) (chosenModes [e])
  have hsizes := List.subset_append_left (chosenSizes events) (chosenSizes [e])
  rw [← chosenModes_append] at hmodes
  rw [← chosenSizes_append] at hsizes
  refine ⟨h.modeFile.mono (List.map_subset _ hmodes), h.sizeFile.mono (List.map_subset _ hsizes),
    h.mode.imp id (fun hmem => hmodes hmem), h.size.imp id ?_⟩
  rintro ⟨size, hmem, hsize⟩
  exact ⟨size, hsizes hmem, hsize⟩

theorem Settings.Sound.step {s t : Settings} {events : List SettingsEvent} {e : SettingsEvent}
    (h : s.Sound events) (hs : settingsStep s e = some t) : t.Sound (events ++ [e]) := by
  have hlater := h.later e
  cases e with
  | setMode mode stage =>
    obtain ⟨file, hfile, rfl⟩ := Option.map_eq_some_iff.mp hs
    refine ⟨?_, hlater.sizeFile, hlater.mode, hlater.size⟩
    rw [chosenModes_append, List.map_append]
    exact h.modeFile.step hfile
  | setSize size stage =>
    obtain ⟨file, hfile, rfl⟩ := Option.map_eq_some_iff.mp hs
    refine ⟨hlater.modeFile, ?_, hlater.mode, hlater.size⟩
    rw [chosenSizes_append, List.map_append]
    exact h.sizeFile.step hfile
  | watchTransportMode reads =>
    obtain rfl := Option.some.inj hs
    rcases watchTransportMode_cases s reads with hsame | ⟨file, hfile, hnew⟩
    · rw [hsame]
      exact hlater
    · rw [hnew]
      exact ⟨hlater.modeFile, hlater.sizeFile,
        mode_of_overlaid (hlater.modeFile.content file hfile), hlater.size⟩
  | watchChunkSize reads =>
    obtain rfl := Option.some.inj hs
    rcases watchChunkSize_cases s reads with hsame | ⟨file, hfile, size, hread, hmin, hmax, hnew⟩
    · rw [hsame]
      exact hlater
    · obtain ⟨chosen, hchosen, hsize⟩ :=
        size_of_overlaid (hlater.sizeFile.content file hfile) hread hmax
      rw [hnew]
      refine ⟨hlater.modeFile, hlater.sizeFile, hlater.mode, Or.inr ⟨chosen, hchosen, ?_⟩⟩
      rw [← hsize]
      exact setChunkSize_inRange s.engine hmin hmax
  | rpcTransportMode mode =>
    obtain rfl := Option.some.inj hs
    refine ⟨hlater.modeFile, hlater.sizeFile, Or.inr ?_, hlater.size⟩
    rw [chosenModes_append]
    exact List.mem_append_right _ (List.mem_singleton_self mode)
  | rpcChunkSize size =>
    obtain rfl := Option.some.inj hs
    refine ⟨hlater.modeFile, hlater.sizeFile, hlater.mode, Or.inr ⟨size.toInt, ?_, ?_⟩⟩
    · rw [chosenSizes_append]
      exact List.mem_append_right _ (List.mem_singleton_self size.toInt)
    · exact setChunkSize_rpc s.engine size
  | restart =>
    obtain rfl := Option.some.inj hs
    exact ⟨hlater.modeFile, hlater.sizeFile, Or.inl rfl, Or.inl rfl⟩

private theorem sound_run {relays : List Bytes} {zone : Bytes} {events : List SettingsEvent}
    {s : Settings}
    (hrun : run settingsStep (.start relays zone) events = some s) : s.Sound events := by
  have hstart : (Settings.start relays zone).Sound [] :=
    ⟨holds_empty, holds_empty, Or.inl rfl, Or.inl rfl⟩
  exact run_taken (fun _ _ _ _ h hs => Settings.Sound.step h hs) hstart hrun

/-- Nothing but the loops has set the engine: it has what they applied last. -/
structure Settings.Applied (s : Settings) : Prop where
  mode : s.engine.transportMode = transportModeFromString s.lastMode
  size : s.lastSize = 0 ∨ s.engine.chunkSize.toInt = s.lastSize

def SettingsEvent.isRpc : SettingsEvent → Bool
  | .rpcTransportMode _ => true
  | .rpcChunkSize _ => true
  | _ => false

theorem Settings.Applied.step {s t : Settings} {e : SettingsEvent} (h : s.Applied)
    (he : e.isRpc = false) (hs : settingsStep s e = some t) : t.Applied := by
  cases e with
  | setMode mode stage =>
    obtain ⟨file, hfile, rfl⟩ := Option.map_eq_some_iff.mp hs
    exact ⟨h.mode, h.size⟩
  | setSize size stage =>
    obtain ⟨file, hfile, rfl⟩ := Option.map_eq_some_iff.mp hs
    exact ⟨h.mode, h.size⟩
  | watchTransportMode reads =>
    obtain rfl := Option.some.inj hs
    rcases watchTransportMode_cases s reads with hsame | ⟨file, -, hnew⟩
    · rw [hsame]
      exact h
    · rw [hnew]
      exact ⟨rfl, h.size⟩
  | watchChunkSize reads =>
    obtain rfl := Option.some.inj hs
    rcases watchChunkSize_cases s reads with hsame | ⟨file, -, size, -, hmin, hmax, hnew⟩
    · rw [hsame]
      exact h
    · rw [hnew]
      exact ⟨h.mode, Or.inr (setChunkSize_inRange s.engine hmin hmax)⟩
  | rpcTransportMode mode => cases he
  | rpcChunkSize size => cases he
  | restart =>
    obtain rfl := Option.some.inj hs
    exact ⟨(by decide : TransportMode.auto = transportModeFromString []), Or.inl rfl⟩

/-- After a round that reads the file, the engine has the mode that the file names. -/
theorem Settings.Applied.watchTransportMode {s : Settings} (h : s.Applied) {file : Bytes}
    (hfile : s.modeFile.content = some file) :
    (s.watchTransportMode true).engine.transportMode = transportModeFromString (trimSpace file) := by
  unfold Settings.watchTransportMode
  simp only [if_true, hfile]
  split
  next hsame =>
    rw [hsame]
    exact h.mode
  next => rfl

/-- After a round that reads a size in its range, the engine has that size. -/
theorem Settings.Applied.watchChunkSize {s : Settings} (h : s.Applied) {file : Bytes}
    (hfile : s.sizeFile.content = some file) {size : Int} (hread : atoi (trimSpace file) = some size)
    (hmin : 32 ≤ size) (hmax : size ≤ 200) :
    (s.watchChunkSize true).engine.chunkSize.toInt = size := by
  unfold Settings.watchChunkSize
  simp only [if_true, hfile, Option.bind_some, hread]
  rw [if_neg (by omega)]
  split
  next hsame =>
    rcases h.size with hzero | hsize
    · omega
    · exact hsize.trans hsame.symm
  next => exact setChunkSize_inRange s.engine hmin hmax

private theorem modeFromString_name (mode : TransportMode) :
    transportModeFromString (trimSpace mode.name) = mode := by
  cases mode <;> decide +kernel

private theorem atoi_sizeText (size : Int) :
    atoi (trimSpace (sizeText size)) = some (clampedSize size : Int) := by
  have hdigits : ∀ c ∈ sizeText size, isDigit c = true := isDigit_decimal _
  have hbounds := clampedSize_bounds size
  rw [trimSpace_visible (fun c hc => graphic_of_isDigit (hdigits c hc)), atoi_digits hdigits,
    sizeText, parseDigits_decimal, Option.bind_some, if_pos (by omega)]

/-- However the writes of the app and the reads of the daemon fall together, the engine never runs
with a setting that nobody chose: it has its default or one that the app or a client asked for, also
where it reads a file that is being written. And as long as the RPCs are not used, a choice that is
written without an interruption is in force after the next read. -/
theorem settings_as_chosen (relays : List Bytes) (zone : Bytes) {events : List SettingsEvent}
    {s : Settings} (hrun : run settingsStep (.start relays zone) events = some s) :
    (s.engine.transportMode = .auto ∨ s.engine.transportMode ∈ chosenModes events) ∧
    (s.engine.chunkSize = defaultChunkSize ∨
      ∃ size ∈ chosenSizes events, s.engine.chunkSize.toInt = clampedSize size) ∧
    ((∀ e ∈ events, e.isRpc = false) →
      (∀ mode, ∃ t, run settingsStep s [.setMode mode .opened, .setMode mode .wrote,
        .watchTransportMode true] = some t ∧ t.engine.transportMode = mode) ∧
      ∀ size, ∃ t, run settingsStep s [.setSize size .opened, .setSize size .wrote,
        .watchChunkSize true] = some t ∧ t.engine.chunkSize.toInt = clampedSize size) := by
  have hsound := sound_run hrun
  refine ⟨hsound.mode, hsound.size, ?_⟩
  intro hrpc
  have happlied : s.Applied :=
    run_guarded (fun _ _ _ h he hs => h.step he hs)
      ⟨(by decide : TransportMode.auto = transportModeFromString []), Or.inl rfl⟩
      (meets_of_forall hrpc _) hrun
  refine ⟨?_, ?_⟩
  · intro mode
    obtain ⟨f, g, hopen, hwrite, hcontent⟩ := write_alone s.modeFile mode.name
    have hwritten : ({ s with modeFile := g } : Settings).Applied := ⟨happlied.mode, happlied.size⟩
    refine ⟨({ s with modeFile := g } : Settings).watchTransportMode true, ?_, ?_⟩
    · simp [run, settingsStep, hopen, hwrite]
    · rw [hwritten.watchTransportMode hcontent, modeFromString_name]
  · intro size
    obtain ⟨f, g, hopen, hwrite, hcontent⟩ := write_alone s.sizeFile (sizeText size)
    have hwritten : ({ s with sizeFile := g } : Settings).Applied := ⟨happlied.mode, happlied.size⟩
    have hbounds := clampedSize_bounds size
    refine ⟨({ s with sizeFile := g } : Settings).watchChunkSize true, ?_, ?_⟩
    · simp [run, settingsStep, hopen, hwrite]
    · exact hwritten.watchChunkSize hcontent (atoi_sizeText size) (by omega) (by omega)

/-- The app writes 75 over the end of 150, which leaves 750: the size that was in force stays. -/
def overlappingSizes : List SettingsEvent :=
  [.setSize 100 .opened, .setSize 100 .wrote, .watchChunkSize true, .setSize 75 .opened,
    .setSize 150 .opened, .setSize 150 .wrote, .setSize 75 .wrote, .watchChunkSize true]

theorem settings_as_chosen_overlapping :
    ∃ s, run settingsStep (.start [] (lit "z.org")) overlappingSizes = some s ∧
      s.sizeFile.content = some (lit "750") ∧ s.engine.chunkSize = 100 ∧
      ∃ size ∈ chosenSizes overlappingSizes, s.engine.chunkSize.toInt = clampedSize size := by
  have hstate : (run settingsStep (.start [] (lit "z.org")) overlappingSizes).map
      (fun s => (s.sizeFile.content, s.engine.chunkSize)) = some (some (lit "750"), 100) := by
    decide +kernel
  obtain ⟨s, hrun, hs⟩ := Option.map_eq_some_iff.mp hstate
  obtain ⟨hfile, hsize⟩ := Prod.mk.inj hs
  refine ⟨s, hrun, hfile, hsize, ?_⟩
  have hnot : s.engine.chunkSize ≠ defaultChunkSize := by
    rw [hsize]
    decide
  exact (settings_as_chosen [] (lit "z.org") hrun).2.1.resolve_left hnot

end VRGram.Client
