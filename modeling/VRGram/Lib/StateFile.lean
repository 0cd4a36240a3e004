import VRGram.Lib.Strings

/-!
# A state that is written to a file after every call

`os.WriteFile` truncates the file and then writes it, so that a crash or a full disk leaves a
beginning of the text; where the file cannot be opened it stays as it was. A restart loads the
file, and starts afresh where there is none or it cannot be read.
-/
namespace VRGram.Lib.StateFile

open VRGram.Lib.Strings

set_option autoImplicit false

/-- A kind of state, its calls, and what a restart is free to choose. -/
structure Keeper (σ ε κ : Type) where
  initial : σ
  update : σ → ε → σ
  text : σ → Bytes
  load : κ → Bytes → σ

/-- How a write ends; a cut one misses at least the last byte. -/
inductive Written where
  | refused
  | cut (n : Nat)
  | whole
  deriving DecidableEq

inductive FileEvent (ε κ : Type) where
  | call (e : ε) (written : Written)
  | restart (choice : κ)

structure Kept (σ : Type) where
  memory : σ
  file : Option Bytes

/-- The calls that the memory and the file stand for. -/
structure Remains (ε : Type) where
  memory : List ε
  file : List ε

variable {σ ε κ : Type}

def Written.leave (old : Option Bytes) (text : Bytes) : Written → Option Bytes
  | .refused => old
  | .cut n => some (text.dropLast.take n)
  | .whole => some text

def Keeper.step (K : Keeper σ ε κ) (s : Kept σ) : FileEvent ε κ → Kept σ
  | .call e written =>
    let memory := K.update s.memory e
    ⟨memory, written.leave s.file (K.text memory)⟩
  | .restart choice =>
    { s with memory := match s.file with
        | some text => K.load choice text
        | none => K.initial }

def Keeper.after (K : Keeper σ ε κ) (events : List (FileEvent ε κ)) : Kept σ :=
  events.foldl K.step ⟨K.initial, none⟩

/-- A cut write loses every call; a refused one loses none that the file has. -/
def Remains.step (r : Remains ε) : FileEvent ε κ → Remains ε
  | .call e written => ⟨r.memory ++ [e], match written with
      | .refused => r.file
      | .cut _ => []
      | .whole => r.memory ++ [e]⟩
  | .restart _ => { r with memory := r.file }

def remains (events : List (FileEvent ε κ)) : Remains ε := events.foldl Remains.step ⟨[], []⟩

/-- What is asked of a state that stands for some calls. -/
structure Durable (K : Keeper σ ε κ) (Stands : List ε → σ → Prop) : Prop where
  initial : Stands [] K.initial
  update : ∀ es s e, Stands es s → Stands (es ++ [e]) (K.update s e)
  load : ∀ es s e choice, Stands es s →
    Stands (es ++ [e]) (K.load choice (K.text (K.update s e)))
  cut : ∀ s e choice n, K.load choice ((K.text (K.update s e)).dropLast.take n) = K.initial

/-- Whatever the next restart chooses, it finds what the file stands for. -/
structure Found (K : Keeper σ ε κ) (Stands : List ε → σ → Prop) (s : Kept σ) (r : Remains ε) :
    Prop where
  memory : Stands r.memory s.memory
  file : ∀ choice, Stands r.file (K.step s (.restart choice)).memory

theorem Found.step {K : Keeper σ ε κ} {Stands : List ε → σ → Prop} (hK : Durable K Stands)
    {s : Kept σ} {r : Remains ε} (h : Found K Stands s r) (e : FileEvent ε κ) :
    Found K Stands (K.step s e) (r.step e) := by
  cases e with
  | call e written =>
    refine ⟨hK.update _ _ e h.memory, fun choice => ?_⟩
    cases written with
    | refused => exact h.file choice
    | cut n =>
      show Stands [] (K.load choice ((K.text (K.update s.memory e)).dropLast.take n))
      rw [hK.cut]
      exact hK.initial
    | whole => exact hK.load _ _ e choice h.memory
  | restart choice => exact ⟨h.file choice, h.file⟩

/-- After any calls, refused or cut writes and restarts the memory stands for the calls that
remain. -/
theorem Durable.after {K : Keeper σ ε κ} {Stands : List ε → σ → Prop} (hK : Durable K Stands)
    (events : List (FileEvent ε κ)) :
    Stands (remains events).memory (K.after events).memory := by
  have hrun : ∀ (s : Kept σ) (r : Remains ε), Found K Stands s r →
      Found K Stands (events.foldl K.step s) (events.foldl Remains.step r) := by
    induction events with
    | nil => exact fun _ _ h => h
    | cons e events ih => exact fun s r h => ih _ _ (h.step hK e)
  exact (hrun _ _ ⟨hK.initial, fun _ => hK.initial⟩).memory

end VRGram.Lib.StateFile
