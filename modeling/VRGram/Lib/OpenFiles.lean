import Mathlib.Logic.Function.Basic
import VRGram.Lib.Maps
import VRGram.Lib.Strings

/-!
# Files behind descriptors

A directory gives names to inodes. Who has opened a file works on the inode, at a position of
its own: another opening with `O_TRUNC` empties the file under it, and a write behind the end
leaves a hole of zeros. Several writers of one text are harmless all the same: below the
position of the writer that emptied the file last, the file and the text agree.
-/
namespace VRGram.Lib.OpenFiles

open VRGram.Lib.Maps VRGram.Lib.Strings

set_option autoImplicit false

/-! ## One file -/

/-- `b` written at a position. -/
def writeAt (file : Bytes) (position : Nat) (b : Bytes) : Bytes :=
  file.take position ++ List.replicate (position - file.length) 0 ++ b ++
    file.drop (position + b.length)

private theorem writeAt_length (file : Bytes) (position : Nat) (b : Bytes) :
    (writeAt file position b).length = max file.length (position + b.length) := by
  simp only [writeAt, List.length_append, List.length_take, List.length_replicate, List.length_drop]
  omega

/-- What a write leaves at each position. -/
theorem getElem?_writeAt (file : Bytes) (position : Nat) (b : Bytes) (j : Nat) :
    (writeAt file position b)[j]? =
      if position ≤ j ∧ j < position + b.length then b[j - position]?
      else if j < file.length then file[j]?
      else if j < position then some 0 else none := by
  simp only [writeAt, List.getElem?_append, List.length_append, List.length_take,
    List.length_replicate, List.getElem?_take, List.getElem?_replicate, List.getElem?_drop]
  split_ifs <;> first | rfl | omega | (congr 1; omega) | (simp_all; omega)

/-- `n` bytes of the text from a position on. -/
def slice (text : Bytes) (position n : Nat) : Bytes := (text.drop position).take n

private theorem getElem?_slice (text : Bytes) (position n j : Nat) :
    (slice text position n)[j]? = if j < n then text[position + j]? else none := by
  simp [slice, List.getElem?_take]

theorem slice_length (text : Bytes) (position n : Nat) :
    (slice text position n).length = min n (text.length - position) := by
  simp [slice]

/-- The file has come no further than the text, and up to `position` it is the text. -/
structure WrittenUpTo (text file : Bytes) (position : Nat) : Prop where
  short : file.length ≤ text.length
  agrees : ∀ j < position, file[j]? = text[j]?

theorem writtenUpTo_nil (text : Bytes) : WrittenUpTo text [] 0 :=
  ⟨Nat.zero_le _, fun j hj => absurd hj (Nat.not_lt_zero j)⟩

section

variable {text file : Bytes} {position : Nat}

/-- A slice of the text in its place leaves what was right and is right itself. -/
theorem WrittenUpTo.write (h : WrittenUpTo text file position) {start n upTo : Nat}
    (hfits : start + n ≤ text.length) (hup : ∀ j < upTo, j < position ∨ (start ≤ j ∧ j < start + n)) :
    WrittenUpTo text (writeAt file start (slice text start n)) upTo := by
  have hshort := h.short
  have hlen : (slice text start n).length = n := by
    rw [slice_length]
    omega
  constructor
  · rw [writeAt_length, hlen]
    omega
  · intro j hj
    rw [getElem?_writeAt, hlen]
    by_cases hin : start ≤ j ∧ j < start + n
    · rw [if_pos hin, getElem?_slice, if_pos (by omega)]
      congr 1
      omega
    · have hagrees := h.agrees j ((hup j hj).resolve_right hin)
      rw [if_neg hin]
      by_cases hfile : j < file.length
      · rw [if_pos hfile, hagrees]
      · -- the text has no byte here either, so the slice ends before
        rw [if_neg hfile, ← hagrees, List.getElem?_eq_none (by omega), if_neg]
        have hnone := List.getElem?_eq_none_iff.mp (hagrees.symm.trans (List.getElem?_eq_none (by omega)))
        omega

/-- Once the text is written, the file is the text. -/
theorem WrittenUpTo.complete (h : WrittenUpTo text file text.length) : file = text := by
  apply List.ext_getElem?
  intro j
  by_cases hj : j < text.length
  · exact h.agrees j hj
  · have hshort := h.short
    rw [List.getElem?_eq_none (by omega), List.getElem?_eq_none (by omega)]

end

/-! ## A directory -/

structure Inode where
  data : Bytes
  modTime : Int
  deriving DecidableEq

/-- The names of a directory, and the inodes behind them and behind open files. The inodes
from `next` on are not in use, and no inode has two names. -/
structure Disk (ν : Type) [DecidableEq ν] where
  names : GoMap ν Nat
  inodes : Nat → Inode
  next : Nat
  names_lt : ∀ name i, names.lookup name = some i → i < next
  names_inj : ∀ a b i, names.lookup a = some i → names.lookup b = some i → a = b

namespace Disk

variable {ν : Type} [DecidableEq ν] (d : Disk ν)

/-- The inode that an opening for writing gets. -/
def target (name : ν) : Nat := (d.names.lookup name).getD d.next

theorem target_lt (name : ν) : d.target name < d.next + 1 := by
  unfold target
  cases h : d.names.lookup name with
  | none => exact Nat.lt_succ_self d.next
  | some i => exact Nat.lt_succ_of_lt (d.names_lt name i h)

theorem target_of_lookup {name : ν} {i : Nat} (h : d.names.lookup name = some i) :
    d.target name = i := by
  rw [target, h]
  rfl

/-- No other name has the inode. -/
theorem target_ne {name other : ν} {i : Nat} (h : d.names.lookup other = some i)
    (hne : other ≠ name) : i ≠ d.target name := by
  intro heq
  unfold target at heq
  cases hname : d.names.lookup name with
  | none =>
    rw [hname, Option.getD_none] at heq
    exact Nat.lt_irrefl _ (heq ▸ d.names_lt other i h)
  | some j =>
    rw [hname, Option.getD_some] at heq
    exact hne (d.names_inj other name i h (heq ▸ hname))

/-- `os.OpenFile` with `O_WRONLY|O_CREATE|O_TRUNC`. -/
def create (name : ν) (now : Int) : Disk ν where
  names := d.names.insert name (d.target name)
  inodes := Function.update d.inodes (d.target name) ⟨[], now⟩
  next := d.next + 1
  names_lt := by
    intro other i h
    rw [lookup_insert_ite] at h
    split at h
    · obtain rfl := Option.some.inj h
      exact d.target_lt name
    · exact Nat.lt_succ_of_lt (d.names_lt other i h)
  names_inj := by
    intro a b i ha hb
    rw [lookup_insert_ite] at ha hb
    split at ha <;> split at hb
    · simp_all
    · obtain rfl := Option.some.inj ha
      exact absurd rfl (d.target_ne hb (by assumption))
    · obtain rfl := Option.some.inj hb
      exact absurd rfl (d.target_ne ha (by assumption))
    · exact d.names_inj a b i ha hb

/-- A write through a descriptor. -/
def write (i position : Nat) (b : Bytes) (now : Int) : Disk ν :=
  { d with inodes := Function.update d.inodes i ⟨writeAt (d.inodes i).data position b, now⟩ }

/-- `os.Remove`. -/
def remove (name : ν) : Disk ν where
  names := d.names.erase name
  inodes := d.inodes
  next := d.next
  names_lt := fun other i h => d.names_lt other i (lookup_erase_eq_some.mp h).2
  names_inj := fun a b i ha hb =>
    d.names_inj a b i (lookup_erase_eq_some.mp ha).2 (lookup_erase_eq_some.mp hb).2

/-- A directory without files. -/
def empty : Disk ν where
  names := ∅
  inodes := fun _ => ⟨[], 0⟩
  next := 0
  names_lt := fun name i h => by cases h
  names_inj := fun a b i h => by cases h

end Disk

end VRGram.Lib.OpenFiles
