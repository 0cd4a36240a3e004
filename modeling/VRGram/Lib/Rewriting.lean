import Mathlib.Data.List.Basic

/-!
# Files that are rewritten in place

A text is written into a file by truncating it and then writing from the start on. Two writers
have positions of their own, so the shorter of two texts leaves the tail of the longer one behind
it. Such a mixture is as unreadable as an empty file, and only its length matters.
-/
namespace VRGram.Lib.Rewriting

set_option autoImplicit false

/-- What a file holds: the text of one value, or an unreadable text of some length. -/
inductive Content (α : Type) where
  | whole (a : α)
  | broken (length : Nat)
  deriving DecidableEq

namespace Content

variable {α : Type} (size : α → Nat)

def length : Content α → Nat
  | whole a => size a
  | broken n => n

def truncated : Content α := broken 0

/-- The text of `a` written over what the file holds. -/
def write (c : Content α) (a : α) : Content α :=
  if c.length size ≤ size a then whole a else broken (c.length size)

/-- A writer that is not disturbed leaves its text. -/
theorem write_truncated (a : α) : truncated.write size a = whole a := if_pos (Nat.zero_le _)

/-- A file that can be read holds a value with the property. -/
def Within (p : α → Prop) : Content α → Prop
  | whole a => p a
  | broken _ => True

theorem within_truncated (p : α → Prop) : (truncated : Content α).Within p := trivial

theorem within_write {p : α → Prop} {a : α} (h : p a) (c : Content α) :
    (c.write size a).Within p := by
  unfold write
  split
  · exact h
  · trivial

theorem Within.mono {p q : α → Prop} (h : ∀ a, p a → q a) {c : Content α} (hc : c.Within p) :
    c.Within q := by
  cases c with
  | whole a => exact h a hc
  | broken n => trivial

end Content

end VRGram.Lib.Rewriting
