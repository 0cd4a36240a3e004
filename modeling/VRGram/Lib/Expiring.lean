import Mathlib.Data.List.Basic
import Mathlib.Logic.Function.Basic

/-!
# Maps with last writers and expiry

What a map that forgets old keys is for, said by its history alone: a key comes to life with
the first write to it, keeps every write in order, and is forgotten by a sweep once its
first write is too old. What a reader finds is the last write of the kind they ask for.
-/
namespace VRGram.Lib.Expiring

set_option autoImplicit false

/-- When a key came to life and what was written to it since, oldest first. -/
structure Lifetime (V : Type) where
  born : Int
  writes : List V

abbrev History (K V : Type) := K → Option (Lifetime V)

variable {K V : Type}

/-- One more write, the first one if the key is not alive. -/
def extend (now : Int) (v : V) : Option (Lifetime V) → Lifetime V
  | none => ⟨now, [v]⟩
  | some life => { life with writes := life.writes ++ [v] }

def write [DecidableEq K] (h : History K V) (now : Int) (k : K) (v : V) : History K V :=
  Function.update h k (some (extend now v (h k)))

def Lifetime.Old (ttl now : Int) (life : Lifetime V) : Prop := now - life.born > ttl

instance (ttl now : Int) (life : Lifetime V) : Decidable (life.Old ttl now) :=
  inferInstanceAs (Decidable (_ > _))

def sweep (h : History K V) (ttl now : Int) : History K V :=
  fun k => (h k).filter (fun life => ¬ life.Old ttl now)

/-- The last write of the kind `p`. -/
def Lifetime.latest (p : V → Bool) (life : Lifetime V) : Option V := life.writes.reverse.find? p

theorem write_self [DecidableEq K] (h : History K V) (now : Int) (k : K) (v : V) :
    write h now k v k = some (extend now v (h k)) :=
  Function.update_self k _ h

theorem write_ne [DecidableEq K] (h : History K V) (now : Int) {k j : K} (hj : j ≠ k) (v : V) :
    write h now k v j = h j :=
  Function.update_of_ne hj _ h

theorem latest_extend (p : V → Bool) (now : Int) (v : V) (life : Option (Lifetime V)) :
    (extend now v life).latest p = if p v then some v else life.bind (Lifetime.latest p) := by
  cases life with
  | none =>
    rw [extend, Lifetime.latest, List.reverse_singleton, List.find?_singleton]
    rfl
  | some life =>
    rw [extend, Lifetime.latest, List.reverse_append, List.reverse_singleton, List.singleton_append,
      List.find?_cons]
    cases p v <;> rfl

theorem sweep_eq_some {h : History K V} {ttl now : Int} {k : K} {life : Lifetime V} :
    sweep h ttl now k = some life ↔ h k = some life ∧ ¬ life.Old ttl now := by
  rw [sweep, Option.filter_eq_some_iff, decide_eq_true_iff]

end VRGram.Lib.Expiring
