import Mathlib.Algebra.Field.ZMod
import Mathlib.Algebra.Polynomial.RingDivision
import Mathlib.RingTheory.AdjoinRoot
import Mathlib.Tactic.LinearCombination

/-!
# Cyclic redundancy checks

A shift register of any width and feedback, fed with words of any smaller width, most significant
bit first. Words are polynomials over the field of two elements, and a step of the register is the
multiplication by `X` modulo the generator. So two messages of one length that leave the same
register differ by a multiple of the generator, which a short burst of errors is not if the
generator has a constant term, nor an odd number of errors if it vanishes at one.
-/
namespace VRGram.Lib.Crc

open Polynomial

set_option autoImplicit false

variable {v w : Nat}

/-! ## Words as polynomials -/

/-- A bit as a coefficient. -/
def coefficient (b : Bool) : ZMod 2 := if b then 1 else 0

private theorem coefficient_xor (a b : Bool) :
    coefficient (a ^^ b) = coefficient a + coefficient b := by
  revert a b
  decide

private theorem coefficient_eq_iff (a b : Bool) : coefficient a = coefficient b ↔ a = b := by
  revert a b
  decide

noncomputable def toPoly (r : BitVec w) : (ZMod 2)[X] :=
  ∑ i ∈ Finset.range w, monomial i (coefficient (r.getLsbD i))

theorem coeff_toPoly (r : BitVec w) (i : Nat) : (toPoly r).coeff i = coefficient (r.getLsbD i) := by
  rw [toPoly, finsetSum_coeff]
  simp only [coeff_monomial, Finset.sum_ite_eq', Finset.mem_range]
  split
  next => rfl
  next h => rw [BitVec.getLsbD_of_ge r i (not_lt.mp h), coefficient, if_neg Bool.false_ne_true]

theorem toPoly_xor (r s : BitVec w) : toPoly (r ^^^ s) = toPoly r + toPoly s := by
  ext i
  rw [coeff_add, coeff_toPoly, coeff_toPoly, coeff_toPoly, BitVec.getLsbD_xor, coefficient_xor]

theorem degree_toPoly_lt (r : BitVec w) : (toPoly r).degree < w := by
  rw [degree_lt_iff_coeff_zero]
  intro i hi
  rw [coeff_toPoly, BitVec.getLsbD_of_ge r i hi, coefficient, if_neg Bool.false_ne_true]

/-- A word at the upper end of a wider one. -/
theorem toPoly_shiftLeft (b : BitVec v) {k : Nat} (h : v + k ≤ w) :
    toPoly (b.setWidth w <<< k) = X ^ k * toPoly b := by
  ext i
  rw [coeff_toPoly, coeff_X_pow_mul', coeff_toPoly, BitVec.getLsbD_shiftLeft,
    BitVec.getLsbD_setWidth]
  by_cases hk : k ≤ i
  · by_cases hi : i < w
    · have hik : i - k < w := by omega
      simp [hk, hi, hik, Nat.not_lt.mpr hk]
    · have hv : v ≤ i - k := by omega
      simp [hk, hi, BitVec.getLsbD_of_ge b (i - k) hv]
  · simp [hk, Nat.not_le.mp hk, coefficient]

/-! ## The register -/

/-- One step of a register whose feedback is `g`. -/
def shift (g r : BitVec w) : BitVec w := if r.msb then (r <<< 1) ^^^ g else r <<< 1

noncomputable def generator (g : BitVec w) : (ZMod 2)[X] := X ^ w + toPoly g

private theorem degree_generator (g : BitVec w) : (generator g).degree = w := by
  have hlt : (toPoly g).degree < (X ^ w : (ZMod 2)[X]).degree := by
    rw [degree_X_pow]
    exact degree_toPoly_lt g
  rw [generator, degree_add_eq_left_of_degree_lt hlt, degree_X_pow]

private theorem monic_generator (g : BitVec w) : (generator g).Monic :=
  monic_X_pow_add (degree_toPoly_lt g)

theorem toPoly_shiftLeft_one (r : BitVec w) :
    toPoly (r <<< 1) = X * toPoly r + C (coefficient r.msb) * X ^ w := by
  ext i
  rw [coeff_toPoly, coeff_add, coeff_C_mul_X_pow, BitVec.getLsbD_shiftLeft]
  cases i with
  | zero =>
    rw [coeff_X_mul_zero, zero_add]
    split
    next h =>
      subst h
      simp [coefficient, BitVec.msb_eq_getLsbD_last]
    next => simp [coefficient]
  | succ i =>
    rw [coeff_X_mul, coeff_toPoly]
    rcases Nat.lt_trichotomy (i + 1) w with hlt | heq | hgt
    · simp [hlt, hlt.ne]
    · -- the bit that leaves the register is taken off again
      have hlast : w - 1 = i := by omega
      have htop : r.msb = r.getLsbD i := by rw [BitVec.msb_eq_getLsbD_last, hlast]
      rw [htop, if_pos heq]
      simp only [heq, lt_self_iff_false, decide_false, Bool.false_and]
      rw [CharTwo.add_self_eq_zero]
      rfl
    · have hout : r.getLsbD i = false := BitVec.getLsbD_of_ge r i (by omega)
      simp [hout, hgt.ne', coefficient]

/-- A step multiplies by `X`, up to a multiple of the generator. -/
theorem toPoly_shift (g r : BitVec w) :
    toPoly (shift g r) = X * toPoly r + C (coefficient r.msb) * generator g := by
  unfold shift generator
  cases hmsb : r.msb with
  | false => simp [toPoly_shiftLeft_one, hmsb, coefficient]
  | true =>
    have hone : C (coefficient true) = (1 : (ZMod 2)[X]) := C_1
    rw [if_pos rfl, toPoly_xor, toPoly_shiftLeft_one, hmsb, hone, one_mul, one_mul, add_assoc]

/-- The class of a polynomial modulo the generator. -/
noncomputable abbrev residue (g : BitVec w) : (ZMod 2)[X] →+* AdjoinRoot (generator g) :=
  AdjoinRoot.mk (generator g)

private theorem residue_shift (g r : BitVec w) :
    residue g (toPoly (shift g r)) = residue g X * residue g (toPoly r) := by
  rw [toPoly_shift, map_add, map_mul, map_mul, AdjoinRoot.mk_self, mul_zero, add_zero]

private theorem residue_shifts (g r : BitVec w) (n : Nat) :
    residue g (toPoly ((shift g)^[n] r)) = residue g X ^ n * residue g (toPoly r) := by
  induction n with
  | zero => simp
  | succ n ih => rw [Function.iterate_succ_apply', residue_shift, ih, pow_succ']; ring

/-- A word goes into the upper end of the register, which is then shifted by the width of the
word. -/
def feed (g r : BitVec w) (b : BitVec v) : BitVec w :=
  (shift g)^[v] (r ^^^ (b.setWidth w <<< (w - v)))

/-- The words of a message one after the other. -/
noncomputable def message (words : List (BitVec v)) : (ZMod 2)[X] :=
  words.foldl (fun p b => X ^ v * p + toPoly b) 0

theorem message_append (words : List (BitVec v)) (b : BitVec v) :
    message (words ++ [b]) = X ^ v * message words + toPoly b := by
  rw [message, List.foldl_append]
  rfl

private theorem residue_feed (g r : BitVec w) (b : BitVec v) (h : v ≤ w) :
    residue g (toPoly (feed g r b)) =
      residue g X ^ v * residue g (toPoly r) + residue g X ^ w * residue g (toPoly b) := by
  have hplace : v + (w - v) ≤ w := by omega
  have hpow : residue g X ^ v * residue g X ^ (w - v) = residue g X ^ w := by
    rw [← pow_add]
    congr 1
    omega
  rw [feed, residue_shifts, toPoly_xor, toPoly_shiftLeft b hplace, map_add, map_mul, map_pow,
    mul_add, ← mul_assoc, hpow]

/-- The register after a message is the message times `X ^ w`, and the start carried along. -/
theorem residue_register (g init : BitVec w) (h : v ≤ w) (words : List (BitVec v)) :
    residue g (toPoly (words.foldl (feed g) init)) =
      residue g X ^ (v * words.length) * residue g (toPoly init) +
        residue g X ^ w * residue g (message words) := by
  induction words using List.reverseRecOn with
  | nil => simp [message]
  | append_singleton words b ih =>
    rw [List.foldl_append, List.foldl_cons, List.foldl_nil, residue_feed g _ b h, ih,
      message_append, map_add, map_mul, map_pow, List.length_append, List.length_singleton,
      Nat.mul_add, Nat.mul_one, pow_add]
    ring

/-! ## Divisibility -/

theorem isCoprime_X_pow {R : Type} [CommRing R] {P : R[X]} (hP : P.coeff 0 = 1) (n : Nat) :
    IsCoprime P (X ^ n) := by
  apply IsCoprime.pow_right
  refine ⟨1, -P.divX, ?_⟩
  have hsplit := P.divX_mul_X_add
  rw [hP, C_1] at hsplit
  linear_combination -hsplit

/-- A monic polynomial with constant term one divides no burst that is shorter than its degree. -/
theorem eq_zero_of_burst {R : Type} [CommRing R] {P E : R[X]} (hmonic : P.Monic)
    (hP : P.coeff 0 = 1) (h : P ∣ E) {low : Nat} (hlow : ∀ d < low, E.coeff d = 0)
    (hhigh : ∀ d : Nat, P.degree ≤ d → E.coeff (d + low) = 0) : E = 0 := by
  obtain ⟨B, rfl⟩ := X_pow_dvd_iff.mpr hlow
  have hdvd : P ∣ B := (isCoprime_X_pow hP low).dvd_of_dvd_mul_left h
  have hzero : B = 0 := by
    by_contra hne
    have hdegree : P.degree ≤ B.degree :=
      not_lt.mp (fun hlt => hmonic.not_dvd_of_degree_lt hne hlt hdvd)
    rw [degree_eq_natDegree hne] at hdegree
    have htop := hhigh B.natDegree hdegree
    rw [coeff_X_pow_mul, coeff_natDegree, leadingCoeff_eq_zero] at htop
    exact hne htop
  rw [hzero, mul_zero]

/-- At one, a polynomial over two elements counts its terms. -/
theorem eval_one (p : (ZMod 2)[X]) : p.eval 1 = (p.support.card : ZMod 2) := by
  have hone : ∀ a : ZMod 2, a ≠ 0 → a = 1 := by decide
  rw [eval_eq_sum, sum_def, Finset.card_eq_sum_ones, Nat.cast_sum]
  refine Finset.sum_congr rfl (fun i hi => ?_)
  rw [hone _ (mem_support_iff.mp hi), one_pow, mul_one, Nat.cast_one]

/-- Messages of one length that leave the same register differ by a multiple of the generator. -/
theorem generator_dvd {g : BitVec w} (h : v ≤ w) (init : BitVec w) {words words' : List (BitVec v)}
    (hlen : words.length = words'.length)
    (heq : words.foldl (feed g) init = words'.foldl (feed g) init) :
    generator g ∣ X ^ w * (message words - message words') := by
  have hregister := residue_register g init h words
  rw [heq, residue_register g init h words', hlen, add_right_inj] at hregister
  have hproduct : residue g (X ^ w * (message words - message words')) = 0 := by
    rw [map_mul, map_pow, map_sub, mul_sub, hregister, sub_self]
  exact AdjoinRoot.mk_eq_zero.mp hproduct

private theorem coeff_zero_generator {g : BitVec w} (hg : g.getLsbD 0 = true) :
    (generator g).coeff 0 = 1 := by
  have hw : 0 ≠ w := by
    rintro rfl
    simp at hg
  rw [generator, coeff_add, coeff_X_pow, if_neg hw, coeff_toPoly, hg, zero_add]
  rfl

private theorem eval_one_generator (g : BitVec w) :
    (generator g).eval 1 =
      1 + (((Finset.range w).filter (fun i => g.getLsbD i)).card : ZMod 2) := by
  have hword : (toPoly g).eval 1 =
      (((Finset.range w).filter (fun i => g.getLsbD i)).card : ZMod 2) := by
    rw [toPoly, eval_finsetSum]
    simp [coefficient, Finset.sum_boole]
  rw [generator, eval_add, eval_pow, eval_X, one_pow, hword]

/-! ## Errors -/

/-- Bit `i` of a message, most significant first through the words. -/
def bitAt (words : List (BitVec v)) (i : Nat) : Bool :=
  match words[i / v]? with
  | some b => b.getMsbD (i % v)
  | none => false

private theorem bitAt_append_left (words : List (BitVec v)) (b : BitVec v) {i : Nat}
    (h : i < v * words.length) : bitAt (words ++ [b]) i = bitAt words i := by
  rw [bitAt, bitAt, List.getElem?_append_left (Nat.div_lt_of_lt_mul h)]

private theorem bitAt_append_right (words : List (BitVec v)) (b : BitVec v) {i : Nat} (h : i < v) :
    bitAt (words ++ [b]) (v * words.length + i) = b.getMsbD i := by
  have hdiv : (v * words.length + i) / v = words.length := by
    rw [Nat.mul_add_div (by omega), Nat.div_eq_of_lt h, Nat.add_zero]
  have hmod : (v * words.length + i) % v = i := by
    rw [Nat.mul_add_mod, Nat.mod_eq_of_lt h]
  rw [bitAt, hdiv, List.getElem?_concat_length]
  simp only [hmod]

theorem coeff_message (words : List (BitVec v)) (j : Nat) :
    (message words).coeff j =
      if j < v * words.length then coefficient (bitAt words (v * words.length - 1 - j)) else 0 := by
  induction words using List.reverseRecOn generalizing j with
  | nil => simp [message]
  | append_singleton words b ih =>
    have hlen : v * (words ++ [b]).length = v * words.length + v := by
      rw [List.length_append, List.length_singleton, Nat.mul_add, Nat.mul_one]
    rw [message_append, coeff_add, coeff_X_pow_mul', coeff_toPoly, hlen]
    by_cases hj : j < v
    · have hplace : v * words.length + v - 1 - j = v * words.length + (v - 1 - j) := by omega
      have hbit : b.getMsbD (v - 1 - j) = b.getLsbD j := by
        rw [BitVec.getMsbD_eq_getLsbD, show v - 1 - (v - 1 - j) = j by omega,
          decide_eq_true (by omega), Bool.true_and]
      rw [if_neg (Nat.not_le.mpr hj), zero_add, if_pos (by omega), hplace,
        bitAt_append_right words b (by omega), hbit]
    · have hzero : coefficient (b.getLsbD j) = 0 := by
        rw [BitVec.getLsbD_of_ge b j (Nat.not_lt.mp hj)]
        rfl
      have hplace : v * words.length + v - 1 - j = v * words.length - 1 - (j - v) := by omega
      rw [if_pos (Nat.not_lt.mp hj), ih, hzero, add_zero, hplace]
      by_cases hin : j - v < v * words.length
      · rw [if_pos hin, if_pos (by omega), bitAt_append_left words b (by omega)]
      · rw [if_neg hin, if_neg (by omega)]

/-- The positions in which two messages differ. -/
def flipped (words words' : List (BitVec v)) : Finset Nat :=
  (Finset.range (v * words.length)).filter (fun i => bitAt words i ≠ bitAt words' i)

section Flipped

variable {words words' : List (BitVec v)} (hlen : words.length = words'.length)
include hlen

/-- The difference has a term for each position, counted from the other end. -/
theorem mem_support_difference (d : Nat) :
    d ∈ (message words - message words').support ↔
      d < v * words.length ∧ v * words.length - 1 - d ∈ flipped words words' := by
  rw [mem_support_iff, coeff_sub, coeff_message, coeff_message, ← hlen, flipped, Finset.mem_filter,
    Finset.mem_range]
  by_cases hd : d < v * words.length
  · have hplace : v * words.length - 1 - d < v * words.length := by omega
    rw [if_pos hd, if_pos hd, sub_ne_zero, Ne, coefficient_eq_iff]
    simp only [hd, hplace, true_and]
  · rw [if_neg hd, if_neg hd, sub_self]
    simp only [hd, ne_eq, not_true_eq_false, false_and]

theorem card_support_difference :
    (message words - message words').support.card = (flipped words words').card := by
  have hrange : ∀ {i : Nat}, i ∈ flipped words words' → i < v * words.length := by
    intro i hi
    exact Finset.mem_range.mp (Finset.mem_filter.mp hi).1
  refine Finset.card_nbij' (fun d => v * words.length - 1 - d) (fun i => v * words.length - 1 - i)
    ?_ ?_ ?_ ?_
  · intro d hd
    exact ((mem_support_difference hlen d).mp hd).2
  · intro i hi
    have hlt := hrange hi
    have hback : v * words.length - 1 - (v * words.length - 1 - i) = i := by omega
    refine (mem_support_difference hlen (v * words.length - 1 - i)).mpr ⟨by omega, ?_⟩
    rw [hback]
    exact hi
  · intro d hd
    have hlt := ((mem_support_difference hlen d).mp hd).1
    show v * words.length - 1 - (v * words.length - 1 - d) = d
    omega
  · intro i hi
    have hlt := hrange hi
    show v * words.length - 1 - (v * words.length - 1 - i) = i
    omega

variable {g : BitVec w} (h : v ≤ w) (init : BitVec w)
include h

/-- Errors within as many bits as the register has are detected. -/
theorem register_ne_of_burst (hg : g.getLsbD 0 = true) (hsome : (flipped words words').Nonempty)
    {first : Nat} (hburst : ∀ i ∈ flipped words words', first ≤ i ∧ i < first + w) :
    words.foldl (feed g) init ≠ words'.foldl (feed g) init := by
  intro heq
  have hP := coeff_zero_generator hg
  have hdvd : generator g ∣ message words - message words' :=
    (isCoprime_X_pow hP w).dvd_of_dvd_mul_left (generator_dvd h init hlen heq)
  have hterm : ∀ {d : Nat}, (message words - message words').coeff d ≠ 0 →
      d < v * words.length ∧ first ≤ v * words.length - 1 - d ∧
        v * words.length - 1 - d < first + w := by
    intro d hd
    obtain ⟨hlt, hmem⟩ := (mem_support_difference hlen d).mp (mem_support_iff.mpr hd)
    exact ⟨hlt, hburst _ hmem⟩
  have hzero : message words - message words' = 0 := by
    refine @eq_zero_of_burst _ _ _ _ (monic_generator g) hP hdvd
      (v * words.length - (first + w)) ?_ ?_
    · intro d hd
      by_contra hne
      have hbounds := hterm hne
      omega
    · intro d hd
      rw [degree_generator, Nat.cast_le] at hd
      by_contra hne
      have hbounds := hterm hne
      omega
  have hcard := card_support_difference hlen
  rw [hzero, support_zero, Finset.card_empty] at hcard
  exact hsome.card_ne_zero hcard.symm

/-- An odd number of errors is detected. -/
theorem register_ne_of_odd
    (hg : Odd ((Finset.range w).filter (fun i => g.getLsbD i)).card)
    (hodd : Odd (flipped words words').card) :
    words.foldl (feed g) init ≠ words'.foldl (feed g) init := by
  intro heq
  have hroot : (generator g).eval 1 = 0 := by
    rw [eval_one_generator, ZMod.natCast_eq_one_iff_odd.mpr hg]
    rfl
  have hzero := eval_eq_zero_of_dvd_of_eval_eq_zero (generator_dvd h init hlen heq) hroot
  rw [eval_mul, eval_pow, eval_X, one_pow, one_mul, eval_one, card_support_difference hlen,
    ZMod.natCast_eq_one_iff_odd.mpr hodd] at hzero
  exact one_ne_zero hzero

end Flipped

end VRGram.Lib.Crc
