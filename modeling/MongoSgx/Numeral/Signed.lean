import Mathlib.Data.Int.Notation
import Mathlib.Data.Nat.Notation

/-! # Decimal numbers in a signed machine type

A run of decimal digits is read by accumulating its value on the negative side,
one multiplication and one subtraction for each digit, and by negating the result
at the end if the number is positive. In a signed type whose least value is at
least as far from zero as its greatest one this goes without overflow exactly
when the number that was read belongs to the type.
-/

namespace Numeral

/-- A signed machine type, by its least and greatest values. -/
structure SignedType where
  lo : ℤ
  hi : ℤ
  hi_nonneg : 0 ≤ hi
  lo_le : lo ≤ -hi

/-- The number that a run of decimal digits denotes, with its sign. -/
def signedNumber (negative : Bool) (digits : List Char) : ℤ :=
  if negative then -(Nat.ofDigitChars 10 digits 0 : ℤ) else Nat.ofDigitChars 10 digits 0

def digit (c : Char) : ℤ := ((c.toNat - '0'.toNat : ℕ) : ℤ)

theorem le_ofDigitChars (digits : List Char) (m : ℕ) : m ≤ Nat.ofDigitChars 10 digits m := by
  induction digits generalizing m with
  | nil => simp
  | cons c digits ih =>
    rw [Nat.ofDigitChars_cons]
    have h := ih (10 * m + (c.toNat - '0'.toNat))
    omega

namespace SignedType

variable (T : SignedType)

/-- The result of an arithmetic operation in the type; `none` is an overflow. -/
def check (n : ℤ) : Option ℤ := if T.lo ≤ n ∧ n ≤ T.hi then some n else none

/-- One more digit: a multiplication and a subtraction. -/
def push (value : ℤ) (c : Char) : Option ℤ := do
  let value ← T.check (value * 10)
  T.check (value - digit c)

def accumulate (value : ℤ) (digits : List Char) : Option ℤ := digits.foldlM T.push value

/-- A whole number, with the negation that ends a positive one. -/
def read (negative : Bool) (digits : List Char) : Option ℤ := do
  let value ← T.accumulate 0 digits
  if negative then return value else T.check (-value)

variable {T}

theorem check_of_mem {n : ℤ} (h : T.lo ≤ n ∧ n ≤ T.hi) : T.check n = some n := if_pos h

theorem check_eq_none_iff {n : ℤ} : T.check n = none ↔ n < T.lo ∨ T.hi < n := by
  unfold check
  split
  · simp
    omega
  · simp
    omega

theorem push_neg (m : ℕ) (c : Char) :
    T.push (-(m : ℤ)) c = T.check (-((10 * m + (c.toNat - '0'.toNat) : ℕ) : ℤ)) := by
  have hhi := T.hi_nonneg
  have hsub : -(m : ℤ) * 10 - digit c = -((10 * m + (c.toNat - '0'.toNat) : ℕ) : ℤ) := by
    rw [digit]
    omega
  unfold push
  by_cases hmul : T.lo ≤ -(m : ℤ) * 10
  · have hle : -(m : ℤ) * 10 ≤ T.hi := by omega
    rw [check_of_mem ⟨hmul, hle⟩, Option.bind_eq_bind, Option.bind_some, hsub]
  · have hmul_none : T.check (-(m : ℤ) * 10) = none := check_eq_none_iff.mpr (.inl (by omega))
    have hsub_none : T.check (-((10 * m + (c.toNat - '0'.toNat) : ℕ) : ℤ)) = none :=
      check_eq_none_iff.mpr (.inl (by omega))
    rw [hmul_none, hsub_none]
    rfl

theorem accumulate_neg (digits : List Char) (m : ℕ) (hm : T.lo ≤ -(m : ℤ)) :
    T.accumulate (-(m : ℤ)) digits = T.check (-(Nat.ofDigitChars 10 digits m : ℤ)) := by
  have hhi := T.hi_nonneg
  induction digits generalizing m with
  | nil =>
    have hle : -(m : ℤ) ≤ T.hi := by omega
    simp [accumulate, check_of_mem ⟨hm, hle⟩]
  | cons c digits ih =>
    rw [accumulate, List.foldlM_cons, push_neg, Nat.ofDigitChars_cons]
    by_cases hpush : T.lo ≤ -((10 * m + (c.toNat - '0'.toNat) : ℕ) : ℤ)
    · have hle : -((10 * m + (c.toNat - '0'.toNat) : ℕ) : ℤ) ≤ T.hi := by omega
      rw [check_of_mem ⟨hpush, hle⟩, Option.bind_eq_bind, Option.bind_some]
      exact ih _ hpush
    · -- the accumulated number only grows, so the overflow is one of the whole run
      have hgrow := le_ofDigitChars digits (10 * m + (c.toNat - '0'.toNat))
      have hpush_none : T.check (-((10 * m + (c.toNat - '0'.toNat) : ℕ) : ℤ)) = none :=
        check_eq_none_iff.mpr (.inl (by omega))
      have hrun_none : T.check
          (-(Nat.ofDigitChars 10 digits (10 * m + (c.toNat - '0'.toNat)) : ℤ)) = none :=
        check_eq_none_iff.mpr (.inl (by omega))
      rw [hpush_none, hrun_none]
      rfl

theorem read_eq (negative : Bool) (digits : List Char) :
    T.read negative digits = T.check (signedNumber negative digits) := by
  have hhi := T.hi_nonneg
  have hlo := T.lo_le
  have hacc : T.accumulate 0 digits = T.check (-(Nat.ofDigitChars 10 digits 0 : ℤ)) := by
    have h := accumulate_neg (T := T) digits 0 (by simp; omega)
    simpa using h
  unfold read
  rw [hacc]
  cases negative with
  | true =>
    simp only [signedNumber, ↓reduceIte, Option.bind_eq_bind, Option.pure_def]
    cases T.check (-(Nat.ofDigitChars 10 digits 0 : ℤ)) <;> rfl
  | false =>
    simp only [signedNumber, Bool.false_eq_true, ↓reduceIte, Option.bind_eq_bind]
    by_cases h : T.lo ≤ -(Nat.ofDigitChars 10 digits 0 : ℤ)
    · rw [check_of_mem ⟨h, by omega⟩, Option.bind_some, Int.neg_neg]
    · have hneg : T.check (-(Nat.ofDigitChars 10 digits 0 : ℤ)) = none :=
        check_eq_none_iff.mpr (.inl (by omega))
      have hpos : T.check (Nat.ofDigitChars 10 digits 0 : ℤ) = none :=
        check_eq_none_iff.mpr (.inr (by omega))
      rw [hneg, hpos]
      rfl

end SignedType

end Numeral
