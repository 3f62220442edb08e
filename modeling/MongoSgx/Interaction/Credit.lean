import Mathlib.Algebra.Ring.Nat
import Mathlib.Data.List.Induction
import MongoSgx.Interaction.Transcript

/-! # Paying for exchanges

Every exchange has a price, and the reply in it may bring something in. A program that
never makes a call it cannot afford stays within its budget and what it has earned,
however long it runs.
-/

namespace Interaction

variable {C : Type} {R : C → Type}

/-- What an exchange costs, and what it brings in. -/
structure Tariff (C : Type) (R : C → Type) where
  price : Exchange C R → ℕ
  credit : Exchange C R → ℕ

namespace Tariff

def spent (T : Tariff C R) (log : List (Exchange C R)) : ℕ := (log.map T.price).sum

def earned (T : Tariff C R) (log : List (Exchange C R)) : ℕ := (log.map T.credit).sum

def Affords (T : Tariff C R) (budget n : ℕ) (log : List (Exchange C R)) : Prop :=
  T.spent log + n ≤ budget + T.earned log

variable {T : Tariff C R} {budget m n : ℕ} {log : List (Exchange C R)} {x : Exchange C R}

@[simp] theorem spent_append (T : Tariff C R) (log log' : List (Exchange C R)) :
    T.spent (log ++ log') = T.spent log + T.spent log' := by
  simp [spent]

@[simp] theorem earned_append (T : Tariff C R) (log log' : List (Exchange C R)) :
    T.earned (log ++ log') = T.earned log + T.earned log' := by
  simp [earned]

@[simp] theorem spent_cons (T : Tariff C R) (x : Exchange C R) (log : List (Exchange C R)) :
    T.spent (x :: log) = T.price x + T.spent log := List.sum_cons

@[simp] theorem earned_cons (T : Tariff C R) (x : Exchange C R) (log : List (Exchange C R)) :
    T.earned (x :: log) = T.credit x + T.earned log := List.sum_cons

@[simp] theorem spent_nil (T : Tariff C R) : T.spent [] = 0 := rfl

@[simp] theorem earned_nil (T : Tariff C R) : T.earned [] = 0 := rfl

theorem affords_nil (h : n ≤ budget) : T.Affords budget n [] := by
  simpa [Affords] using h

theorem Affords.mono (h : T.Affords budget n log) (hmn : m ≤ n) : T.Affords budget m log :=
  Nat.le_trans (Nat.add_le_add_left hmn _) h

theorem Affords.snoc (h : T.Affords budget n log) (hmn : m + T.price x ≤ n + T.credit x) :
    T.Affords budget m (log ++ [x]) := by
  simp only [Affords, spent_append, earned_append, spent_cons, earned_cons, spent_nil,
    earned_nil] at h ⊢
  omega

def Leaves (T : Tariff C R) (budget n : ℕ) (log : List (Exchange C R)) : Prop :=
  budget + T.earned log ≤ T.spent log + n

theorem leaves_nil (h : budget ≤ n) : T.Leaves budget n [] := by
  simpa [Leaves] using h

theorem Leaves.snoc (h : T.Leaves budget n log) (hmn : n + T.credit x ≤ m + T.price x) :
    T.Leaves budget m (log ++ [x]) := by
  simp only [Leaves, spent_append, earned_append, spent_cons, earned_cons, spent_nil,
    earned_nil] at h ⊢
  omega

theorem affords_of_paid (h : ∀ l x l', log = l ++ x :: l' → 0 < T.price x →
    T.Affords budget (T.price x) l) : T.Affords budget 0 log := by
  induction log using List.reverseRecOn with
  | nil => exact affords_nil (Nat.zero_le _)
  | append_singleton log x ih =>
    rcases Nat.eq_zero_or_pos (T.price x) with hx | hx
    · have hlog : T.Affords budget 0 log := by
        apply ih
        rintro l y l' rfl
        exact h l y (l' ++ [x]) (by simp)
      exact hlog.snoc (by omega)
    · exact (h log x [] rfl hx).snoc (by omega)

end Tariff

end Interaction
