import Mathlib.Data.Nat.Notation

/-! # Digits in a base

A machine that reads digits from the left is driven by the digits of a number. If
each digit extends the value that it holds, it ends with the number and with the
count of its digits, and every value on the way is positive and at most the number.
-/

namespace Numeral

variable {b n : ℕ}

theorem toDigits_eq_append (hb : 1 < b) (h : b ≤ n) :
    Nat.toDigits b n = Nat.toDigits b (n / b) ++ [(n % b).digitChar] :=
  Nat.toDigits_of_base_le hb h

theorem length_toDigits_div (hb : 1 < b) (h : b ≤ n) :
    (Nat.toDigits b n).length = (Nat.toDigits b (n / b)).length + 1 := by
  rw [toDigits_eq_append hb h, List.length_append, List.length_singleton]

theorem exists_digitChar_of_mem (hb : 1 < b) {c : Char} (h : c ∈ Nat.toDigits b n) :
    ∃ d < b, c = d.digitChar := by
  induction n using Nat.strongRecOn with
  | _ n ih =>
    by_cases hlt : n < b
    · rw [Nat.toDigits_of_lt_base hlt, List.mem_singleton] at h
      exact ⟨n, hlt, h⟩
    · have hle : b ≤ n := Nat.le_of_not_lt hlt
      rw [toDigits_eq_append hb hle, List.mem_append, List.mem_singleton] at h
      rcases h with h | h
      · exact ih (n / b) (Nat.div_lt_self (by omega) hb) h
      · exact ⟨n % b, Nat.mod_lt n (by omega), h⟩

/-- Reading the digits of a number. `start` is the machine in front of the first digit, and
`read k v` the one that has read `k` digits of the value `v`. -/
theorem read_toDigits {γ : Type} (hb : 1 < b) (start : List Char → γ)
    (read : ℕ → ℕ → List Char → γ)
    (first : ∀ d < b, d ≤ n → ∀ rest, start (d.digitChar :: rest) = read 1 d rest)
    (next : ∀ k v d, k < (Nat.toDigits b n).length → 0 < v → d < b → b * v + d ≤ n →
      ∀ rest, read k v (d.digitChar :: rest) = read (k + 1) (b * v + d) rest)
    (rest : List Char) :
    start (Nat.toDigits b n ++ rest) = read (Nat.toDigits b n).length n rest := by
  -- the induction is on a number whose digits begin those of `n`
  have hprefix : ∀ m, m ≤ n → (Nat.toDigits b m).length ≤ (Nat.toDigits b n).length →
      ∀ rest, start (Nat.toDigits b m ++ rest) = read (Nat.toDigits b m).length m rest := by
    intro m
    induction m using Nat.strongRecOn with
    | _ m ih =>
      intro hm hlen rest
      by_cases hlt : m < b
      · rw [Nat.toDigits_of_lt_base hlt]
        exact first m hlt hm rest
      · have hle : b ≤ m := Nat.le_of_not_lt hlt
        have hdiv : m / b < m := Nat.div_lt_self (by omega) hb
        have hpos : 0 < m / b := Nat.div_pos hle (by omega)
        have hmod : m % b < b := Nat.mod_lt m (by omega)
        have hsum : b * (m / b) + m % b = m := Nat.div_add_mod m b
        have hcount := length_toDigits_div hb hle
        have ih := ih (m / b) hdiv (by omega) (by omega) ((m % b).digitChar :: rest)
        rw [toDigits_eq_append hb hle, List.append_assoc, List.singleton_append, ih,
          next _ _ _ (by omega) hpos hmod (by omega), hsum, List.length_append,
          List.length_singleton]
  exact hprefix n (Nat.le_refl _) (Nat.le_refl _) rest

end Numeral
