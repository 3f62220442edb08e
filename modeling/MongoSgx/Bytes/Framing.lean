import Mathlib.Data.Nat.Notation

/-! # Concatenations without separators

The plain concatenation of a list of pairs forgets where its parts begin and end.
It determines the list as soon as the lengths are known in advance: lists whose
parts have the same lengths, as far as both go on, are equal when their
concatenations are.
-/

namespace Bytes

variable {β : Type}

/-- The bytes of a list of pairs, one after the other. -/
def concat (l : List (List β × List β)) : List β := l.flatMap fun e => e.1 ++ e.2

@[simp] theorem concat_nil : concat ([] : List (List β × List β)) = [] := rfl

@[simp] theorem concat_cons (e : List β × List β) (l : List (List β × List β)) :
    concat (e :: l) = e.1 ++ e.2 ++ concat l := by simp [concat]

@[simp] theorem concat_append (l m : List (List β × List β)) :
    concat (l ++ m) = concat l ++ concat m := by simp [concat]

/-- Corresponding parts have the same lengths, and what one list has more does not begin with
an empty entry. -/
def Aligned : List (List β × List β) → List (List β × List β) → Prop
  | [], [] => True
  | [], e :: _ => e.1 ++ e.2 ≠ []
  | e :: _, [] => e.1 ++ e.2 ≠ []
  | e :: l, f :: m => e.1.length = f.1.length ∧ e.2.length = f.2.length ∧ Aligned l m

theorem concat_inj_of_aligned : ∀ {l m : List (List β × List β)}, Aligned l m →
    concat l = concat m → l = m
  | [], [], _, _ => rfl
  | [], e :: m, ha, h => by
      rw [concat_nil, concat_cons] at h
      exact absurd (List.append_eq_nil_iff.mp h.symm).1 ha
  | e :: l, [], ha, h => by
      rw [concat_nil, concat_cons] at h
      exact absurd (List.append_eq_nil_iff.mp h).1 ha
  | e :: l, f :: m, ⟨h₁, h₂, ha⟩, h => by
      rw [concat_cons, concat_cons, List.append_assoc, List.append_assoc] at h
      obtain ⟨hef, h⟩ := List.append_inj h h₁
      obtain ⟨hef', h⟩ := List.append_inj h h₂
      rw [Prod.ext hef hef', concat_inj_of_aligned ha h]

theorem aligned_of_lengths :
    ∀ {l m : List (List β × List β)}, (∀ e ∈ l, e.1 ≠ []) → (∀ e ∈ m, e.1 ≠ []) →
      (∀ e ∈ l, ∀ f ∈ m, e.1.length = f.1.length ∧ e.2.length = f.2.length) → Aligned l m
  | [], [], _, _, _ => trivial
  | [], e :: _, _, hm, _ => fun h => hm e (List.mem_cons_self ..) (List.append_eq_nil_iff.mp h).1
  | e :: _, [], hl, _, _ => fun h => hl e (List.mem_cons_self ..) (List.append_eq_nil_iff.mp h).1
  | e :: l, f :: m, hl, hm, h => by
      obtain ⟨h₁, h₂⟩ := h e (List.mem_cons_self ..) f (List.mem_cons_self ..)
      refine ⟨h₁, h₂, aligned_of_lengths ?_ ?_ ?_⟩
      · exact fun x hx => hl x (List.mem_cons_of_mem _ hx)
      · exact fun x hx => hm x (List.mem_cons_of_mem _ hx)
      · exact fun x hx y hy => h x (List.mem_cons_of_mem _ hx) y (List.mem_cons_of_mem _ hy)

end Bytes
