import Mathlib.Data.List.Induction
import Mathlib.Data.List.Nodup
import Mathlib.Data.Nat.Notation

/-! # Ledgers of acquired resources

A ledger lists, in order, which resources are acquired, used and released. It
keeps the discipline when nothing is acquired while it is held, and nothing is
used or released while it is not. The live list is a monitor for this: it runs
along the ledger and stops at the first entry that is not permitted.
-/

namespace Ledger

variable {ρ : Type} [DecidableEq ρ]

inductive Entry (ρ : Type) where
  | acquire (r : ρ)
  | use (r : ρ)
  | release (r : ρ)
  deriving DecidableEq

/-- Acquired, and not released since. -/
def Held (es : List (Entry ρ)) (r : ρ) : Prop :=
  es.count (.release r) < es.count (.acquire r)

def Permitted (es : List (Entry ρ)) : Entry ρ → Prop
  | .acquire r => ¬ Held es r
  | .use r | .release r => Held es r

def Disciplined (es : List (Entry ρ)) : Prop :=
  ∀ before e after, es = before ++ e :: after → Permitted before e

theorem disciplined_nil : Disciplined ([] : List (Entry ρ)) := by
  intro before e after h
  cases before <;> cases h

theorem disciplined_concat {es : List (Entry ρ)} {e : Entry ρ} :
    Disciplined (es ++ [e]) ↔ Disciplined es ∧ Permitted es e := by
  constructor
  · intro h
    constructor
    · rintro before f after rfl
      exact h before f (after ++ [e]) (by simp)
    · exact h es e [] rfl
  · rintro ⟨h, he⟩ before f after heq
    -- the entry is the new one, or one of the old ones
    rcases List.eq_nil_or_concat after with rfl | ⟨after, g, rfl⟩
    · obtain ⟨rfl, hf⟩ := List.append_inj' heq rfl
      obtain rfl : e = f := List.singleton_inj.mp hf
      exact he
    · rw [List.concat_eq_append, ← List.cons_append, ← List.append_assoc] at heq
      exact h before f after (List.append_inj' heq rfl).1

def step (live : List ρ) : Entry ρ → Option (List ρ)
  | .acquire r => if r ∈ live then none else some (r :: live)
  | .use r => if r ∈ live then some live else none
  | .release r => if r ∈ live then some (live.erase r) else none

/-- The live resources after some entries, if every one of them is permitted. -/
def run : List (Entry ρ) → List ρ → Option (List ρ)
  | [], live => some live
  | e :: es, live => (step live e).bind (run es)

theorem run_append (es fs : List (Entry ρ)) (live : List ρ) :
    run (es ++ fs) live = (run es live).bind (run fs) := by
  induction es generalizing live with
  | nil => rfl
  | cons e es ih =>
    simp only [List.cons_append, run]
    cases step live e with
    | none => rfl
    | some live => exact ih live

/-- The monitor knows what is held: every resource was released as often as it was acquired,
and the live ones once less. -/
structure Balances (es : List (Entry ρ)) (live : List ρ) : Prop where
  nodup : live.Nodup
  count (r : ρ) : es.count (.acquire r) = es.count (.release r) + live.count r

variable {es : List (Entry ρ)} {live live' : List ρ} {e : Entry ρ}

theorem Balances.held_iff (h : Balances es live) (r : ρ) : Held es r ↔ r ∈ live := by
  unfold Held
  rw [h.count r, ← List.count_pos_iff]
  omega

theorem Balances.permitted_iff (h : Balances es live) :
    Permitted es e ↔ ∃ live', step live e = some live' := by
  cases e <;> simp [Permitted, step, h.held_iff]

theorem Balances.step (h : Balances es live) (he : step live e = some live') :
    Balances (es ++ [e]) live' := by
  cases e with
  | acquire r =>
    by_cases hr : r ∈ live
    · simp [Ledger.step, hr] at he
    · obtain rfl : r :: live = live' := by simpa [Ledger.step, hr] using he
      constructor
      · exact List.nodup_cons.mpr ⟨hr, h.nodup⟩
      · intro q
        have hq := h.count q
        by_cases hqr : r = q <;> simp [hqr] <;> omega
  | use r =>
    by_cases hr : r ∈ live
    · obtain rfl : live = live' := by simpa [Ledger.step, hr] using he
      constructor
      · exact h.nodup
      · intro q
        simpa using h.count q
    · simp [Ledger.step, hr] at he
  | release r =>
    by_cases hr : r ∈ live
    · obtain rfl : live.erase r = live' := by simpa [Ledger.step, hr] using he
      constructor
      · exact h.nodup.erase r
      · intro q
        have hq := h.count q
        have hone : live.count r = 1 := List.count_eq_one_of_mem h.nodup hr
        by_cases hqr : r = q
        · subst hqr
          simp [List.count_erase_self]
          omega
        · have hqr' : q ≠ r := Ne.symm hqr
          simp [List.count_erase_of_ne hqr', hqr]
          omega
    · simp [Ledger.step, hr] at he

theorem balances_nil : Balances ([] : List (Entry ρ)) [] := by
  constructor
  · exact List.nodup_nil
  · intro r
    rfl

theorem balances_of_run (h : run es [] = some live) : Balances es live := by
  induction es using List.reverseRecOn generalizing live with
  | nil =>
    obtain rfl := Option.some.inj h
    exact balances_nil
  | append_singleton es e ih =>
    rw [run_append] at h
    obtain ⟨mid, hmid, he⟩ := Option.bind_eq_some_iff.mp h
    obtain ⟨live₁, he₁, hrest⟩ := Option.bind_eq_some_iff.mp he
    obtain rfl := Option.some.inj hrest
    exact (ih hmid).step he₁

/-- The monitor accepts exactly the ledgers that keep the discipline. -/
theorem disciplined_iff : Disciplined es ↔ run es [] ≠ none := by
  induction es using List.reverseRecOn with
  | nil => simp [run, disciplined_nil]
  | append_singleton es e ih =>
    rw [disciplined_concat, ih, run_append]
    cases hmid : run es [] with
    | none => simp
    | some mid =>
      rw [(balances_of_run hmid).permitted_iff]
      cases hstep : step mid e <;> simp [run, hstep]

instance : Decidable (Disciplined es) := decidable_of_iff _ disciplined_iff.symm

end Ledger
