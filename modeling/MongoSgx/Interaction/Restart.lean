import MongoSgx.Interaction.Rely

/-! # Programs that are started again

A program that is cut off anywhere leaves a state behind, and the next one starts
from what a restart makes of it. What each program is asked to keep, at every call
and wherever it is cut off, is kept by any number of them.
-/

namespace Interaction

variable {C : Type} {R : C → Type} {ε S α β : Type}

/-- The program keeps the invariant wherever it is cut off, makes its calls where it may, and ends
in the postcondition. -/
structure Asks (E : Env C R S) (I : S → Prop) (φ : C → S → Prop) (Q : Except ε α → S → Prop)
    (p : Prog C R ε α) (s : S) : Prop where
  kept : ∀ q t, p.Steps E s q t → I t
  asked : ∀ c k t, p.Steps E s (.call c k) t → φ c t
  ended : ∀ r t, p.Evals E s r t → Q r t

/-- The program is started over and over, each time from what a restart makes of the state where
it was cut off. -/
inductive Restarted (E : Env C R S) (p : Prog C R ε α) (restart : S → S) : S → S → Prop
  | nil (s : S) : Restarted E p restart s s
  | snoc {s t u : S} {q : Prog C R ε α} (h : Restarted E p restart s t) (hs : p.Steps E t q u) :
      Restarted E p restart s (restart u)

variable {E : Env C R S} {I : S → Prop} {φ : C → S → Prop} {Q Q' : Except ε α → S → Prop}
  {p : Prog C R ε α} {s t : S}

theorem Asks.pure {a : α} (hI : I s) (hQ : Q (.ok a) s) : Asks E I φ Q (.pure a) s where
  kept q t h := by
    cases h with
    | refl => exact hI
    | head h => cases h
  asked c k t h := by
    cases h with
    | head h => cases h
  ended r t h := by
    obtain ⟨rfl, rfl⟩ := Prog.evals_pure_iff.mp h
    exact hQ

theorem Asks.throw {e : ε} (hI : I s) (hQ : Q (.error e) s) : Asks E I φ Q (.throw e) s where
  kept q t h := by
    cases h with
    | refl => exact hI
    | head h => cases h
  asked c k t h := by
    cases h with
    | head h => cases h
  ended r t h := by
    obtain ⟨rfl, rfl⟩ := Prog.evals_throw_iff.mp h
    exact hQ

theorem Asks.call {c : C} {k : R c → Prog C R ε α} (hI : I s) (hφ : φ c s)
    (h : ∀ r t, E c s r t → Asks E I φ Q (k r) t) : Asks E I φ Q (.call c k) s where
  kept q t hs := by
    cases hs with
    | refl => exact hI
    | head hstep hs =>
      cases hstep with
      | call hE => exact (h _ _ hE).kept q t hs
  asked d f t hs := by
    cases hs with
    | refl => exact hφ
    | head hstep hs =>
      cases hstep with
      | call hE => exact (h _ _ hE).asked d f t hs
  ended r t hr := by
    obtain ⟨x, u, hE, hr⟩ := Prog.evals_call_iff.mp hr
    exact (h x u hE).ended r t hr

theorem Asks.mono (h : Asks E I φ Q p s) (hQ : ∀ r t, Q r t → Q' r t) : Asks E I φ Q' p s :=
  ⟨h.kept, h.asked, fun r t hr => hQ r t (h.ended r t hr)⟩

theorem Prog.Steps.bind_cases {f : α → Prog C R ε β} {q : Prog C R ε β}
    (h : (p.bind f).Steps E s q t) : (∃ p', q = p'.bind f ∧ p.Steps E s p' t) ∨
      ∃ a u, p.Evals E s (.ok a) u ∧ (f a).Steps E u q t := by
  generalize hp : p.bind f = p₀ at h
  induction h generalizing p with
  | refl p₀ s => exact .inl ⟨p, hp.symm, .refl p s⟩
  | @head p₀ p₁ p₂ s s₁ s₂ c hstep hs ih =>
    subst hp
    cases p with
    | pure a => exact .inr ⟨a, s, .refl _ _, .head hstep hs⟩
    | throw e => cases hstep
    | call c k =>
      cases hstep with
      | call hE =>
        rcases ih rfl with ⟨p', hp', hs'⟩ | ⟨a, u, hr, hs'⟩
        · exact .inl ⟨p', hp', .head (.call hE) hs'⟩
        · exact .inr ⟨a, u, .head (.call hE) hr, hs'⟩
    | loop body x k =>
      cases hstep with
      | unroll =>
        rcases ih (Prog.unroll_bind ..) with ⟨p', hp', hs'⟩ | ⟨a, u, hr, hs'⟩
        · exact .inl ⟨p', hp', .head .unroll hs'⟩
        · exact .inr ⟨a, u, .head .unroll hr, hs'⟩

def thenAsks (E : Env C R S) (I : S → Prop) (φ : C → S → Prop) (Q : Except ε β → S → Prop)
    (f : α → Prog C R ε β) : Except ε α → S → Prop
  | .ok a, s => Asks E I φ Q (f a) s
  | .error e, s => Q (.error e) s

theorem Asks.bind {Q : Except ε β → S → Prop} {f : α → Prog C R ε β}
    (h : Asks E I φ (thenAsks E I φ Q f) p s) : Asks E I φ Q (p.bind f) s := by
  have hrest : ∀ a u, p.Evals E s (.ok a) u → Asks E I φ Q (f a) u :=
    fun a u hr => h.ended (.ok a) u hr
  refine ⟨fun q t hs => ?_, fun c k t hs => ?_, fun r t hr => ?_⟩
  · rcases hs.bind_cases with ⟨p', -, hs⟩ | ⟨a, u, hr, hs⟩
    · exact h.kept p' t hs
    · exact (hrest a u hr).kept q t hs
  · rcases hs.bind_cases with ⟨p', hp', hs⟩ | ⟨a, u, hr, hs⟩
    · cases p' with
      | pure a => exact (hrest a t hs).asked c k t (hp' ▸ .refl _ _)
      | throw e => cases hp'
      | call d g =>
        obtain ⟨rfl, -⟩ := Prog.call.inj hp'
        exact h.asked c g t hs
      | loop body x g => cases hp'
    · exact (hrest a u hr).asked c k t hs
  · rcases Prog.Steps.bind_cases hr with ⟨p', hp', hs⟩ | ⟨a, u, hr', hs⟩
    · cases p' with
      | pure a =>
        have hfa : f a = .ofExcept r := hp'.symm
        have hr' : (f a).Evals E t r t := by
          rw [hfa]
          exact .refl _ _
        exact (hrest a t hs).ended r t hr'
      | throw e =>
        cases r with
        | ok b => cases hp'
        | error e' =>
          obtain rfl := Prog.throw.inj hp'
          exact h.ended (.error _) t hs
      | call d g => cases r <;> cases hp'
      | loop body x g => cases r <;> cases hp'
    · exact (hrest a u hr').ended r t hs

/-- What every start from the invariant keeps, any number of them keep. -/
theorem Restarted.invariant {restart : S → S} (hasks : ∀ s, I s → Asks E I φ Q p s)
    (hrestart : ∀ s, I s → I (restart s)) (h : Restarted E p restart s t) (hs : I s) : I t := by
  induction h with
  | nil => exact hs
  | snoc _ hsteps ih => exact hrestart _ ((hasks _ ih).kept _ _ hsteps)

end Interaction
