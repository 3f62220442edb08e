import Mathlib.Data.Nat.Notation
import MongoSgx.Interaction.Prog

/-! # Judgements on programs

The logics of programs that call an environment differ in what they ask of a call, and
agree in all else. A judgement is sound for a rule of calls if the rule lets it pass
from what follows a call to the call. A program that comes to an end by the rule, with
what is asserted there, can be judged by what follows its end, in all those logics.
-/

namespace Interaction

variable {C : Type} {R : C → Type} {ε α β γ σ T : Type}

/-- What is asked of a call in a state, for the reply and the next state to be as asserted. -/
structure CallRule (C : Type) (R : C → Type) (T : Type) where
  pre : (c : C) → T → (R c → T → Prop) → Prop
  mono : ∀ {c t} {Φ Ψ : R c → T → Prop}, pre c t Φ → (∀ r u, Φ r u → Ψ r u) → pre c t Ψ

namespace CallRule

/-- The judgement follows the rule. -/
def Sound (W : CallRule C R T) (J : Prog C R ε γ → T → Prop) : Prop :=
  ∀ {c t} {k : R c → Prog C R ε γ}, W.pre c t (fun r u => J (k r) u) → J (.call c k) t

/-- The program ends by the rule and as asserted: every judgement that follows the rule passes to
it from what follows such an end. -/
def Ends (W : CallRule C R T) (Q : Except ε α → T → Prop) (p : Prog C R ε α) (t : T) : Prop :=
  ∀ (γ : Type) (J : Prog C R ε γ → T → Prop), W.Sound J → ∀ f : α → Prog C R ε γ,
    (∀ a u, Q (.ok a) u → J (f a) u) → (∀ e u, Q (.error e) u → J (.throw e) u) → J (p.bind f) t

def Quiet (W : CallRule C R T) (silent : C → Prop) (A : T → Prop) : Prop :=
  ∀ c t, silent c → A t → W.pre c t fun _ u => A u

/-- What a round of a loop is to end in, for the loop to be judged. -/
def roundEnd (J : Prog C R ε γ → T → Prop) (k : β → Prog C R ε γ) (I : σ → T → Prop) :
    Except ε (σ ⊕ β) → T → Prop
  | .ok (.inl y), t => I y t
  | .ok (.inr b), t => J (k b) t
  | .error e, t => J (.throw e) t

def Loops (W : CallRule C R T) (J : Prog C R ε γ → T → Prop) : Prop :=
  ∀ {σ β : Type} {body : σ → Prog C R ε (σ ⊕ β)} {k : β → Prog C R ε γ} {I : σ → T → Prop},
    (∀ x t, I x t → W.Ends (roundEnd J k I) (body x) t) → ∀ {x t}, I x t → J (.loop body x k) t

/-- A loop is judged by its first round and what comes after it. -/
def Unrolls (J : Prog C R ε γ → T → Prop) : Prop :=
  ∀ {σ β : Type} {body : σ → Prog C R ε (σ ⊕ β)} {k : β → Prog C R ε γ} {x t},
    J (Prog.unroll body k x) t → J (.loop body x k) t

variable {W : CallRule C R T} {J : Prog C R ε γ → T → Prop} {Q Q' : Except ε α → T → Prop}
  {A : T → Prop} {p : Prog C R ε α} {t : T}

theorem ends_pure {a : α} (h : Q (.ok a) t) : W.Ends Q (.pure a) t :=
  fun _ _ _ _ hok _ => hok a t h

theorem ends_throw {e : ε} (h : Q (.error e) t) : W.Ends Q (.throw e) t :=
  fun _ _ _ _ _ herr => herr e t h

theorem ends_ofExcept {r : Except ε α} (h : Q r t) : W.Ends Q (Prog.ofExcept r) t := by
  cases r with
  | ok a => exact ends_pure h
  | error e => exact ends_throw h

theorem Ends.mono (h : W.Ends Q p t) (hQ : ∀ r u, Q r u → Q' r u) : W.Ends Q' p t :=
  fun _ _ hJ f hok herr =>
    h _ _ hJ f (fun a u ha => hok a u (hQ _ _ ha)) fun e u he => herr e u (hQ _ _ he)

theorem Ends.bind {Q : Except ε β → T → Prop} {f : α → Prog C R ε β} (h : W.Ends Q' p t)
    (hok : ∀ a u, Q' (.ok a) u → W.Ends Q (f a) u)
    (herr : ∀ e u, Q' (.error e) u → Q (.error e) u) : W.Ends Q (p.bind f) t := by
  intro γ J hJ g hg hge
  rw [Prog.bind_assoc]
  exact h _ _ hJ _ (fun a u ha => hok a u ha _ _ hJ g hg hge) fun e u he => hge e u (herr e u he)

theorem ends_call {c : C} {k : R c → Prog C R ε α} {Φ : R c → T → Prop} (h : W.pre c t Φ)
    (hk : ∀ r u, Φ r u → W.Ends Q (k r) u) : W.Ends Q (.call c k) t :=
  fun _ _ hJ f hok herr => hJ (W.mono h fun r u hr => hk r u hr _ _ hJ f hok herr)

theorem Quiet.ends_call {silent : C → Prop} (hA : W.Quiet silent A) (ha : A t) {c : C}
    (hc : silent c) {k : R c → Prog C R ε α} (h : ∀ r u, A u → W.Ends Q (k r) u) :
    W.Ends Q (.call c k) t := CallRule.ends_call (hA c t hc ha) h

theorem Quiet.judged {silent : C → Prop} (hA : W.Quiet silent A) (ha : A t) (hJ : W.Sound J) {c : C}
    (hc : silent c) {k : R c → Prog C R ε γ} (h : ∀ r u, A u → J (k r) u) : J (.call c k) t :=
  hJ (W.mono (hA c t hc ha) h)

theorem Quiet.exists {silent : C → Prop} {ι : Sort*} {A : ι → T → Prop}
    (hA : ∀ i, W.Quiet silent (A i)) : W.Quiet silent fun t => ∃ i, A i t :=
  fun c t hc ⟨i, ha⟩ => W.mono (hA i c t hc ha) fun _ _ hu => ⟨i, hu⟩

theorem Quiet.and {silent : C → Prop} {φ : Prop} (hA : W.Quiet silent A) :
    W.Quiet silent fun t => φ ∧ A t :=
  fun c t hc ⟨hφ, ha⟩ => W.mono (hA c t hc ha) fun _ _ hu => ⟨hφ, hu⟩

theorem Ends.judged {Q : Except ε γ → T → Prop} {p : Prog C R ε γ} (h : W.Ends Q p t)
    (hJ : W.Sound J) (hQ : ∀ r u, Q r u → J (Prog.ofExcept r) u) : J p t := by
  rw [← Prog.bind_pure p]
  exact h _ _ hJ .pure (fun a => hQ (.ok a)) fun e => hQ (.error e)

/-- The loop rule: an invariant, and a measure that every further round decreases. -/
theorem Sound.loop_measure (hJ : W.Sound J) (hU : Unrolls J) {body : σ → Prog C R ε (σ ⊕ β)}
    {k : β → Prog C R ε γ} (I : σ → T → Prop) (m : σ → T → ℕ)
    (hbody : ∀ x t, I x t → W.Ends (roundEnd J k fun y u => I y u ∧ m y u < m x t) (body x) t)
    {x : σ} {t : T} (hI : I x t) : J (.loop body x k) t := by
  -- strong induction on the measure: one round of the body either leaves or decreases it
  induction hn : m x t using Nat.strongRecOn generalizing x t with
  | ind n ih =>
    subst hn
    refine hU (hbody x t hI _ J hJ _ ?_ fun e u he => he)
    rintro (y | b) u h
    · exact ih _ h.2 h.1 rfl
    · exact h

end CallRule

end Interaction
