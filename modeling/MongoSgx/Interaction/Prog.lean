import Mathlib.Logic.Function.Basic

/-! # Programs that call an environment

A program ends with a value or an exception, calls its environment and goes on
with the reply, or enters a loop whose body is itself a program. An environment
is a relation between a call, the state before it, the reply and the state
after it. Small steps expose every call, so the same programs can be run alone
and interleaved.
-/

namespace Interaction

/-- Programs with calls `C`, replies `R` and exceptions `ε`. -/
inductive Prog (C : Type) (R : C → Type) (ε : Type) : Type → Type 1 where
  | pure {α : Type} (a : α) : Prog C R ε α
  | throw {α : Type} (e : ε) : Prog C R ε α
  | call {α : Type} (c : C) (k : R c → Prog C R ε α) : Prog C R ε α
  | loop {σ β α : Type} (body : σ → Prog C R ε (σ ⊕ β)) (x : σ) (k : β → Prog C R ε α) :
      Prog C R ε α

abbrev Env (C : Type) (R : C → Type) (S : Type) := (c : C) → S → R c → S → Prop

variable {C : Type} {R : C → Type} {ε S α β γ σ : Type}

namespace Prog

def bind : Prog C R ε α → (α → Prog C R ε β) → Prog C R ε β
  | .pure a, f => f a
  | .throw e, _ => .throw e
  | .call c k, f => .call c fun r => (k r).bind f
  | .loop body x k, f => .loop body x fun b => (k b).bind f

instance : Monad (Prog C R ε) where
  pure := .pure
  bind := .bind

def request (c : C) : Prog C R ε (R c) := .call c .pure

def ofExcept : Except ε α → Prog C R ε α
  | .ok a => .pure a
  | .error e => .throw e

/-- Run the body from a state until it answers with a value for the continuation. -/
def unroll (body : σ → Prog C R ε (σ ⊕ β)) (k : β → Prog C R ε α) (x : σ) : Prog C R ε α :=
  (body x).bind fun
    | .inl y => .loop body y k
    | .inr b => k b

@[simp] theorem pure_eq (a : α) : (Pure.pure a : Prog C R ε α) = .pure a := rfl

@[simp] theorem bind_eq (p : Prog C R ε α) (f : α → Prog C R ε β) : (p >>= f) = p.bind f := rfl

@[simp] theorem pure_bind (a : α) (f : α → Prog C R ε β) :
    (Prog.pure a : Prog C R ε α).bind f = f a := rfl

@[simp] theorem throw_bind (e : ε) (f : α → Prog C R ε β) :
    (Prog.throw e : Prog C R ε α).bind f = .throw e := rfl

@[simp] theorem call_bind (c : C) (k : R c → Prog C R ε α) (f : α → Prog C R ε β) :
    (Prog.call c k).bind f = .call c fun r => (k r).bind f := rfl

@[simp] theorem request_bind (c : C) (f : R c → Prog C R ε β) :
    (request c : Prog C R ε (R c)).bind f = .call c f := rfl

@[simp] theorem loop_bind {body : σ → Prog C R ε (σ ⊕ γ)} {x : σ} {k : γ → Prog C R ε α}
    (f : α → Prog C R ε β) :
    (Prog.loop body x k).bind f = .loop body x fun b => (k b).bind f := rfl

theorem bind_assoc (p : Prog C R ε α) (f : α → Prog C R ε β) (g : β → Prog C R ε γ) :
    (p.bind f).bind g = p.bind fun a => (f a).bind g := by
  induction p with
  | pure a => rfl
  | throw e => rfl
  | call c k ih => exact congrArg (Prog.call c) (funext fun r => ih r f)
  | loop body x k ihb ih => exact congrArg (Prog.loop body x) (funext fun b => ih b f)

theorem bind_pure (p : Prog C R ε α) : p.bind .pure = p := by
  induction p with
  | pure a => rfl
  | throw e => rfl
  | call c k ih => exact congrArg (Prog.call c) (funext ih)
  | loop body x k ihb ih => exact congrArg (Prog.loop body x) (funext ih)

theorem unroll_bind (body : σ → Prog C R ε (σ ⊕ γ)) (k : γ → Prog C R ε α) (x : σ)
    (f : α → Prog C R ε β) :
    (unroll body k x).bind f = unroll body (fun b => (k b).bind f) x := by
  unfold unroll
  rw [bind_assoc]
  congr 1
  funext r
  cases r <;> rfl

/-- One step: a call, labelled by itself, or the silent unrolling of a loop. -/
inductive Step (E : Env C R S) : Prog C R ε α → S → Option C → Prog C R ε α → S → Prop
  | call {c : C} {k : R c → Prog C R ε α} {s s' : S} {r : R c} (h : E c s r s') :
      Step E (.call c k) s (some c) (k r) s'
  | unroll {σ β : Type} {body : σ → Prog C R ε (σ ⊕ β)} {x : σ} {k : β → Prog C R ε α} {s : S} :
      Step E (.loop body x k) s none (unroll body k x) s

/-- Finitely many steps. -/
inductive Steps (E : Env C R S) : Prog C R ε α → S → Prog C R ε α → S → Prop
  | refl (p : Prog C R ε α) (s : S) : Steps E p s p s
  | head {p q p' : Prog C R ε α} {s t s' : S} {c : Option C} (h : Step E p s c q t)
      (hs : Steps E q t p' s') : Steps E p s p' s'

/-- The program can finish with the given result and final state. -/
def Evals (E : Env C R S) (p : Prog C R ε α) (s : S) (r : Except ε α) (s' : S) : Prop :=
  Steps E p s (ofExcept r) s'

variable {E : Env C R S} {p q : Prog C R ε α} {s t u : S}

theorem Steps.trans {p' : Prog C R ε α} (h : Steps E p s q t) (h' : Steps E q t p' u) :
    Steps E p s p' u := by
  induction h with
  | refl => exact h'
  | head h _ ih => exact .head h (ih h')

theorem Step.bind {c : Option C} (h : Step E p s c q t) (f : α → Prog C R ε β) :
    Step E (p.bind f) s c (q.bind f) t := by
  cases h with
  | call h => exact .call h
  | unroll => rw [unroll_bind]; exact .unroll

theorem Steps.bind (h : Steps E p s q t) (f : α → Prog C R ε β) :
    Steps E (p.bind f) s (q.bind f) t := by
  induction h with
  | refl => exact .refl _ _
  | head h _ ih => exact .head (h.bind f) ih

/-- A relation that every call can keep up carries a run to another environment. -/
theorem Steps.simulate {S' : Type} {E' : Env C R S'} {Rel : S → S' → Prop}
    (hE : ∀ c s r t s', E c s r t → Rel s s' → ∃ t', E' c s' r t' ∧ Rel t t')
    (h : Steps E p s q t) {s' : S'} (hs : Rel s s') : ∃ t', Steps E' p s' q t' ∧ Rel t t' := by
  induction h generalizing s' with
  | refl p s => exact ⟨s', .refl p s', hs⟩
  | head hstep _ ih =>
    cases hstep with
    | call hcall =>
      obtain ⟨u, hu, hrel⟩ := hE _ _ _ _ _ hcall hs
      obtain ⟨t', ht', hrel⟩ := ih hrel
      exact ⟨t', .head (.call hu) ht', hrel⟩
    | unroll =>
      obtain ⟨t', ht', hrel⟩ := ih hs
      exact ⟨t', .head .unroll ht', hrel⟩

theorem Evals.steps_bind {a : α} (h : Evals E p s (.ok a) t) (f : α → Prog C R ε β) :
    Steps E (p.bind f) s (f a) t :=
  Steps.bind h f

theorem Evals.bind {a : α} {r : Except ε β} {f : α → Prog C R ε β}
    (h : Evals E p s (.ok a) t) (h' : Evals E (f a) t r u) : Evals E (p.bind f) s r u :=
  (h.steps_bind f).trans h'

@[simp] theorem evals_pure_iff {a : α} {r : Except ε α} :
    Evals E (.pure a) s r t ↔ r = .ok a ∧ t = s := by
  constructor
  · intro h
    cases r with
    | ok b =>
      cases h with
      | refl => exact ⟨rfl, rfl⟩
      | head h _ => cases h
    | error e =>
      cases h with
      | head h _ => cases h
  · rintro ⟨rfl, rfl⟩
    exact .refl _ _

@[simp] theorem evals_throw_iff {e : ε} {r : Except ε α} :
    Evals E (.throw e) s r t ↔ r = .error e ∧ t = s := by
  constructor
  · intro h
    cases r with
    | ok b =>
      cases h with
      | head h _ => cases h
    | error e =>
      cases h with
      | refl => exact ⟨rfl, rfl⟩
      | head h _ => cases h
  · rintro ⟨rfl, rfl⟩
    exact .refl _ _

theorem evals_call_iff {c : C} {k : R c → Prog C R ε α} {r : Except ε α} :
    Evals E (.call c k) s r t ↔ ∃ x u, E c s x u ∧ Evals E (k x) u r t := by
  constructor
  · intro h
    cases r <;> cases h with
    | head h hs => cases h with
      | call hE => exact ⟨_, _, hE, hs⟩
  · rintro ⟨x, u, hE, h⟩
    exact .head (.call hE) h

/-- The program can come to make the call. -/
def Sends (E : Env C R S) (p : Prog C R ε α) (s : S) (c : C) : Prop :=
  ∃ (k : R c → Prog C R ε α) (t : S), Steps E p s (.call c k) t

@[simp] theorem not_sends_pure {a : α} {c : C} : ¬ Sends E (.pure a : Prog C R ε α) s c := by
  rintro ⟨k, t, h⟩
  cases h with
  | head h _ => cases h

@[simp] theorem not_sends_throw {e : ε} {c : C} : ¬ Sends E (.throw e : Prog C R ε α) s c := by
  rintro ⟨k, t, h⟩
  cases h with
  | head h _ => cases h

theorem sends_call_iff {c d : C} {k : R c → Prog C R ε α} :
    Sends E (.call c k) s d ↔ c = d ∨ ∃ x u, E c s x u ∧ Sends E (k x) u d := by
  constructor
  · rintro ⟨k', t, h⟩
    cases h with
    | refl => exact .inl rfl
    | head h hs => cases h with
      | call hE => exact .inr ⟨_, _, hE, k', t, hs⟩
  · rintro (rfl | ⟨x, u, hE, k', t, h⟩)
    · exact ⟨k, s, .refl _ _⟩
    · exact ⟨k', t, .head (.call hE) h⟩

theorem sends_bind_iff {f : α → Prog C R ε β} {c : C} :
    Sends E (p.bind f) s c ↔ Sends E p s c ∨ ∃ a t, Evals E p s (.ok a) t ∧ Sends E (f a) t c := by
  constructor
  · rintro ⟨k, t, h⟩
    -- induction on the steps: the first part is still running, or has just returned
    generalize hq : p.bind f = q at h
    generalize hr : Prog.call c k = q' at h
    induction h generalizing p with
    | refl q s =>
      subst hr
      cases p with
      | pure a =>
        refine .inr ⟨a, s, .refl _ _, k, s, ?_⟩
        rw [← hq]
        exact .refl _ _
      | throw e => cases hq
      | call d k' =>
        obtain ⟨rfl, -⟩ := Prog.call.inj hq
        exact .inl ⟨k', _, .refl _ _⟩
      | loop body x k' => cases hq
    | @head q q₁ q₂ s s₁ s₂ d h hs ih =>
      subst hq
      cases p with
      | pure a =>
        refine .inr ⟨a, s, .refl _ _, k, s₂, ?_⟩
        rw [hr]
        exact .head h hs
      | throw e => cases h
      | call d k' =>
        cases h with
        | call hE =>
          rcases ih rfl hr with ⟨k'', u, hs⟩ | ⟨a, u, hs, hc⟩
          · exact .inl ⟨k'', u, .head (.call hE) hs⟩
          · exact .inr ⟨a, u, .head (.call hE) hs, hc⟩
      | loop body x k' =>
        cases h with
        | unroll =>
          rcases ih (unroll_bind ..) hr with ⟨k'', u, hs⟩ | ⟨a, u, hs, hc⟩
          · exact .inl ⟨k'', u, .head .unroll hs⟩
          · exact .inr ⟨a, u, .head .unroll hs, hc⟩
  · rintro (⟨k, t, h⟩ | ⟨a, t, h, k, u, hc⟩)
    · exact ⟨_, t, h.bind f⟩
    · exact ⟨k, u, (h.steps_bind f).trans hc⟩

end Prog

end Interaction
