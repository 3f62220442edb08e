import MongoSgx.Interaction.Judgement

/-! # Total correctness of a program that runs alone

`Wp E Q p s` says that every run of `p` from `s` ends, whatever the environment
answers, and that its result and final state satisfy `Q`. Being inductive, it
rules out infinite runs; loops are proved with an invariant and a measure.
-/

namespace Interaction

variable {C : Type} {R : C → Type} {ε S α β σ : Type}

inductive Wp (E : Env C R S) (Q : Except ε α → S → Prop) : Prog C R ε α → S → Prop
  | pure {a : α} {s : S} (h : Q (.ok a) s) : Wp E Q (.pure a) s
  | throw {e : ε} {s : S} (h : Q (.error e) s) : Wp E Q (.throw e) s
  | call {c : C} {k : R c → Prog C R ε α} {s : S} (h : ∀ r s', E c s r s' → Wp E Q (k r) s') :
      Wp E Q (.call c k) s
  | loop {σ β : Type} {body : σ → Prog C R ε (σ ⊕ β)} {x : σ} {k : β → Prog C R ε α} {s : S}
      (h : Wp E Q (Prog.unroll body k x) s) : Wp E Q (.loop body x k) s

variable {E : Env C R S} {Q Q' : Except ε α → S → Prop} {p : Prog C R ε α} {s s' : S}

@[simp] theorem wp_pure_iff {a : α} : Wp E Q (.pure a) s ↔ Q (.ok a) s :=
  ⟨fun | .pure h => h, .pure⟩

theorem Wp.mono (h : Wp E Q p s) (hQ : ∀ r s, Q r s → Q' r s) : Wp E Q' p s := by
  induction h with
  | pure h => exact .pure (hQ _ _ h)
  | throw h => exact .throw (hQ _ _ h)
  | call _ ih => exact .call ih
  | loop _ ih => exact .loop ih

/-- The postcondition a prefix needs when a continuation follows. -/
def andThen (E : Env C R S) (Q : Except ε β → S → Prop) (f : α → Prog C R ε β) :
    Except ε α → S → Prop
  | .ok a, s => Wp E Q (f a) s
  | .error e, s => Q (.error e) s

@[simp] theorem andThen_ok {Q : Except ε β → S → Prop} {f : α → Prog C R ε β} {a : α} :
    andThen E Q f (.ok a) s = Wp E Q (f a) s := rfl

theorem Wp.bind {Q : Except ε β → S → Prop} {f : α → Prog C R ε β}
    (h : Wp E (andThen E Q f) p s) : Wp E Q (p.bind f) s := by
  induction h with
  | pure h => exact h
  | throw h => exact .throw h
  | call _ ih => exact .call ih
  | loop _ ih =>
    apply Wp.loop
    rw [← Prog.unroll_bind]
    exact ih

/-- What one round of a loop owes: `J` if it goes round again, else what the exit needs. -/
def roundPost (Q : Except ε α → S → Prop) (exit : β → S → Prop) (J : σ → S → Prop) :
    Except ε (σ ⊕ β) → S → Prop
  | .ok (.inl y), s => J y s
  | .ok (.inr b), s => exit b s
  | .error e, s => Q (.error e) s

def Env.rule (E : Env C R S) : CallRule C R S where
  pre c s Φ := ∀ r s', E c s r s' → Φ r s'
  mono h hΦ r s' hE := hΦ r s' (h r s' hE)

theorem sound_wp : E.rule.Sound (Wp E Q) := fun h => .call h

theorem unrolls_wp : CallRule.Unrolls (Wp E Q) := fun h => .loop h

theorem Wp.ofExcept {r : Except ε α} (h : Q r s) : Wp E Q (Prog.ofExcept r) s := by
  cases r with
  | ok a => exact .pure h
  | error e => exact .throw h

theorem CallRule.Ends.wp (h : E.rule.Ends Q p s) : Wp E Q p s :=
  h.judged sound_wp fun _ _ hr => .ofExcept hr

theorem Wp.of_evals {r : Except ε α} (h : Wp E Q p s) (hr : p.Evals E s r s') : Q r s' := by
  induction h with
  | pure h =>
    cases r with
    | ok a => cases hr with
      | refl => exact h
      | head hs _ => cases hs
    | error e => cases hr with
      | head hs _ => cases hs
  | throw h =>
    cases r with
    | ok a => cases hr with
      | head hs _ => cases hs
    | error e => cases hr with
      | refl => exact h
      | head hs _ => cases hs
  | call _ ih =>
    cases r <;> cases hr with
    | head hs hr => cases hs with
      | call hE => exact ih _ _ hE hr
  | loop _ ih =>
    cases r <;> cases hr with
    | head hs hr => cases hs with
      | unroll => exact ih hr

theorem Wp.and_evals (h : Wp E Q p s) (hQ : ∀ r t, p.Evals E s r t → Q' r t) :
    Wp E (fun r t => Q r t ∧ Q' r t) p s := by
  induction h with
  | @pure a s h => exact .pure ⟨h, hQ (.ok a) s (.refl _ _)⟩
  | @throw e s h => exact .throw ⟨h, hQ (.error e) s (.refl _ _)⟩
  | call _ ih => exact .call fun r s' hE => ih r s' hE fun r' t ht => hQ r' t (.head (.call hE) ht)
  | loop _ ih => exact .loop (ih fun r t ht => hQ r t (.head .unroll ht))

def Env.Total (E : Env C R S) : Prop := ∀ c s, ∃ r s', E c s r s'

/-- Against an environment that answers every call there is a terminating run. -/
theorem Wp.exists_evals (hE : E.Total) (h : Wp E Q p s) : ∃ r s', p.Evals E s r s' ∧ Q r s' := by
  induction h with
  | @pure a s h => exact ⟨.ok a, s, .refl _ _, h⟩
  | @throw e s h => exact ⟨.error e, s, .refl _ _, h⟩
  | @call c k s _ ih =>
    obtain ⟨r, s', hr⟩ := hE c s
    obtain ⟨r', t, hs, hQ⟩ := ih r s' hr
    exact ⟨r', t, .head (.call hr) hs, hQ⟩
  | loop _ ih =>
    obtain ⟨r, t, hs, hQ⟩ := ih
    exact ⟨r, t, .head .unroll hs, hQ⟩

end Interaction
