import MongoSgx.Interaction.Total

/-! # Programs over programs

An attempt runs a program to its end and goes on with its result, an exception
included. So the calls of one program can be carried out by programs over other
calls. What happens inside an attempt is what happens in its program, and the
structure of the program above it is kept.
-/

namespace Interaction

variable {C : Type} {R : C → Type} {ε ε' S α β γ σ Q : Type} {A : Q → Type}

namespace Prog

def orElse {T : Type 1} (f : α → T) (h : ε → T) : Except ε α → T
  | .ok a => f a
  | .error e => h e

def caught : Except ε (σ ⊕ β) → Prog C R ε' (σ ⊕ Except ε β)
  | .ok (.inl y) => .pure (.inl y)
  | .ok (.inr b) => .pure (.inr (.ok b))
  | .error e => .pure (.inr (.error e))

/-- Run the program, catch its exception and go on with the result. -/
def attempt : {α : Type} → Prog C R ε α → {β : Type} → (Except ε α → Prog C R ε' β) →
    Prog C R ε' β
  | _, .pure a, _, k => k (.ok a)
  | _, .throw e, _, k => k (.error e)
  | _, .call c f, _, k => .call c fun r => (f r).attempt k
  | _, .loop body x f, _, k => .loop (fun y => (body y).attempt caught) x
    (orElse (fun b => (f b).attempt k) fun e => k (.error e))

/-- Carry out the calls of a program by other programs. -/
def through (impl : (q : Q) → Prog C R ε (A q)) :
    {γ : Type} → Prog Q (fun q => Except ε (A q)) ε' γ → Prog C R ε' γ
  | _, .pure a => .pure a
  | _, .throw e => .throw e
  | _, .call q k => (impl q).attempt fun r => (k r).through impl
  | _, .loop body x k => .loop (fun y => (body y).through impl) x fun b => (k b).through impl

def Makes (φ : C → Prop) : {α : Type} → Prog C R ε α → Prop
  | _, .pure _ => True
  | _, .throw _ => True
  | _, .call c k => φ c ∧ ∀ r, (k r).Makes φ
  | _, .loop body _ k => (∀ y, (body y).Makes φ) ∧ ∀ b, (k b).Makes φ

section Attempts

variable {p : Prog C R ε α} {k : Except ε α → Prog C R ε' β}

@[simp] theorem attempt_pure (a : α) : (Prog.pure a : Prog C R ε α).attempt k = k (.ok a) := rfl

@[simp] theorem attempt_throw (e : ε) :
    (Prog.throw e : Prog C R ε α).attempt k = k (.error e) := rfl

theorem attempt_loop {body : σ → Prog C R ε (σ ⊕ γ)} {x : σ} {f : γ → Prog C R ε α} :
    (Prog.loop body x f).attempt k = .loop (fun y => (body y).attempt caught) x
      (orElse (fun b => (f b).attempt k) fun e => k (.error e)) := rfl

theorem attempt_bind {k : Except ε α → Prog C R ε' β} (f : β → Prog C R ε' γ) :
    (p.attempt k).bind f = p.attempt fun r => (k r).bind f := by
  induction p with
  | pure a => rfl
  | throw e => rfl
  | call c g ih => exact congrArg (Prog.call c) (funext fun r => ih r)
  | loop body x g _ ih =>
    rw [attempt_loop, attempt_loop, loop_bind]
    congr 1
    funext r
    cases r with
    | ok b => exact ih b
    | error e => rfl

theorem bind_attempt {f : α → Prog C R ε γ} {k : Except ε γ → Prog C R ε' β} :
    (p.bind f).attempt k =
      p.attempt (orElse (fun a => (f a).attempt k) fun e => k (.error e)) := by
  induction p with
  | pure a => rfl
  | throw e => rfl
  | call c g ih => exact congrArg (Prog.call c) (funext fun r => ih r)
  | loop body x g _ ih =>
    rw [loop_bind, attempt_loop, attempt_loop]
    congr 1
    funext r
    cases r with
    | ok b => exact ih b
    | error e => rfl

theorem unroll_attempt {body : σ → Prog C R ε (σ ⊕ γ)} {x : σ} {f : γ → Prog C R ε α} :
    unroll (fun y => (body y).attempt caught)
      (orElse (fun b => (f b).attempt k) fun e => k (.error e)) x =
      (unroll body f x).attempt k := by
  rw [unroll, unroll, attempt_bind, bind_attempt]
  congr 1
  funext r
  rcases r with e | y | b
  · rfl
  · rfl
  · rfl

theorem Evals.steps_attempt {S : Type} {E : Env C R S} {r : Except ε α} {s t : S}
    (h : p.Evals E s r t) : Steps E (p.attempt k) s (k r) t := by
  unfold Evals at h
  generalize hq : ofExcept r = q at h
  induction h with
  | refl p s =>
    subst hq
    cases r <;> exact .refl _ _
  | head hstep _ ih =>
    cases hstep with
    | call hE => exact .head (.call hE) (ih hq)
    | unroll =>
      rw [attempt_loop]
      refine .head .unroll ?_
      rw [unroll_attempt]
      exact ih hq

end Attempts

section Through

variable {impl : (q : Q) → Prog C R ε (A q)} {p : Prog Q (fun q => Except ε (A q)) ε' α}

theorem through_bind (f : α → Prog Q (fun q => Except ε (A q)) ε' β) :
    (p.bind f).through impl = (p.through impl).bind fun a => (f a).through impl := by
  induction p with
  | pure a => rfl
  | throw e => rfl
  | call q k ih =>
    have hk : (fun r => ((k r).bind f).through impl) =
        fun r => ((k r).through impl).bind fun a => (f a).through impl := funext fun r => ih r f
    exact (congrArg (impl q).attempt hk).trans (attempt_bind _).symm
  | loop body x k _ ih =>
    have hk : (fun b => ((k b).bind f).through impl) =
        fun b => ((k b).through impl).bind fun a => (f a).through impl := funext fun b => ih b f
    exact congrArg (Prog.loop (fun y => (body y).through impl) x) hk

theorem unroll_through {body : σ → Prog Q (fun q => Except ε (A q)) ε' (σ ⊕ β)} {x : σ}
    {k : β → Prog Q (fun q => Except ε (A q)) ε' α} :
    unroll (fun y => (body y).through impl) (fun b => (k b).through impl) x =
      (unroll body k x).through impl := by
  rw [unroll, unroll, through_bind]
  congr 1
  funext r
  cases r with
  | inl y => rfl
  | inr b => rfl

end Through

section Makes

variable {φ : C → Prop} {p : Prog C R ε α}

theorem Makes.bind {f : α → Prog C R ε β} (h : p.Makes φ) (hf : ∀ a, (f a).Makes φ) :
    (p.bind f).Makes φ := by
  induction p with
  | pure a => exact hf a
  | throw e => trivial
  | call c k ih => exact ⟨h.1, fun r => ih r (h.2 r) hf⟩
  | loop body x k _ ih => exact ⟨h.1, fun b => ih b (h.2 b) hf⟩

theorem Makes.attempt {k : Except ε α → Prog C R ε' β} (h : p.Makes φ)
    (hk : ∀ r, (k r).Makes φ) : (p.attempt k).Makes φ := by
  induction p generalizing β with
  | pure a => exact hk (.ok a)
  | throw e => exact hk (.error e)
  | call c f ih => exact ⟨h.1, fun r => ih r (h.2 r) hk⟩
  | loop body x f ihb ih =>
    refine ⟨fun y => ihb y (h.1 y) ?_, ?_⟩
    · rintro (e | y | b)
      · trivial
      · trivial
      · trivial
    · rintro (e | b)
      · exact hk (.error e)
      · exact ih b (h.2 b) hk

theorem Makes.unroll {body : σ → Prog C R ε (σ ⊕ β)} {x : σ} {k : β → Prog C R ε α}
    (h : (Prog.loop body x k).Makes φ) : (Prog.unroll body k x).Makes φ := by
  apply Makes.bind (h.1 x)
  rintro (y | b)
  · exact h
  · exact h.2 b

end Makes

end Prog

section Total

variable {E : Env C R S} {p : Prog C R ε α} {s : S}

theorem Wp.attempt {Q : Except ε' β → S → Prop} {k : Except ε α → Prog C R ε' β}
    (h : Wp E (fun r t => Wp E Q (k r) t) p s) : Wp E Q (p.attempt k) s := by
  induction h with
  | pure h => exact h
  | throw h => exact h
  | call _ ih => exact .call ih
  | loop _ ih =>
    rw [Prog.attempt_loop]
    apply Wp.loop
    rw [Prog.unroll_attempt]
    exact ih

/-- What a program does over an abstract system, it does with the programs that carry out its
calls. -/
theorem Wp.through {D : Type} {B : Env Q (fun q => Except ε (A q)) D}
    {impl : (q : Q) → Prog C R ε (A q)} {Rel : S → D → Prop} {φ : Q → Prop}
    (himpl : ∀ q s a, φ q → Rel s a →
      Wp E (fun r t => ∃ a', B q a r a' ∧ Rel t a') (impl q) s)
    {p : Prog Q (fun q => Except ε (A q)) ε' β} {Q' : Except ε' β → D → Prop} {a : D}
    (h : Wp B Q' p a) (hp : p.Makes φ) (hs : Rel s a) :
    Wp E (fun r t => ∃ a', Rel t a' ∧ Q' r a') (p.through impl) s := by
  induction h generalizing s with
  | pure h => exact .pure ⟨_, hs, h⟩
  | throw h => exact .throw ⟨_, hs, h⟩
  | @call q k a _ ih =>
    apply Wp.attempt
    apply (himpl q s a hp.1 hs).mono
    rintro r t ⟨a', hB, ht⟩
    exact ih r a' hB (hp.2 r) ht
  | loop _ ih =>
    apply Wp.loop
    rw [Prog.unroll_through]
    exact ih hp.unroll hs

end Total

end Interaction
