import Mathlib.Data.List.Forall2
import Mathlib.Data.Sum.Basic
import MongoSgx.Interaction.Transcript

/-! # Programs that cannot be told apart

Two programs are alike when they make the same calls as long as they get the same
replies, and end in related values or with the same exception. A recorded run is
determined by its record, so the calls that can follow each record are all that an
environment sees of a program, or of several run one after the other.
-/

namespace Interaction

variable {C : Type} {R : C → Type} {ε α β γ δ : Type} {allowed : Exchange C R → Prop}

/-- The same calls under all allowed replies, and values related by `A`. -/
inductive Alike (allowed : Exchange C R → Prop) :
    {α β : Type} → (α → β → Prop) → Prog C R ε α → Prog C R ε β → Prop
  | pure {α β : Type} {A : α → β → Prop} {a : α} {b : β} (h : A a b) :
      Alike allowed A (.pure a) (.pure b)
  | throw {α β : Type} {A : α → β → Prop} (e : ε) : Alike allowed A (.throw e) (.throw e)
  | call {α β : Type} {A : α → β → Prop} {c : C} {k : R c → Prog C R ε α} {k' : R c → Prog C R ε β}
      (h : ∀ r, allowed ⟨c, r⟩ → Alike allowed A (k r) (k' r)) :
      Alike allowed A (.call c k) (.call c k')
  | loop {α β γ δ σ τ : Type} {A : α → β → Prop} (I : σ → τ → Prop) (B : γ → δ → Prop)
      {body : σ → Prog C R ε (σ ⊕ γ)} {body' : τ → Prog C R ε (τ ⊕ δ)} {x : σ} {y : τ}
      {k : γ → Prog C R ε α} {k' : δ → Prog C R ε β} (hI : I x y)
      (hbody : ∀ x y, I x y → Alike allowed (Sum.LiftRel I B) (body x) (body' y))
      (hk : ∀ b b', B b b' → Alike allowed A (k b) (k' b')) :
      Alike allowed A (.loop body x k) (.loop body' y k')

variable {A : α → β → Prop} {B : γ → δ → Prop} {p q : Prog C R ε α} {p' q' : Prog C R ε β}
  {l l' log : List (Exchange C R)}

namespace Alike

theorem mono {A' : α → β → Prop} (h : Alike allowed A p p') (hA : ∀ a b, A a b → A' a b) :
    Alike allowed A' p p' := by
  induction h with
  | pure h => exact .pure (hA _ _ h)
  | throw e => exact .throw e
  | call _ ih => exact .call fun r hr => ih r hr hA
  | loop I B hI hbody _ _ ihk => exact .loop I B hI hbody fun b b' hb => ihk b b' hb hA

theorem refl (p : Prog C R ε α) : Alike allowed Eq p p := by
  induction p with
  | pure a => exact .pure rfl
  | throw e => exact .throw e
  | call c k ih => exact .call fun r _ => ih r
  | loop body x k ihb ih =>
    refine .loop Eq Eq rfl ?_ ?_
    · rintro x _ rfl
      refine (ihb x).mono ?_
      rintro (y | b) _ rfl
      · exact .inl rfl
      · exact .inr rfl
    · rintro b _ rfl
      exact ih b

theorem symm (h : Alike allowed A p p') : Alike allowed (fun b a => A a b) p' p := by
  induction h with
  | pure h => exact .pure h
  | throw e => exact .throw e
  | call _ ih => exact .call ih
  | loop I B hI _ _ ihb ihk =>
    refine .loop (fun y x => I x y) (fun b' b => B b b') hI ?_ fun b' b hb => ihk b b' hb
    intro y x hxy
    refine (ihb x y hxy).mono fun s t hst => ?_
    cases hst with
    | inl h => exact .inl h
    | inr h => exact .inr h

theorem bind {f : α → Prog C R ε γ} {f' : β → Prog C R ε δ} (h : Alike allowed A p p')
    (hf : ∀ a b, A a b → Alike allowed B (f a) (f' b)) :
    Alike allowed B (p.bind f) (p'.bind f') := by
  induction h with
  | pure h => exact hf _ _ h
  | throw e => exact .throw e
  | call _ ih => exact .call fun r hr => ih r hr hf
  | loop I B' hI hbody _ _ ihk => exact .loop I B' hI hbody fun b b' hb => ihk b b' hb hf

theorem bind_same {p : Prog C R ε α} {f : α → Prog C R ε γ} {f' : α → Prog C R ε δ}
    (hf : ∀ a, Alike allowed B (f a) (f' a)) : Alike allowed B (p.bind f) (p.bind f') :=
  (refl p).bind fun a _ h => h ▸ hf a

theorem unroll {σ τ : Type} {I : σ → τ → Prop} {body : σ → Prog C R ε (σ ⊕ γ)}
    {body' : τ → Prog C R ε (τ ⊕ δ)} {x : σ} {y : τ} {k : γ → Prog C R ε α}
    {k' : δ → Prog C R ε β} (hI : I x y)
    (hbody : ∀ x y, I x y → Alike allowed (Sum.LiftRel I B) (body x) (body' y))
    (hk : ∀ b b', B b b' → Alike allowed A (k b) (k' b')) :
    Alike allowed A (Prog.unroll body k x) (Prog.unroll body' k' y) := by
  apply (hbody x y hI).bind
  intro s t hst
  cases hst with
  | inl h => exact .loop I B h hbody hk
  | inr h => exact hk _ _ h

theorem steps (h : Alike allowed A p p') (hs : p.Steps (Recording allowed) l q l') :
    ∃ q', p'.Steps (Recording allowed) l q' l' ∧ Alike allowed A q q' := by
  induction hs generalizing p' with
  | refl p l => exact ⟨p', .refl p' l, h⟩
  | head hstep _ ih =>
    cases hstep with
    | call hr =>
      cases h with
      | call hk =>
        obtain ⟨q', hs, hq⟩ := ih (hk _ hr.1)
        exact ⟨q', .head (.call hr) hs, hq⟩
    | unroll =>
      cases h with
      | loop I B hI hbody hk =>
        obtain ⟨q', hs, hq⟩ := ih (unroll hI hbody hk)
        exact ⟨q', .head .unroll hs, hq⟩

theorem evals (h : Alike allowed A p p') {r : Except ε α}
    (hr : p.Evals (Recording allowed) l r l') : ∃ r', p'.Evals (Recording allowed) l r' l' := by
  obtain ⟨q', hs, hq⟩ := h.steps hr
  cases r with
  | ok a =>
    cases hq with
    | @pure _ _ _ _ b _ => exact ⟨.ok b, hs⟩
  | error e =>
    cases hq with
    | throw => exact ⟨.error e, hs⟩

end Alike

section Determinism

variable {c c' : C} {k : R c → Prog C R ε α} {k' : R c' → Prog C R ε α} {r r' : Except ε α}
  {l₁ l₂ : List (Exchange C R)} {p₁ p₂ : Prog C R ε α}

theorem Prog.Steps.record_prefix (h : p.Steps (Recording allowed) l q l') : l <+: l' := by
  induction h with
  | refl => exact List.prefix_rfl
  | head hstep _ ih =>
    cases hstep with
    | call hr => exact (hr.2 ▸ List.prefix_append _ _).trans ih
    | unroll => exact ih

theorem steps_ofExcept (h : (Prog.ofExcept r).Steps (Recording allowed) l q l') :
    q = Prog.ofExcept r ∧ l' = l := by
  cases r with
  | ok a =>
    cases h with
    | refl => exact ⟨rfl, rfl⟩
    | head h _ => cases h
  | error e =>
    cases h with
    | refl => exact ⟨rfl, rfl⟩
    | head h _ => cases h

theorem steps_call (h : (Prog.call c k).Steps (Recording allowed) l q l') (hl : l' <+: l) :
    q = .call c k := by
  cases h with
  | refl => rfl
  | head hstep hs =>
    cases hstep with
    | call hr =>
      have hle := (hs.record_prefix.trans hl).length_le
      rw [hr.2, List.length_append, List.length_singleton] at hle
      omega

/-- Of two runs of one program along the same record, one goes on from the other. -/
theorem Prog.Steps.comparable (h₁ : p.Steps (Recording allowed) l p₁ l₁)
    (h₂ : p.Steps (Recording allowed) l p₂ l₂) (hl : l₁ <+: l₂) :
    p₁.Steps (Recording allowed) l₁ p₂ l₂ ∨ p₂.Steps (Recording allowed) l₂ p₁ l₁ := by
  induction h₁ with
  | refl => exact .inl h₂
  | @head p q p₁ l t l₁ d hstep hs ih =>
    cases h₂ with
    | refl => exact .inr (.head hstep hs)
    | head hstep' hs' =>
      cases hstep with
      | @call d k _ _ r hr =>
        cases hstep' with
        | @call _ _ _ _ r' hr' =>
          -- both records go on with the reply to this call
          obtain ⟨-, rfl⟩ := hr
          obtain ⟨-, rfl⟩ := hr'
          have hpre := hs.record_prefix.trans hl
          have heq := List.prefix_of_prefix_length_le hpre hs'.record_prefix (by simp)
          have heq := heq.eq_of_length (by simp)
          obtain rfl : r = r' := by simpa using heq
          exact ih hs' hl
      | unroll =>
        cases hstep' with
        | unroll => exact ih hs' hl

theorem call_unique (h : p.Steps (Recording allowed) l (.call c k) log)
    (h' : p.Steps (Recording allowed) l (.call c' k') log) : c = c' := by
  rcases h.comparable h' List.prefix_rfl with h | h
  · cases steps_call h List.prefix_rfl
    rfl
  · cases steps_call h List.prefix_rfl
    rfl

theorem not_call_of_evals (h : p.Evals (Recording allowed) l r l')
    (h' : p.Steps (Recording allowed) l (.call c k) log) : ¬ l' <+: log := by
  intro hl
  rcases Prog.Steps.comparable h h' hl with hs | hs
  · obtain ⟨hq, -⟩ := steps_ofExcept hs
    cases r <;> cases hq
  · have hq := steps_call hs hl
    cases r <;> cases hq

theorem evals_unique (h : p.Evals (Recording allowed) l r l₁)
    (h' : p.Evals (Recording allowed) l r' l₂) (hl : l₁ <+: log) (hl' : l₂ <+: log) : l₁ = l₂ := by
  rcases List.prefix_or_prefix_of_prefix hl hl' with hpre | hpre
  · rcases Prog.Steps.comparable h h' hpre with hs | hs
    · exact (steps_ofExcept hs).2.symm
    · exact (steps_ofExcept hs).2
  · rcases Prog.Steps.comparable h' h hpre with hs | hs
    · exact (steps_ofExcept hs).2
    · exact (steps_ofExcept hs).2.symm

end Determinism

/-- Programs run one after the other, whatever each of them ends with, come to make a call. -/
inductive Emits (allowed : Exchange C R → Prop) :
    List (Prog C R ε α) → List (Exchange C R) → List (Exchange C R) → C → Prop
  | here {p : Prog C R ε α} {ps : List (Prog C R ε α)} {l log : List (Exchange C R)} {c : C}
      {k : R c → Prog C R ε α} (h : p.Steps (Recording allowed) l (.call c k) log) :
      Emits allowed (p :: ps) l log c
  | later {p : Prog C R ε α} {ps : List (Prog C R ε α)} {l l' log : List (Exchange C R)} {c : C}
      {r : Except ε α} (h : p.Evals (Recording allowed) l r l') (hs : Emits allowed ps l' log c) :
      Emits allowed (p :: ps) l log c

/-- After every record the same calls can follow. -/
def Indistinct (allowed : Exchange C R → Prop) (ps : List (Prog C R ε α))
    (ps' : List (Prog C R ε β)) (l : List (Exchange C R)) : Prop :=
  ∀ log c, Emits allowed ps l log c ↔ Emits allowed ps' l log c

variable {ps : List (Prog C R ε α)} {ps' : List (Prog C R ε β)} {c c' : C}

theorem Emits.record_prefix (h : Emits allowed ps l log c) : l <+: log := by
  induction h with
  | here h => exact h.record_prefix
  | later h _ ih => exact (Prog.Steps.record_prefix h).trans ih

namespace Emits

theorem call {d : C} {k : R c → Prog C R ε α} {xs : List (Exchange C R)} {r : R c}
    (hr : allowed ⟨c, r⟩)
    (h : Emits allowed (k r :: ps) (l ++ [⟨c, r⟩]) (l ++ [⟨c, r⟩] ++ xs) d) :
    Emits allowed (.call c k :: ps) l (l ++ ⟨c, r⟩ :: xs) d := by
  rw [List.append_assoc, List.singleton_append] at h
  cases h with
  | here h => exact .here (.head (.call ⟨hr, rfl⟩) h)
  | later h hs => exact .later (.head (.call ⟨hr, rfl⟩) h) hs

theorem unroll {σ τ : Type} {body : σ → Prog C R ε (σ ⊕ τ)} {x : σ} {k : τ → Prog C R ε α}
    (h : Emits allowed (Prog.unroll body k x :: ps) l log c) :
    Emits allowed (.loop body x k :: ps) l log c := by
  cases h with
  | here h => exact .here (.head .unroll h)
  | later h hs => exact .later (.head .unroll h) hs

theorem now {k : R c → Prog C R ε α} : Emits allowed (.call c k :: ps) l (l ++ []) c := by
  rw [List.append_nil]
  exact .here (.refl _ _)

end Emits

theorem Emits.unique (h : Emits allowed ps l log c) (h' : Emits allowed ps l log c') : c = c' := by
  induction h with
  | here h =>
    cases h' with
    | here h' => exact call_unique h h'
    | later h' hs => exact absurd hs.record_prefix (not_call_of_evals h' h)
  | later h hs ih =>
    cases h' with
    | here h' => exact absurd hs.record_prefix (not_call_of_evals h h')
    | later h' hs' =>
      obtain rfl := evals_unique h h' hs.record_prefix hs'.record_prefix
      exact ih hs'

theorem Emits.of_evals {r : Except ε α} (h : Emits allowed (p :: ps) l log c)
    (hp : p.Evals (Recording allowed) l r l') (hl : l' <+: log) : Emits allowed ps l' log c := by
  cases h with
  | here h => exact absurd hl (not_call_of_evals hp h)
  | later h hs =>
    obtain rfl := evals_unique h hp hs.record_prefix hl
    exact hs

theorem Emits.of_alike
    (h : List.Forall₂ (fun p p' => ∃ A : α → β → Prop, Alike allowed A p p') ps ps')
    (he : Emits allowed ps l log c) : Emits allowed ps' l log c := by
  induction he generalizing ps' with
  | here hs =>
    cases h with
    | cons hp _ =>
      obtain ⟨A, hp⟩ := hp
      obtain ⟨q', hs', hq⟩ := hp.steps hs
      cases hq with
      | call _ => exact .here hs'
  | later hr _ ih =>
    cases h with
    | cons hp hps =>
      obtain ⟨A, hp⟩ := hp
      obtain ⟨r', hr'⟩ := hp.evals hr
      exact .later hr' (ih hps)

theorem indistinct_of_alike
    (h : List.Forall₂ (fun p p' => ∃ A : α → β → Prop, Alike allowed A p p') ps ps') :
    Indistinct allowed ps ps' l := by
  intro log c
  constructor
  · exact Emits.of_alike h
  · refine Emits.of_alike (h.flip.imp ?_)
    rintro p' p ⟨A, hp⟩
    exact ⟨_, hp.symm⟩

/-- What cannot be told apart at the start cannot be told apart after a first program that both
sides have finished with the same record. -/
theorem Indistinct.tail {r : Except ε α} {r' : Except ε β}
    (h : Indistinct allowed (p :: ps) (p' :: ps') l) (hp : p.Evals (Recording allowed) l r l')
    (hp' : p'.Evals (Recording allowed) l r' l') : Indistinct allowed ps ps' l' := by
  intro log c
  constructor
  · intro he
    exact ((h log c).mp (.later hp he)).of_evals hp' he.record_prefix
  · intro he
    exact ((h log c).mpr (.later hp' he)).of_evals hp he.record_prefix

end Interaction
