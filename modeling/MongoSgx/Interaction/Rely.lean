import MongoSgx.Interaction.Total

/-! # Safety of a program among others

A contract states what a program relies on while others move and what each of
its own calls guarantees. `Safe E K Q p s` says that `p`, started at `s`, keeps
its guarantee and can only end in `Q` as long as the others keep to the rely. It
is the limit of its approximations `SafeFor`, which follow finitely many steps.
-/

namespace Interaction

variable {C : Type} {R : C → Type} {ε S α β σ : Type}

/-- The moves a program tolerates between its steps, and those it makes itself. -/
structure Contract (S : Type) where
  rely : S → S → Prop
  guar : S → S → Prop
  rely_refl : ∀ s, rely s s
  rely_trans : ∀ {s t u}, rely s t → rely t u → rely s u
  guar_refl : ∀ s, guar s s

/-- Everyone keeps the invariant. -/
def Contract.keeping (Inv : S → Prop) : Contract S where
  rely s t := Inv s → Inv t
  guar s t := Inv s → Inv t
  rely_refl _ h := h
  rely_trans h h' hs := h' (h hs)
  guar_refl _ h := h

/-- Nobody else moves, and the program keeps the invariant. -/
def Contract.alone (Inv : S → Prop) : Contract S where
  rely s t := t = s
  guar s t := Inv s → Inv t
  rely_refl _ := rfl
  rely_trans h h' := h'.trans h
  guar_refl _ h := h

def SafeFor (E : Env C R S) (K : Contract S) (Q : Except ε α → S → Prop) :
    ℕ → Prog C R ε α → S → Prop
  | 0, _, _ => True
  | _ + 1, .pure a, s => ∀ t, K.rely s t → Q (.ok a) t
  | _ + 1, .throw e, s => ∀ t, K.rely s t → Q (.error e) t
  | n + 1, .call c k, s => ∀ t, K.rely s t → ∀ r u, E c t r u →
      K.guar t u ∧ SafeFor E K Q n (k r) u
  | n + 1, .loop body x k, s => SafeFor E K Q n (Prog.unroll body k x) s

/-- The program keeps its contract forever, and its result satisfies the postcondition. -/
def Safe (E : Env C R S) (K : Contract S) (Q : Except ε α → S → Prop)
    (p : Prog C R ε α) (s : S) : Prop := ∀ n, SafeFor E K Q n p s

variable {E : Env C R S} {K : Contract S} {Q Q' : Except ε α → S → Prop}
  {p : Prog C R ε α} {s t : S}

theorem SafeFor.le {m n : ℕ} (hmn : m ≤ n) (h : SafeFor E K Q n p s) : SafeFor E K Q m p s := by
  induction n generalizing m p s with
  | zero =>
    obtain rfl : m = 0 := Nat.le_zero.mp hmn
    trivial
  | succ n ih =>
    cases m with
    | zero => trivial
    | succ m =>
      have hmn := Nat.le_of_succ_le_succ hmn
      cases p with
      | pure a => exact h
      | throw e => exact h
      | call c k => exact fun t ht r u hE => ⟨(h t ht r u hE).1, ih hmn (h t ht r u hE).2⟩
      | loop body x k => exact ih (m := m) hmn h

theorem SafeFor.stable {n : ℕ} (h : SafeFor E K Q n p s) (hst : K.rely s t) :
    SafeFor E K Q n p t := by
  induction n generalizing p s with
  | zero => trivial
  | succ n ih =>
    cases p with
    | pure a => exact fun u hu => h u (K.rely_trans hst hu)
    | throw e => exact fun u hu => h u (K.rely_trans hst hu)
    | call c k => exact fun u hu => h u (K.rely_trans hst hu)
    | loop body x k => exact ih (p := Prog.unroll body k x) h hst

theorem SafeFor.bind {Q : Except ε β → S → Prop} {f : α → Prog C R ε β} {n : ℕ}
    (h : SafeFor E K Q' n p s) (hok : ∀ a t, Q' (.ok a) t → SafeFor E K Q n (f a) t)
    (herr : ∀ e t, Q' (.error e) t → Q (.error e) t) : SafeFor E K Q n (p.bind f) s := by
  induction n generalizing p s with
  | zero => trivial
  | succ n ih =>
    have hok' : ∀ a t, Q' (.ok a) t → SafeFor E K Q n (f a) t :=
      fun a t ha => (hok a t ha).le n.le_succ
    cases p with
    | pure a => exact hok a s (h s (K.rely_refl s))
    | throw e => exact fun t ht => herr e t (h t ht)
    | call c k =>
      intro t ht r u hE
      obtain ⟨hg, hk⟩ := h t ht r u hE
      exact ⟨hg, ih hk hok'⟩
    | loop body x k =>
      change SafeFor E K Q n (Prog.unroll body (fun b => (k b).bind f) x) s
      rw [← Prog.unroll_bind]
      exact ih h hok'

theorem Safe.stable (h : Safe E K Q p s) (hst : K.rely s t) : Safe E K Q p t :=
  fun n => (h n).stable hst

@[simp] theorem safe_pure_iff {a : α} :
    Safe E K Q (.pure a) s ↔ ∀ t, K.rely s t → Q (.ok a) t :=
  ⟨fun h => h 1, fun | _, 0 => trivial | h, _ + 1 => h⟩

@[simp] theorem safe_throw_iff {e : ε} :
    Safe E K Q (.throw e) s ↔ ∀ t, K.rely s t → Q (.error e) t :=
  ⟨fun h => h 1, fun | _, 0 => trivial | h, _ + 1 => h⟩

theorem safe_ofExcept_iff {r : Except ε α} :
    Safe E K Q (Prog.ofExcept r) s ↔ ∀ t, K.rely s t → Q r t := by
  cases r with
  | ok a => exact safe_pure_iff
  | error e => exact safe_throw_iff

theorem safe_call_iff {c : C} {k : R c → Prog C R ε α} :
    Safe E K Q (.call c k) s ↔ ∀ t, K.rely s t → ∀ r u, E c t r u →
      K.guar t u ∧ Safe E K Q (k r) u := by
  constructor
  · intro h t ht r u hE
    exact ⟨(h 1 t ht r u hE).1, fun n => (h (n + 1) t ht r u hE).2⟩
  · rintro h (_ | n)
    · trivial
    · exact fun t ht r u hE => ⟨(h t ht r u hE).1, (h t ht r u hE).2 n⟩

theorem safe_loop_iff {body : σ → Prog C R ε (σ ⊕ β)} {x : σ} {k : β → Prog C R ε α} :
    Safe E K Q (.loop body x k) s ↔ Safe E K Q (Prog.unroll body k x) s := by
  constructor
  · exact fun h n => h (n + 1)
  · rintro h (_ | n)
    · trivial
    · exact h n

def thenSafe (E : Env C R S) (K : Contract S) (Q : Except ε β → S → Prop)
    (f : α → Prog C R ε β) : Except ε α → S → Prop
  | .ok a, s => Safe E K Q (f a) s
  | .error e, s => Q (.error e) s

theorem Safe.bind {Q : Except ε β → S → Prop} {f : α → Prog C R ε β}
    (h : Safe E K (thenSafe E K Q f) p s) : Safe E K Q (p.bind f) s :=
  fun n => (h n).bind (fun _ _ ha => ha n) (fun _ _ he => he)

theorem SafeFor.mono {n : ℕ} (h : SafeFor E K Q n p s) (hQ : ∀ r t, Q r t → Q' r t) :
    SafeFor E K Q' n p s := by
  induction n generalizing p s with
  | zero => trivial
  | succ n ih =>
    cases p with
    | pure a => exact fun t ht => hQ _ _ (h t ht)
    | throw e => exact fun t ht => hQ _ _ (h t ht)
    | call c k => exact fun t ht r u hE => ⟨(h t ht r u hE).1, ih (h t ht r u hE).2⟩
    | loop body x k => exact ih (p := Prog.unroll body k x) h

theorem Safe.mono (h : Safe E K Q p s) (hQ : ∀ r t, Q r t → Q' r t) : Safe E K Q' p s :=
  fun n => (h n).mono hQ

/-- The loop rule: an invariant of the rounds. No measure is needed for safety. -/
theorem Safe.loop {body : σ → Prog C R ε (σ ⊕ β)} {k : β → Prog C R ε α} (I : σ → S → Prop)
    (hbody : ∀ x s, I x s →
      Safe E K (roundPost Q (fun b t => Safe E K Q (k b) t) I) (body x) s)
    {x : σ} {s : S} (hI : I x s) : Safe E K Q (.loop body x k) s := by
  -- induction on the number of steps looked at, for all rounds at once
  intro n
  induction n generalizing x s with
  | zero => trivial
  | succ n ih =>
    refine (hbody x s hI n).bind ?_ (fun _ _ he => he)
    rintro (y | b) t h
    · exact ih h
    · exact h n

/-- Every answer will do, wherever the others have moved the state, and keeps the guarantee. -/
def Contract.rule (K : Contract S) (E : Env C R S) : CallRule C R S where
  pre c s Φ := ∀ t, K.rely s t → ∀ r u, E c t r u → K.guar t u ∧ Φ r u
  mono h hΦ t ht r u hE := ⟨(h t ht r u hE).1, hΦ r u (h t ht r u hE).2⟩

theorem sound_safe : (K.rule E).Sound (Safe E K Q) := fun h => safe_call_iff.mpr h

theorem CallRule.Ends.safe (h : (K.rule E).Ends Q p s)
    (hQ : ∀ r s t, Q r s → K.rely s t → Q r t) : Safe E K Q p s :=
  h.judged sound_safe fun r s hr => safe_ofExcept_iff.mpr fun t ht => hQ r s t hr ht

theorem loops_safe : (K.rule E).Loops (Safe E K Q) := by
  intro σ β body k I hbody x s hI
  -- others may move the state after a round, so the invariant is kept up to such moves
  refine Safe.loop (fun x s => ∃ t, I x t ∧ K.rely t s) ?_ ⟨s, hI, K.rely_refl s⟩
  rintro x s ⟨t, hI, ht⟩
  refine Safe.stable ?_ ht
  apply (hbody x t hI).judged sound_safe
  rintro (e | y | b) u hr
  · have hQ : ∀ v, K.rely u v → Q (.error e) v := safe_throw_iff.mp hr
    exact safe_throw_iff.mpr hQ
  · exact safe_pure_iff.mpr fun v hv => ⟨u, hr, hv⟩
  · exact safe_pure_iff.mpr fun v hv => Safe.stable hr hv

end Interaction
