import MongoSgx.Interaction.Session
import MongoSgx.Interaction.Transcript

/-! # Calls that are started over

A client whose call is cut off somewhere starts it over, as often as it takes to
get an answer. When a machine explains the calls, and wherever a call is cut off it
would still take the machine to the same state, then being cut off makes no
difference to the state in the end.
-/

namespace Interaction

variable {C : Type} {R : C → Type} {ε S A B O α : Type}

/-- Calls made one after the other, each started over from where it was cut off until it ends,
with the results in the end. -/
inductive Retried (E : Env C R S) (prog : O → Prog C R ε α) :
    S → List (O × Except ε α) → S → Prop
  | nil (s : S) : Retried E prog s [] s
  | cut {s t u : S} {o : O} {r : Except ε α} {p : Prog C R ε α} {hist : List (O × Except ε α)}
      (h : (prog o).Steps E s p t) (hs : Retried E prog t ((o, r) :: hist) u) :
      Retried E prog s ((o, r) :: hist) u
  | cons {s t u : S} {o : O} {r : Except ε α} {hist : List (O × Except ε α)}
      (h : (prog o).Evals E s r t) (hs : Retried E prog t hist u) :
      Retried E prog s ((o, r) :: hist) u

/-- Wherever an admitted call is cut off, the machine would still go where it went. -/
def Restartable (E : Env C R S) (prog : O → Prog C R ε α) (step : O → A → B × A)
    (ok : O → Prop) (I : A → S → Prop) : Prop :=
  ∀ o, ok o → ∀ a s, I a s → ∀ p t, (prog o).Steps E s p t →
    ∃ a', I a' t ∧ (step o a').2 = (step o a).2

variable {E : Env C R S} {prog : O → Prog C R ε α} {step : O → A → B × A} {obs : Except ε α → B}
  {ok : O → Prop} {I : A → S → Prop} {s t : S} {hist : List (O × Except ε α)} {a : A}

/-- The states from which the machine would go to `b` with the input `o`. -/
def Toward (step : O → A → B × A) (I : A → S → Prop) (o : O) (b : A) (s : S) : Prop :=
  ∃ a, I a s ∧ (step o a).2 = b

theorem restartable_of_safe
    (h : ∀ o, ok o → ∀ a s, I a s →
      Safe E (.alone (Toward step I o (step o a).2)) (fun _ _ => True) (prog o) s) :
    Restartable E prog step ok I := by
  intro o ho a s hI p t hs
  have ht : Toward step I o (step o a).2 t :=
    (h o ho a s hI).invariant (fun hguar => hguar) hs ⟨a, hI, rfl⟩
  exact ht

/-- Calls that are started over take the machine where it goes when nothing is cut off. -/
theorem Retried.simulation (hsim : Simulates E prog step obs ok I)
    (hre : Restartable E prog step ok I) (h : Retried E prog s hist t)
    (hok : ∀ x ∈ hist, ok x.1) (hI : I a s) :
    I (runMachine step a (hist.map Prod.fst)).2 t := by
  induction h generalizing a with
  | nil => exact hI
  | cut hcut _ ih =>
    obtain ⟨a', hI', hstep⟩ := hre _ (hok _ (List.mem_cons_self ..)) a _ hI _ _ hcut
    have hlast := ih hok hI'
    simp only [List.map_cons, runMachine, hstep] at hlast ⊢
    exact hlast
  | cons hcall _ ih =>
    obtain ⟨-, hI'⟩ := (hsim _ (hok _ (List.mem_cons_self ..)) a _ hI).of_evals hcall
    exact ih (fun x hx => hok x (List.mem_cons_of_mem _ hx)) hI'

end Interaction
