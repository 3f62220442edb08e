import MongoSgx.Interaction.Total

/-! # Sequences of calls by one client

A session makes one call after the other, each to its end. A machine that says
what every call answers and how it changes an abstract state explains every
session, as soon as single calls agree with single steps of the machine.
-/

namespace Interaction

variable {C : Type} {R : C → Type} {ε S A B O α : Type}

inductive Session (E : Env C R S) (prog : O → Prog C R ε α) :
    S → List (O × Except ε α) → S → Prop
  | nil (s : S) : Session E prog s [] s
  | cons {s t u : S} {o : O} {r : Except ε α} {hist : List (O × Except ε α)}
      (h : (prog o).Evals E s r t) (hs : Session E prog t hist u) :
      Session E prog s ((o, r) :: hist) u

def runMachine (step : O → A → B × A) : A → List O → List B × A
  | a, [] => ([], a)
  | a, o :: os =>
    let (bs, a') := runMachine step (step o a).2 os
    ((step o a).1 :: bs, a')

/-- Every admitted call answers as the machine does, and moves to a state that the next abstract
state describes. -/
def Simulates (E : Env C R S) (prog : O → Prog C R ε α) (step : O → A → B × A)
    (obs : Except ε α → B) (ok : O → Prop) (I : A → S → Prop) : Prop :=
  ∀ o, ok o → ∀ a s, I a s →
    Wp E (fun r s' => obs r = (step o a).1 ∧ I (step o a).2 s') (prog o) s

variable {E : Env C R S} {prog : O → Prog C R ε α} {step : O → A → B × A} {obs : Except ε α → B}
  {ok : O → Prop} {I : A → S → Prop} {s t : S} {hist : List (O × Except ε α)}

/-- Sessions of simulated calls follow the machine. -/
theorem Session.simulation (hsim : Simulates E prog step obs ok I) (h : Session E prog s hist t)
    (hok : ∀ x ∈ hist, ok x.1) {a : A} (hI : I a s) :
    hist.map (fun x => obs x.2) = (runMachine step a (hist.map Prod.fst)).1 ∧
      I (runMachine step a (hist.map Prod.fst)).2 t := by
  induction h generalizing a with
  | nil => exact ⟨rfl, hI⟩
  | @cons s t u o r hist h _ ih =>
    obtain ⟨hr, hI'⟩ := (hsim o (hok _ (List.mem_cons_self ..)) a s hI).of_evals h
    obtain ⟨hobs, hI''⟩ := ih (fun x hx => hok x (List.mem_cons_of_mem _ hx)) hI'
    refine ⟨?_, hI''⟩
    simp only [List.map_cons, runMachine, hr, hobs]

theorem Session.append {u : S} {hist' : List (O × Except ε α)} (h : Session E prog s hist t)
    (h' : Session E prog t hist' u) : Session E prog s (hist ++ hist') u := by
  induction h with
  | nil => exact h'
  | cons hcall _ ih => exact .cons hcall (ih h')

theorem Simulates.exists_session (hE : E.Total) (hsim : Simulates E prog step obs ok I) :
    ∀ (os : List O) {a : A} {s : S}, (∀ o ∈ os, ok o) → I a s →
      ∃ hist t, Session E prog s hist t ∧ hist.map Prod.fst = os
  | [], a, s, _, _ => ⟨[], s, .nil s, rfl⟩
  | o :: os, a, s, hok, hI => by
      obtain ⟨r, t, hr, -, hI'⟩ :=
        (hsim o (hok o (List.mem_cons_self ..)) a s hI).exists_evals hE
      obtain ⟨hist, u, hs, hos⟩ :=
        hsim.exists_session hE os (fun o ho => hok o (List.mem_cons_of_mem _ ho)) hI'
      exact ⟨(o, r) :: hist, u, .cons hr hs, by rw [List.map_cons, hos]⟩

end Interaction
