import MongoSgx.Interaction.Transcript
import MongoSgx.Ledger.Basic

/-! # Programs that keep a ledger

Every exchange of a program adds entries to a ledger. `Keeps allowed entries Q p live`
says that `p`, started while `live` is held, keeps the discipline as long as the
replies are allowed, and can only end in `Q`. It is proved along the program with
the monitor alone, and holds of every ledger the monitor has brought to `live`.
-/

namespace Ledger

open Interaction

variable {C : Type} {R : C → Type} {ε α β σ ρ : Type} [DecidableEq ρ]

/-- Any allowed reply; the exchange is entered in the ledger. -/
def Entering (allowed : Exchange C R → Prop) (entries : Exchange C R → List (Entry ρ)) :
    Env C R (List (Entry ρ)) :=
  fun c es r es' => allowed ⟨c, r⟩ ∧ es' = es ++ entries ⟨c, r⟩

/-- Any allowed reply; the monitor looks at the entries of the exchange. -/
def Monitored (allowed : Exchange C R → Prop) (entries : Exchange C R → List (Entry ρ)) :
    Env C R (Option (List ρ)) :=
  fun c s r s' => allowed ⟨c, r⟩ ∧ s' = s.bind (run (entries ⟨c, r⟩))

variable {allowed : Exchange C R → Prop} {entries : Exchange C R → List (Entry ρ)}
  {p q : Prog C R ε α} {es es' : List (Entry ρ)} {live : List ρ}

theorem steps_monitored (hs : p.Steps (Entering allowed entries) es q es') :
    p.Steps (Monitored allowed entries) (run es []) q (run es' []) := by
  have hE : ∀ c es r es' s, Entering allowed entries c es r es' → s = run es [] →
      ∃ s', Monitored allowed entries c s r s' ∧ s' = run es' [] := by
    rintro c es r _ _ ⟨hr, rfl⟩ rfl
    exact ⟨_, ⟨hr, rfl⟩, (run_append _ _ _).symm⟩
  obtain ⟨_, hs, rfl⟩ := hs.simulate hE rfl
  exact hs

/-- Every run from the live resources keeps the discipline and ends in the postcondition. -/
def Keeps (allowed : Exchange C R → Prop) (entries : Exchange C R → List (Entry ρ))
    (Q : Except ε α → List ρ → Prop) (p : Prog C R ε α) (live : List ρ) : Prop :=
  Safe (Monitored allowed entries) (Contract.alone (· ≠ none))
    (fun r s => ∃ live, s = some live ∧ Q r live) p (some live)

variable {Q Q' : Except ε α → List ρ → Prop}

@[simp] theorem keeps_pure_iff {a : α} :
    Keeps allowed entries Q (.pure a) live ↔ Q (.ok a) live := by
  unfold Keeps
  rw [safe_pure_iff]
  constructor
  · intro h
    obtain ⟨_, heq, hQ⟩ := h _ rfl
    obtain rfl := Option.some.inj heq
    exact hQ
  · rintro hQ _ rfl
    exact ⟨live, rfl, hQ⟩

@[simp] theorem keeps_throw_iff {e : ε} :
    Keeps allowed entries Q (.throw e) live ↔ Q (.error e) live := by
  unfold Keeps
  rw [safe_throw_iff]
  constructor
  · intro h
    obtain ⟨_, heq, hQ⟩ := h _ rfl
    obtain rfl := Option.some.inj heq
    exact hQ
  · rintro hQ _ rfl
    exact ⟨live, rfl, hQ⟩

theorem Keeps.call_reply {c : C} {k : R c → Prog C R ε α}
    (h : ∀ r, allowed ⟨c, r⟩ → ∃ live', run (entries ⟨c, r⟩) live = some live' ∧
      Keeps allowed entries Q (k r) live') : Keeps allowed entries Q (.call c k) live := by
  unfold Keeps
  rw [safe_call_iff]
  rintro _ rfl r _ ⟨hr, rfl⟩
  obtain ⟨live', hrun, hk⟩ := h r hr
  rw [Option.bind_some, hrun]
  constructor
  · exact fun _ => Option.some_ne_none live'
  · exact hk

theorem Keeps.call {c : C} {k : R c → Prog C R ε α} {live' : List ρ}
    (hc : ∀ r, allowed ⟨c, r⟩ → run (entries ⟨c, r⟩) live = some live')
    (hk : ∀ r, allowed ⟨c, r⟩ → Keeps allowed entries Q (k r) live') :
    Keeps allowed entries Q (.call c k) live :=
  .call_reply fun r hr => ⟨live', hc r hr, hk r hr⟩

theorem Keeps.mono (h : Keeps allowed entries Q p live) (hQ : ∀ r live, Q r live → Q' r live) :
    Keeps allowed entries Q' p live := by
  apply Safe.mono h
  rintro r _ ⟨live, rfl, hr⟩
  exact ⟨live, rfl, hQ r live hr⟩

def thenKeeps (allowed : Exchange C R → Prop) (entries : Exchange C R → List (Entry ρ))
    (Q : Except ε β → List ρ → Prop) (f : α → Prog C R ε β) : Except ε α → List ρ → Prop
  | .ok a, live => Keeps allowed entries Q (f a) live
  | .error e, live => Q (.error e) live

theorem Keeps.bind {Q : Except ε β → List ρ → Prop} {f : α → Prog C R ε β}
    (h : Keeps allowed entries (thenKeeps allowed entries Q f) p live) :
    Keeps allowed entries Q (p.bind f) live := by
  apply Safe.bind
  apply Safe.mono h
  rintro (e | a) _ ⟨live, rfl, hr⟩
  · exact ⟨live, rfl, hr⟩
  · exact hr

theorem Keeps.loop {body : σ → Prog C R ε (σ ⊕ β)} {k : β → Prog C R ε α}
    (I : σ → List ρ → Prop)
    (hbody : ∀ x live, I x live → Keeps allowed entries
      (roundPost Q (fun b live => Keeps allowed entries Q (k b) live) I) (body x) live)
    {x : σ} (hI : I x live) : Keeps allowed entries Q (.loop body x k) live := by
  apply Safe.loop fun x s => ∃ live, s = some live ∧ I x live
  · rintro y _ ⟨live, rfl, hy⟩
    apply Safe.mono (hbody y live hy)
    rintro (e | z | b) _ ⟨live, rfl, hr⟩
    · exact ⟨live, rfl, hr⟩
    · exact ⟨live, rfl, hr⟩
    · exact hr
  · exact ⟨live, rfl, hI⟩

theorem Keeps.disciplined (h : Keeps allowed entries Q p live) (hes : run es [] = some live)
    (hs : p.Steps (Entering allowed entries) es q es') : Disciplined es' := by
  rw [disciplined_iff]
  have hs := steps_monitored hs
  rw [hes] at hs
  have hkeep {s t : Option (List ρ)} (hg : (Contract.alone (· ≠ none)).guar s t) :
      s ≠ none → t ≠ none := hg
  have hend := Safe.invariant hkeep h hs (Option.some_ne_none live)
  exact hend

theorem Keeps.of_evals {r : Except ε α} (h : Keeps allowed entries Q p live)
    (hes : run es [] = some live) (hr : p.Evals (Entering allowed entries) es r es') :
    ∃ live', run es' [] = some live' ∧ Q r live' := by
  have hs := steps_monitored hr
  rw [hes] at hs
  exact Safe.of_evals h hs

omit [DecidableEq ρ] in
theorem evals_entering {c : C} {k : R c → Prog C R ε α} {x : Except ε α} (r : R c)
    (hr : allowed ⟨c, r⟩)
    (h : (k r).Evals (Entering allowed entries) (es ++ entries ⟨c, r⟩) x es') :
    (Prog.call c k).Evals (Entering allowed entries) es x es' := by
  rw [Prog.evals_call_iff]
  exact ⟨r, _, ⟨hr, rfl⟩, h⟩

end Ledger
