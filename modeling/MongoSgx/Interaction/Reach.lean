import MongoSgx.Interaction.Total

/-! # What a program can come to

Two questions about the runs of a program are answered call by call. It can end or
make a call if some answers lead there, and it makes none but certain calls if no
answer leads to another one.
-/

namespace Interaction

variable {C : Type} {R : C → Type} {ε S α : Type}

def Env.choice (E : Env C R S) : CallRule C R S where
  pre c s Φ := ∃ r s', E c s r s' ∧ Φ r s'
  mono := fun ⟨r, s', hE, h⟩ hΦ => ⟨r, s', hE, hΦ r s' h⟩

/-- The call is the one that is looked for, or some answer will do. -/
def Env.sending (E : Env C R S) (d : C) : CallRule C R S where
  pre c s Φ := c = d ∨ E.choice.pre c s Φ
  mono h hΦ := h.imp_right fun h => E.choice.mono h hΦ

/-- The call is as asserted, and every answer will do. -/
def Env.sparing (E : Env C R S) (G : C → Prop) : CallRule C R S where
  pre c s Φ := G c ∧ E.rule.pre c s Φ
  mono h hΦ := ⟨h.1, E.rule.mono h.2 hΦ⟩

variable {E : Env C R S} {p : Prog C R ε α} {s t : S} {c : C}

theorem CallRule.Ends.evals {r : Except ε α}
    (h : E.choice.Ends (fun r' t' => r' = r ∧ t' = t) p s) : p.Evals E s r t := by
  refine h.judged (J := fun p s => p.Evals E s r t) (fun hc => Prog.evals_call_iff.mpr hc) ?_
  rintro _ _ ⟨rfl, rfl⟩
  exact .refl _ _

theorem CallRule.Ends.sends (h : (E.sending c).Ends (fun _ _ => False) p s) : p.Sends E s c :=
  h.judged (J := fun p s => p.Sends E s c) (fun hc => Prog.sends_call_iff.mpr hc)
    fun _ _ hno => hno.elim

theorem CallRule.Ends.of_sends {G : C → Prop} {Q : Except ε α → S → Prop}
    (h : (E.sparing G).Ends Q p s) (hc : p.Sends E s c) : G c := by
  refine h.judged (J := fun p s => p.Sends E s c → G c) ?_ ?_ hc
  · rintro d t k ⟨hd, hk⟩ hsends
    rcases Prog.sends_call_iff.mp hsends with rfl | ⟨r, u, hE, h⟩
    · exact hd
    · exact hk r u hE h
  · rintro (e | a) t - hsends
    · exact absurd hsends Prog.not_sends_throw
    · exact absurd hsends Prog.not_sends_pure

/-- The runs of such a program are possible wherever those calls are answered as they are here. -/
theorem CallRule.Ends.evals_of_sparing {E' : Env C R S} {G : C → Prop} {Q : Except ε α → S → Prop}
    {r : Except ε α} (h : (E.sparing G).Ends Q p s)
    (hG : ∀ c s r s', G c → E c s r s' → E' c s r s') (hr : p.Evals E s r t) :
    p.Evals E' s r t := by
  refine h.judged (J := fun p s => p.Evals E s r t → p.Evals E' s r t) ?_ ?_ hr
  · rintro c s k ⟨hc, hk⟩ hr
    obtain ⟨x, u, hE, h⟩ := Prog.evals_call_iff.mp hr
    exact Prog.evals_call_iff.mpr ⟨x, u, hG c s x u hc hE, hk x u hE h⟩
  · rintro (e | a) u - hr
    · exact Prog.evals_throw_iff.mpr (Prog.evals_throw_iff.mp hr)
    · exact Prog.evals_pure_iff.mpr (Prog.evals_pure_iff.mp hr)

end Interaction
