import MongoSgx.Interaction.Rely

/-! # Views of a state

A program only sees the replies to its calls. If in one system each call is answered
as in another one, from a state into which others could have brought it, then what
the program keeps among others in the second it keeps in the first: an answer from
an old state is one between two steps of others.
-/

namespace Interaction

variable {C : Type} {R : C → Type} {ε S T α : Type}

/-- The states that `Seen` relates to a state of the viewed system are those it may answer from. -/
structure Views (E : Env C R S) (K : Contract S) (F : Env C R T) (L : Contract T)
    (Seen : T → S → Prop) : Prop where
  stable {x y : T} {s : S} (hs : Seen x s) (hxy : L.rely x y) : ∃ t, K.rely s t ∧ Seen y t
  call {x y : T} {s : S} {c : C} {r : R c} (hs : Seen x s) (hF : F c x r y) :
    ∃ t u, K.rely s t ∧ E c t r u ∧ (K.guar t u → L.guar x y ∧ Seen y u)

variable {E : Env C R S} {F : Env C R T} {K : Contract S} {L : Contract T} {Seen : T → S → Prop}
  {Q : Except ε α → S → Prop} {Q' : Except ε α → T → Prop} {p : Prog C R ε α} {s : S} {x : T}

theorem Views.safe (hv : Views E K F L Seen) (hQ : ∀ r x s, Seen x s → Q r s → Q' r x)
    (h : Safe E K Q p s) (hs : Seen x s) : Safe F L Q' p x := by
  intro n
  replace h : SafeFor E K Q n p s := h n
  induction n generalizing p s x with
  | zero => trivial
  | succ n ih =>
    cases p with
    | pure a =>
      intro y hy
      obtain ⟨t, ht, hyt⟩ := hv.stable hs hy
      exact hQ _ _ _ hyt (h t ht)
    | throw e =>
      intro y hy
      obtain ⟨t, ht, hyt⟩ := hv.stable hs hy
      exact hQ _ _ _ hyt (h t ht)
    | call c k =>
      intro y hy r z hF
      obtain ⟨t, ht, hyt⟩ := hv.stable hs hy
      obtain ⟨t', u, ht', hE, hguar⟩ := hv.call hyt hF
      obtain ⟨hg, hk⟩ := h t' (K.rely_trans ht ht') r u hE
      obtain ⟨hg', hu⟩ := hguar hg
      exact ⟨hg', ih hu hk⟩
    | loop body x k => exact ih (p := Prog.unroll body k x) hs h

/-- The rule of consequence for contracts: a state is a view of itself. -/
theorem Safe.weaken {L : Contract S} (h : Safe E K Q p s)
    (hrely : ∀ s t, L.rely s t → K.rely s t) (hguar : ∀ s t, K.guar s t → L.guar s t) :
    Safe E L Q p s := by
  have hviews : Views E K E L (fun x s => s = x) := {
    stable := by
      rintro x y _ rfl hxy
      exact ⟨y, hrely _ _ hxy, rfl⟩
    call := by
      rintro x y s c r hs hE
      obtain rfl : s = x := hs
      exact ⟨s, y, K.rely_refl s, hE, fun hg => ⟨hguar _ _ hg, rfl⟩⟩ }
  refine hviews.safe ?_ h rfl
  rintro r x _ rfl hr
  exact hr

end Interaction
