import MongoSgx.Interaction.History

/-! # The run behind a history

A world represents an abstract state. If each call of each client leaves the abstract
state alone or takes a step that is allowed to the client, then a history of calls,
however they interleave, is a run of the abstract system.
-/

namespace Interaction

variable {C : Type} {R : C → Type} {ε S A α ι : Type}

/-- Everyone keeps the invariant, and the program only moves as it is allowed to. -/
def Contract.moving (Inv : S → Prop) (Moves : S → S → Prop) : Contract S where
  rely := (Contract.keeping Inv).rely
  guar s t := Inv s → Inv t ∧ (t = s ∨ Moves s t)
  rely_refl := (Contract.keeping Inv).rely_refl
  rely_trans := (Contract.keeping Inv).rely_trans
  guar_refl _ h := ⟨h, .inl rfl⟩

section Guarantees

variable [DecidableEq ι] {E : Env C R S} {prog : ι → Prog C R ε α} {cfg cfg' : Config ι C R ε α S}
  {ms : List (Move ι C R S)} {Inv : S → Prop} {K : ι → Contract S}
  {Q : ι → Except ε α → S → Prop} {compat : ι → ι → Prop} {w : S}

theorem History.guarantees (hc : Composable E E prog (fun _ _ => True) Inv K Q compat)
    (h : History E prog cfg ms cfg') (hcfg : PoolSafe E Inv K Q compat cfg) :
    PoolSafe E Inv K Q compat cfg' ∧
      ∀ m ∈ ms, Inv m.before ∧ (K m.client).guar m.before m.after := by
  induction h with
  | nil => exact ⟨hcfg, fun m hm => absurd hm List.not_mem_nil⟩
  | @call cfg' ms i c k r w _ hi hE ih =>
    obtain ⟨hpool, hms⟩ := ih
    refine ⟨hpool.step hc trivial (.call hi hE), fun m hm => ?_⟩
    rcases List.mem_append.mp hm with hm | hm
    · exact hms m hm
    · have hsafe := hpool.safe i
      rw [hi] at hsafe
      rw [List.mem_singleton.mp hm]
      exact ⟨hpool.inv, (safe_call_iff.mp hsafe _ ((K i).rely_refl _) r w hE).1⟩
  | quiet _ hs _ ih => exact ⟨ih.1.step hc trivial hs, ih.2⟩

omit [DecidableEq ι] in
theorem composable_of_safe
    (hsafe : ∀ i s, Inv s → Safe E (K i) (fun _ _ => True) (prog i) s)
    (hrely : ∀ i s t, (Inv s → Inv t) → (K i).rely s t)
    (hguar : ∀ i s t, (K i).guar s t → Inv s → Inv t) :
    Composable E E prog (fun _ _ => True) Inv K (fun _ _ _ => True) (fun _ _ => True) where
  env _ hE := hE
  start hs := hsafe _ _ hs
  admits _ _ := ⟨trivial, trivial⟩
  inv hg := hguar _ _ _ hg
  noninterference _ _ _ hg := hrely _ _ _ (hguar _ _ _ hg)
  result _ _ _ _ := trivial

theorem History.keeps
    (hsafe : ∀ i s, Inv s → Safe E (.keeping Inv) (fun _ _ => True) (prog i) s) (hw : Inv w)
    (h : History E prog (.start w) ms cfg) : ∀ m ∈ ms, Inv m.before → Inv m.after := by
  have hc := composable_of_safe hsafe (fun _ _ _ h => h) (fun _ _ _ h => h)
  exact fun m hm => ((h.guarantees hc (.start hw)).2 m hm).2

theorem History.moves {Moves : ι → S → S → Prop}
    (hsafe : ∀ i s, Inv s → Safe E (.moving Inv (Moves i)) (fun _ _ => True) (prog i) s)
    (hw : Inv w) (h : History E prog (.start w) ms cfg) :
    Inv cfg.world ∧ ∀ m ∈ ms, Inv m.before ∧
      (m.after = m.before ∨ Moves m.client m.before m.after) := by
  have hc := composable_of_safe hsafe (fun _ _ _ h => h) (fun _ _ _ h hs => (h hs).1)
  obtain ⟨hpool, hms⟩ := h.guarantees hc (.start hw)
  refine ⟨hpool.inv, fun m hm => ?_⟩
  obtain ⟨hbefore, hguar⟩ := hms m hm
  exact ⟨hbefore, (hguar hbefore).2⟩

end Guarantees

section Trails

/-- A run of the abstract system behind the calls: each of them leaves the abstract state alone or
takes a step of its client. -/
inductive Trail (Rep : A → S → Prop) (step : ι → A → A → Prop) :
    A → List (Move ι C R S) → A → Prop
  | nil (a : A) : Trail Rep step a [] a
  | idle {a b : A} {ms : List (Move ι C R S)} {m : Move ι C R S} (h : Trail Rep step a ms b)
      (hbefore : Rep b m.before) (hafter : Rep b m.after) : Trail Rep step a (ms ++ [m]) b
  | move {a b b' : A} {ms : List (Move ι C R S)} {m : Move ι C R S} (h : Trail Rep step a ms b)
      (hbefore : Rep b m.before) (hs : step m.client b b') (hafter : Rep b' m.after) :
      Trail Rep step a (ms ++ [m]) b'

variable {Rep : A → S → Prop} {step : ι → A → A → Prop} {a b : A} {ms : List (Move ι C R S)}

variable [DecidableEq ι] {E : Env C R S} {prog : ι → Prog C R ε α} {cfg : Config ι C R ε α S}
  {w : S}

theorem History.trail (h : History E prog (.start w) ms cfg)
    (hms : ∀ m ∈ ms, ∀ a, Rep a m.before →
      Rep a m.after ∨ ∃ b, step m.client a b ∧ Rep b m.after) (hw : Rep a w) :
    ∃ b, Trail Rep step a ms b ∧ Rep b cfg.world := by
  generalize hstart : Config.start w = cfg₀ at h
  induction h with
  | nil =>
    subst hstart
    exact ⟨a, .nil a, hw⟩
  | call _ _ _ ih =>
    obtain ⟨b, htrail, hb⟩ := ih fun m hm => hms m (List.mem_append_left _ hm)
    have hlast := hms _ (List.mem_append_right _ (List.mem_singleton_self _)) b hb
    rcases hlast with hafter | ⟨b', hs, hafter⟩
    · exact ⟨b, htrail.idle hb hafter, hafter⟩
    · exact ⟨b', htrail.move hb hs hafter, hafter⟩
  | quiet _ hs he ih =>
    rw [hs.world_eq he]
    exact ih hms

end Trails

end Interaction
