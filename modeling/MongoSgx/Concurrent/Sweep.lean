import MongoSgx.Concurrent.Calls

/-! # Deleting a user among others

`delete_user` reads the groups through a cursor, writes one conditional update for
each and deletes the record, while the other clients go on. Two families of
assertions describe the way: what is known while the cursor is read, and what is
known of the updates that are still to be written.
-/

namespace MongoSgx

open Bson Interaction

variable {β : Type} [DecidableEq β]

/-- What `delete_user` needs of the contract, with the assertion `I cur Gs` while the groups `Gs`
have been read through the cursor `cur`, and `J Gs` while the updates of `Gs` are to be written. -/
structure Sweeps (P : Primitives β) (E : Env (Call β) Reply (World β)) (K : Contract (World β))
    (u : List β) (I : Cursor β → List (Group β) → Vault β → Prop)
    (J : List (Group β) → Vault β → Prop) : Prop where
  reading : ∀ cur Gs, Standing P K (I cur Gs)
  writing : ∀ Gs, Standing P K (J Gs)
  overGroups : ∀ cur Gs V, I cur Gs V → OverGroups cur
  visit : ∀ V cur cur' Gs G, I cur Gs V → G ∈ V.groups → OverGroups cur' →
    cur'.todo = some ((due V cur).erase G.id) → I cur' (Gs ++ [G]) V
  finish : ∀ V cur Gs, I cur Gs V → (∀ G ∈ V.groups, G.id ∉ due V cur) → J Gs V
  write : ∀ V G H Gs, J (G :: Gs) V → H ∈ V.groups → H.toDoc P = G.toDoc P →
    K.guar (V.toWorld P)
      ((V.modify G.name (.leave u) (G.nextSignature P (.leave u))).toWorld P) ∧
    J Gs (V.modify G.name (.leave u) (G.nextSignature P (.leave u)))
  miss : ∀ V G Gs, J (G :: Gs) V →
    E (.bulkUpdateOne .groups (sweepOp P u G).1 (sweepOp P u G).2) (V.toWorld P) (.ok ())
      (V.toWorld P) → (∀ H ∈ V.groups, H.toDoc P ≠ G.toDoc P) → J Gs V
  forget : ∀ V, J [] V → K.guar (V.toWorld P) ((V.forget u).toWorld P) ∧ J [] (V.forget u)

variable {P : Primitives β} {E : Env (Call β) Reply (World β)} {K : Contract (World β)}
  {u : List β} {I : Cursor β → List (Group β) → Vault β → Prop}
  {J : List (Group β) → Vault β → Prop} {count : ℤ → Scalar} {V : Vault β}

def QueuedHeld (P : Primitives β) (u : List β) (A : List (Group β) → Vault β → Prop)
    (bulk : Bulk β) (w : World β) : Prop :=
  ∃ Gs : List (Group β), bulk = Gs.map (sweepOp P u) ∧ Held P (A Gs) w

def Finished (P : Primitives β) (J : List (Group β) → Vault β → Prop) (r : Except Stop Unit)
    (w : World β) : Prop := r = .ok () → Held P (J []) w

omit [DecidableEq β] in
theorem finished_error {e : Stop} {w : World β} : Finished P J (.error e) w := by
  intro hr
  cases hr

theorem Sweeps.sweepSteps (hP : P.Ideal) (hE : HonestAnswers count E) (h : Sweeps P E K u I J) :
    SweepSteps (K.rule E) P u (fun cur => QueuedHeld P u (I cur))
      (fun cur bulk d w => ∃ G : Group β, d = G.toDoc P ∧
        QueuedHeld P u (I cur) (bulk ++ [sweepOp P u G]) w)
      (QueuedHeld P u J) (fun e => Finished P J (.error e)) where
  quiet_round cur _ := .exists fun Gs => .and ((h.reading cur Gs).quiet hE)
  quiet_read cur _ _ := .exists fun _ => .and (.exists fun Gs => .and ((h.reading cur Gs).quiet hE))
  next := by
    rintro cur _ w ⟨Gs, rfl, hw⟩
    refine (h.reading cur Gs).pre hw ?_
    rintro W ⟨d, cur'⟩ w' hW hstep
    obtain ⟨rfl, ⟨G, hG, -, rfl, hover, htodo, -⟩ | ⟨hno, rfl⟩⟩ :=
      honest_nextGroup (h.overGroups cur Gs _ hW) (hE _ _ _ _ hstep)
    · refine ⟨K.guar_refl _, G, rfl, Gs ++ [G], ?_, W, rfl, h.visit W cur cur' Gs G hW hG hover htodo⟩
      rw [List.map_append, List.map_singleton]
    · exact ⟨K.guar_refl _, Gs, rfl, W, rfl, h.finish W cur Gs hW hno⟩
  stop _ _ _ _ _ _ _ := finished_error
  queue := by
    rintro _ _ _ _ op ⟨G, rfl, hw⟩ hop
    obtain ⟨-, rfl⟩ := (sweepOf_toDoc hP).mp hop
    exact hw

theorem Sweeps.dropSteps (hP : P.Ideal) (hE : HonestAnswers count E) (h : Sweeps P E K u I J) :
    DropSteps (K.rule E) P u (QueuedHeld P u J) (Finished P J) where
  quiet_write _ := .exists fun Gs => .and ((h.writing Gs).quiet hE)
  quiet_done _ := quiet_of_stable hE fun _ _ hw ht hr => (h.writing []).held (hw hr) ht
  write := by
    rintro sel upd bulk w ⟨_ | ⟨G, Gs⟩, hGs, hw⟩
    · cases hGs
    · obtain ⟨hop, rfl⟩ := List.cons.inj hGs
      obtain ⟨rfl, rfl⟩ := Prod.mk.inj hop
      refine (h.writing (G :: Gs)).pre hw ?_
      intro W r w' hW hstep
      obtain ⟨rfl, ⟨rfl, hno⟩ | ⟨rfl, H, hH, he⟩⟩ := honest_bulkEdit hP (hE _ _ _ _ hstep)
      · exact ⟨K.guar_refl _, Gs, rfl, W, rfl, h.miss W G Gs hW hstep hno⟩
      · obtain ⟨hguar, hW'⟩ := h.write W G H Gs hW hH he
        exact ⟨hguar, Gs, rfl, _, rfl, hW'⟩
  delete := by
    rintro w ⟨Gs, hGs, hw⟩
    obtain rfl := List.map_eq_nil_iff.mp hGs.symm
    refine (h.writing []).pre hw ?_
    intro W r w' hW hstep
    obtain ⟨rfl, rfl⟩ := honest_forget hP (hE _ _ _ _ hstep)
    obtain ⟨hguar, hW'⟩ := h.forget W hW
    exact ⟨hguar, fun _ => ⟨_, rfl, hW'⟩⟩

theorem Sweeps.safe_deleteUser (hP : P.Ideal) (hE : HonestAnswers count E)
    (h : Sweeps P E K u I J)
    (hV : I (findWithOpts .groups [] none (some .primaryPreferred)) [] V) :
    Safe E K (fun r t => r = .ok () → ∃ W, t = W.toWorld P ∧ J [] W) (deleteUser P u)
      (V.toWorld P) := by
  have hdrop := h.dropSteps hP hE
  refine (h.sweepSteps hP hE).judged_deleteUser hdrop (fun bulk w hbulk => ?_) sound_safe loops_safe
    (fun r w hr => safe_ofExcept_iff.mpr fun t ht hok => (h.writing []).held (hr hok) ht)
    ⟨[], rfl, V, rfl, hV⟩
  split
  · exact finished_error
  · exact hbulk

end MongoSgx
