import Mathlib.Algebra.Order.BigOperators.Group.List
import Mathlib.Algebra.Order.Group.Nat
import Mathlib.Data.List.Perm.Subperm
import MongoSgx.Interaction.Credit
import MongoSgx.Interaction.History

/-! # What a history can use up

A world holds a supply that grows only by what some calls put in. A client that never
takes the same thing twice can take no more than the first world held and the history
has put in.
-/

namespace Interaction

variable {C : Type} {R : C → Type} {ε S α ι ν : Type} [DecidableEq ι] {E : Env C R S}
  {prog : ι → Prog C R ε α} {cfg cfg' : Config ι C R ε α S} {ms : List (Move ι C R S)} {i : ι}

theorem History.restrict {Inv : S → Prop} (h : History E prog cfg ms cfg')
    (hms : ∀ m ∈ ms, Inv m.before) :
    History (fun c s r s' => Inv s ∧ E c s r s') prog cfg ms cfg' := by
  induction h with
  | nil => exact .nil _
  | call _ hi hE ih =>
    have hbefore := hms _ (List.mem_append_right _ (List.mem_singleton_self _))
    exact (ih fun m hm => hms m (List.mem_append_left _ hm)).call hi ⟨hbefore, hE⟩
  | @quiet _ _ _ e _ hs he ih =>
    refine (ih hms).quiet (e := e) ?_ he
    cases hs with
    | call => cases he
    | invoke hi => exact .invoke hi
    | unroll hi => exact .unroll hi
    | finish hi => exact .finish hi

/-- What is spent comes out of the world and of what is earned. -/
theorem History.spent_le (T : Tariff C R) (amount : S → ℕ) (h : History E prog cfg ms cfg')
    (hms : ∀ m ∈ ms, amount m.after + T.price m.line ≤ amount m.before + T.credit m.line) :
    amount cfg'.world + T.spent (ms.map Move.line) ≤
      amount cfg.world + T.earned (ms.map Move.line) := by
  induction h with
  | nil => simp
  | @call cfg' ms i c k r w _ _ _ ih =>
    have hlast : amount w + T.price ⟨c, r⟩ ≤ amount cfg'.world + T.credit ⟨c, r⟩ :=
      hms _ (List.mem_append_right _ (List.mem_singleton_self _))
    have hfirst := ih fun m hm => hms m (List.mem_append_left _ hm)
    simp only [List.map_append, List.map_cons, List.map_nil, Tariff.spent_append,
      Tariff.earned_append, Tariff.spent_cons, Tariff.earned_cons, Tariff.spent_nil,
      Tariff.earned_nil]
    change amount w + _ ≤ _
    omega
  | quiet _ hs he ih =>
    rw [hs.world_eq he]
    exact ih hms

theorem Tariff.spent_callsOf_le (T : Tariff C R) (i : ι) (ms : List (Move ι C R S)) :
    T.spent (callsOf i ms) ≤ T.spent (ms.map Move.line) := by
  have hsub : (callsOf i ms).Sublist (ms.map Move.line) := List.filter_sublist.map _
  exact (hsub.map T.price).sum_le_sum fun _ _ => Nat.zero_le _

variable {names : S → List ν} {new : Move ι C R S → List ν}

theorem History.names_subset (h : History E prog cfg ms cfg')
    (hnew : ∀ m ∈ ms, names m.after ⊆ names m.before ++ new m) :
    ∀ m ∈ ms, names m.before ⊆ names cfg.world ++ ms.flatMap new := by
  let Inv : S → Prop := fun s => names s ⊆ names cfg.world ++ ms.flatMap new
  have hstep : ∀ m ∈ ms, Inv m.before → Inv m.after := by
    intro m hm hbefore a ha
    rcases List.mem_append.mp (hnew m hm ha) with ha | ha
    · exact hbefore ha
    · exact List.mem_append_right _ (List.mem_flatMap.mpr ⟨m, hm, ha⟩)
  have hall : (∀ m ∈ ms, Inv m.before) ∧ Inv cfg'.world :=
    h.invariant (List.subset_append_left _ _) hstep
  exact hall.1

theorem History.length_taken_le (names : S → List ν) (new : Move ι C R S → List ν)
    (take : Exchange C R → Option ν) (h : History E prog cfg ms cfg')
    (hnew : ∀ m ∈ ms, names m.after ⊆ names m.before ++ new m)
    (htake : ∀ m ∈ ms, m.client = i → ∀ a, take m.line = some a → a ∈ names m.before)
    (hnodup : ((callsOf i ms).filterMap take).Nodup) :
    ((callsOf i ms).filterMap take).length ≤
      (names cfg.world).length + (ms.flatMap new).length := by
  rw [← List.length_append]
  apply List.Subperm.length_le
  apply hnodup.subperm
  intro a ha
  obtain ⟨x, hx, hxa⟩ := List.mem_filterMap.mp ha
  obtain ⟨m, hm, hmi, rfl⟩ := mem_callsOf.mp hx
  exact h.names_subset hnew m hm (htake m hm hmi a hxa)

end Interaction
