import MongoSgx.Sequential.Keys

/-! # Removal from all groups and from each

`remove_user_from_all_groups` finds the member of every group by the name that
it decrypts, selects the group by the whole document, and rewrites also the
groups that the user is not in. On a database that single-client calls have
built it leaves the groups as the removals from each group do, one after the
other in any order.
-/

namespace MongoSgx

open Bson Interaction

variable {β : Type} [DecidableEq β] {count : ℤ → Scalar} {P : Primitives β} {V : Vault β}
  {u : List β}

/-- `remove_user_from_group`, called for one group after the other. -/
def removeUserFromEach (P : Primitives β) (userName : List β) : List (List β) → Enclave β Unit
  | [] => return ()
  | groupName :: groupNames => do
    removeUserFromGroup P groupName userName
    removeUserFromEach P userName groupNames

theorem wp_removeUserFromEach (hP : P.Ideal) : ∀ {gs : List (List β)} {V : Vault β},
    gs.Nodup → V.Signed P →
    Wp (Honest count) (fun r w => r = .ok () ∧ w = (V.leaveSome P u gs).toWorld P)
      (removeUserFromEach P u gs) (V.toWorld P)
  | [], V, _, _ => .pure ⟨rfl, by rw [Vault.leaveSome_nil]⟩
  | g :: gs, V, hn, hS => by
      rw [List.nodup_cons] at hn
      apply Wp.bind
      apply (wp_removeUserFromGroup hP hS).mono
      rintro r _ ⟨rfl, rfl⟩
      rw [andThen_ok, ← Vault.leaveSome_cons hn.1]
      exact wp_removeUserFromEach hP hn.2 hS.update

theorem wp_removeUserFromAllGroups (hP : P.Ideal) (hS : V.Signed P) (hne : V.groups.elems ≠ []) :
    Wp (Honest count) (fun r w => r = .ok () ∧ w = (V.leaveAll P u).toWorld P)
      (removeUserFromAllGroups P u) (V.toWorld P) := by
  simp only [removeUserFromAllGroups, create, destroy, Prog.bind_eq, Prog.request_bind]
  iterate 6 refine wp_silent (by trivial) fun _ => ?_
  simp only [Prog.loop_bind, Prog.pure_bind]
  refine wp_sweep hP hS fun bulk hbulk => .bind ?_
  apply ((dropSteps_alone hP).ends_bulkExecute hbulk.dropping).wp.mono
  rintro (e | e | ⟨⟩) w hr
  · exact hr.elim
  · simp only [BulkOver] at hr
    split at hr
    · obtain ⟨hnil, -⟩ | ⟨-, he, -⟩ := hr
      · exact absurd hnil hne
      · cases he
    · rename_i hcode
      rw [andThen_ok, throwUnless, throwPotentialError, if_neg hcode]
      exact .pure ⟨rfl, hr.done⟩
  · exact .pure ⟨rfl, Dropping.done hr⟩

/-- Bulk removal and removal from each stored group return, and leave the same database: the
same group documents, with the same members in the same order and the same signatures. -/
theorem bulk_removal_eq_removal_from_each (hP : P.Ideal) (count : ℤ → Scalar)
    (hist : List (Op β × Except Stop Unit)) {w : World β}
    (h : Session (Honest count) (Op.prog P) World.empty hist w) (hne : w.groups ≠ [])
    (u : List β) (gs : List (List β)) (hn : gs.Nodup) (hgs : ∀ g, g ∈ gs ↔ w.HasGroup P g) :
    ∃ w' : World β,
      Wp (Honest count) (fun r w₁ => r = .ok () ∧ w₁ = w') (removeUserFromAllGroups P u) w ∧
      Wp (Honest count) (fun r w₁ => r = .ok () ∧ w₁ = w') (removeUserFromEach P u gs) w := by
  obtain ⟨-, V, rfl, hS, -, -⟩ := h.simulation (simulates_directory hP count) (fun _ _ => trivial)
    represents_empty
  have helems : V.groups.elems ≠ [] := fun hnil => hne (by simp [Vault.toWorld, hnil])
  have hnames : ∀ G ∈ V.groups, G.name ∈ gs := fun G hG =>
    (hgs G.name).mpr ((hasGroup_iff hP).mpr ⟨G, hG, rfl⟩)
  refine ⟨(V.leaveAll P u).toWorld P, wp_removeUserFromAllGroups hP hS helems, ?_⟩
  rw [← Vault.leaveSome_eq_leaveAll hnames]
  exact wp_removeUserFromEach hP hn hS

/-- The removal of a user from two groups, one of which it is not in, and from both in turn. -/
theorem bulk_removal_eq_removal_from_each_sample : ∃ hist w w',
    Session (Honest .int64) (Op.prog Primitives.nat) World.empty hist w ∧
    hist.map Prod.fst = [.createUser [1] [7], .createUser [2] [8], .createGroup [5] [1],
      .createGroup [6] [2], .addUserToGroup [5] [2]] ∧
    Wp (Honest .int64) (fun r w₁ => r = .ok () ∧ w₁ = w')
      (removeUserFromAllGroups Primitives.nat [1]) w ∧
    Wp (Honest .int64) (fun r w₁ => r = .ok () ∧ w₁ = w')
      (removeUserFromEach Primitives.nat [1] [[6], [5]]) w := by
  obtain ⟨hist, w, h, hops, hD⟩ := exists_session (β := ℕ) Primitives.nat_ideal .int64
    [.createUser [1] [7], .createUser [2] [8], .createGroup [5] [1], .createGroup [6] [2],
      .addUserToGroup [5] [2]]
  have hgroup : ∀ g : List ℕ, g ∈ [[6], [5]] ↔ w.HasGroup Primitives.nat g := fun g => by
    rw [hD.mem_groups_iff Primitives.nat_ideal]
    change _ ↔ g ∈ [[5], [6]]
    simp [or_comm]
  have hne : w.groups ≠ [] := fun hnil => by
    obtain ⟨d, hd, -⟩ := (hgroup [5]).mp (by simp)
    simp [hnil] at hd
  obtain ⟨w', hall, heach⟩ := bulk_removal_eq_removal_from_each Primitives.nat_ideal .int64 hist h
    hne [1] [[6], [5]] (by simp) hgroup
  exact ⟨hist, w, w', h, hops, hall, heach⟩

end MongoSgx
