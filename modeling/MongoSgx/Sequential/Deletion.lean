import Mathlib.Data.List.Forall2
import MongoSgx.Sequential.Directory

/-! # Deleting a user

What `delete_user` owes, on the documents of the database: the record of the user
goes, its entry goes from every group, and everything else stays. In the states a
single client can reach it delivers this exactly when there is a group; without
one the bulk of group updates is empty, which the driver rejects.
-/

namespace MongoSgx

open Bson Interaction

variable {β : Type} [DecidableEq β] (P : Primitives β) (u : List β)

/-- The group document without the entry of the user; the order of the others is kept. -/
structure EntryDropped (d d' : Doc β) : Prop where
  identity : ∀ key ∈ ["_id", "name", "encname"], Doc.get? d' key = Doc.get? d key
  users : usersArray d' = (usersArray d).filter fun v => entryName v ≠ pseudonymIn P u d

structure UserDeleted (w w' : World β) : Prop where
  users : w'.users = w.users.filter fun d =>
    Doc.get? d "name" ≠ some (.binary (hashName P u none).toList)
  groups : List.Forall₂ (EntryDropped P u) w.groups w'.groups

variable {P u}

theorem UserDeleted.no_record {w w' : World β} (h : UserDeleted P u w w') :
    ∀ d ∈ w'.users, Doc.get? d "name" ≠ some (.binary (hashName P u none).toList) := by
  intro d hd
  rw [h.users, List.mem_filter] at hd
  simpa using hd.2

theorem EntryDropped.no_entry {d d' : Doc β} (h : EntryDropped P u d d') :
    ∀ v ∈ usersArray d', entryName v ≠ pseudonymIn P u d' := by
  have hp : pseudonymIn P u d' = pseudonymIn P u d := by
    unfold pseudonymIn
    rw [h.identity "encname" (by simp)]
  intro v hv
  rw [h.users, List.mem_filter] at hv
  rw [hp]
  simpa using hv.2

theorem entryDropped_next (hP : P.Ideal) (G : Group β) :
    EntryDropped P u (G.toDoc P) ((G.next P (.leave u)).toDoc P) where
  identity := by
    simp [Group.next, Group.toDoc, Doc.get?, List.lookup_cons, Group.encname]
  users := by
    rw [usersArray_toDoc, usersArray_toDoc, pseudonymIn_toDoc hP, Group.next,
      Group.entries_leave hP, List.filter_map]
    congr 1
    apply List.filter_congr
    intro e _
    simp

theorem userDeleted_deleteUser (hP : P.Ideal) (V : Vault β) :
    UserDeleted P u (V.toWorld P) (((V.leaveAll P u).forget u).toWorld P) where
  users := by
    change (V.accounts.erase u).elems.map _ = (V.accounts.elems.map _).filter _
    rw [List.filter_map]
    congr 1
    apply List.filter_congr
    intro a _
    simp [Account.toDoc, Doc.get?, List.lookup_cons, List.Vector.toList_injective.eq_iff,
      hashName_none_inj hP]
  groups := by
    change List.Forall₂ _ (V.groups.elems.map _) ((V.groups.elems.map _).map _)
    rw [List.map_map, List.forall₂_map_left_iff, List.forall₂_map_right_iff, List.forall₂_same]
    exact fun G _ => entryDropped_next hP G

section Reachable

variable {count : ℤ → Scalar} {D : Directory β} {w : World β}

omit [DecidableEq β] in
theorem Represents.groups_eq_nil (h : Represents P D w) : w.groups = [] ↔ D.groups.elems = [] := by
  obtain ⟨V, rfl, -, -, rfl⟩ := h
  rw [Vault.directory_groups_nil]
  exact List.map_eq_nil_iff

theorem Represents.wp_deleteUser (hP : P.Ideal) (h : Represents P D w) (hne : w.groups ≠ []) :
    Wp (Honest count) (fun r w' => r = .ok () ∧ UserDeleted P u w w') (deleteUser P u) w := by
  rw [Ne, h.groups_eq_nil] at hne
  obtain ⟨V, rfl, hS, -, rfl⟩ := h
  apply (MongoSgx.wp_deleteUser hP hS).mono
  rintro r w' (⟨hnil, -, -⟩ | ⟨-, hr, rfl⟩)
  · exact absurd (Vault.directory_groups_nil.mpr hnil) hne
  · exact ⟨hr, userDeleted_deleteUser hP V⟩

theorem Represents.wp_deleteUser_empty (hP : P.Ideal) (h : Represents P D w)
    (hnil : w.groups = []) :
    Wp (Honest count) (fun r w' => r = .error (.thrown emptyBulkError) ∧ w' = w)
      (deleteUser P u) w := by
  rw [h.groups_eq_nil] at hnil
  obtain ⟨V, rfl, hS, -, rfl⟩ := h
  apply (MongoSgx.wp_deleteUser hP hS).mono
  rintro r w' (⟨-, hr, hw⟩ | ⟨hne, -, -⟩)
  · exact ⟨hr, hw⟩
  · exact absurd (Vault.directory_groups_nil.mp hnil) hne

theorem Represents.not_wp_deleteUser (hP : P.Ideal) (h : Represents P D w)
    (hnil : w.groups = []) :
    ¬ Wp (Honest count) (fun r w' => r = .ok () ∧ UserDeleted P u w w') (deleteUser P u) w := by
  intro hwp
  obtain ⟨r, w', hr, he, -⟩ := (h.wp_deleteUser_empty hP hnil).exists_evals (honest_total count)
  obtain ⟨hok, -⟩ := hwp.of_evals hr
  rw [he] at hok
  cases hok

end Reachable

/-- In every state that a single client can reach, `delete_user` returns and deletes the user
exactly when the `groups` collection is not empty. -/
theorem deleteUser_correct_iff (hP : P.Ideal) (count : ℤ → Scalar)
    (hist : List (Op β × Except Stop Unit)) {w : World β}
    (h : Session (Honest count) (Op.prog P) World.empty hist w) (u : List β) :
    Wp (Honest count) (fun r w' => r = .ok () ∧ UserDeleted P u w w') (deleteUser P u) w ↔
      w.groups ≠ [] := by
  obtain ⟨-, hD⟩ := h.simulation (simulates_directory hP count) (fun _ _ => trivial)
    represents_empty
  constructor
  · exact fun hwp hnil => hD.not_wp_deleteUser hP hnil hwp
  · exact hD.wp_deleteUser hP

/-- A user in a group of two can be deleted. -/
theorem deleteUser_correct_iff_sample : ∃ hist w,
    Session (Honest .int64) (Op.prog Primitives.nat) World.empty hist w ∧
    hist.map Prod.fst = [.createUser [1] [7], .createGroup [5] [1], .createUser [2] [8],
      .addUserToGroup [5] [2]] ∧
    Wp (Honest .int64) (fun r w' => r = .ok () ∧ UserDeleted Primitives.nat [1] w w')
      (deleteUser Primitives.nat [1]) w := by
  obtain ⟨hist, w, h, hops, hD⟩ := exists_session Primitives.nat_ideal .int64 [.createUser [1] [7],
    .createGroup [5] [1], .createUser [2] [8], .addUserToGroup [5] [2]]
  refine ⟨hist, w, h, hops, (deleteUser_correct_iff Primitives.nat_ideal .int64 hist h [1]).mpr ?_⟩
  rw [Ne, hD.groups_eq_nil]
  nofun

/-- A user who was registered before there was any group cannot be deleted. -/
theorem deleteUser_without_groups : ∃ hist w,
    Session (Honest .int64) (Op.prog Primitives.nat) World.empty hist w ∧
    hist.map Prod.fst = [.createUser [1] (.replicate 32 7)] ∧
    Wp (Honest .int64) (fun r w' => r = .error (.thrown emptyBulkError) ∧ w' = w)
      (deleteUser Primitives.nat [1]) w ∧
    ¬ Wp (Honest .int64) (fun r w' => r = .ok () ∧ UserDeleted Primitives.nat [1] w w')
      (deleteUser Primitives.nat [1]) w := by
  obtain ⟨hist, w, h, hops, hD⟩ := exists_session Primitives.nat_ideal .int64
    [.createUser [1] (.replicate 32 7)]
  have hnil : w.groups = [] := hD.groups_eq_nil.mpr rfl
  exact ⟨hist, w, h, hops, hD.wp_deleteUser_empty Primitives.nat_ideal hnil,
    hD.not_wp_deleteUser Primitives.nat_ideal hnil⟩

end MongoSgx
