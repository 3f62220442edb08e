import MongoSgx.Sequential.Keys

/-! # Adding a user to a group

A call that lets a user into a group owes the membership when it returns, and an
unchanged database when it does not. `create_group` delivers this in every state
that a single client can reach. `add_user_to_group` asks for the group and the
missing member in one query and takes an empty answer for a member that is there,
so it returns as well when there is no group.
-/

namespace MongoSgx

open Bson Interaction

variable {β : Type} (P : Primitives β) (w : World β) (g u : List β)

def World.HasUser : Prop :=
  ∃ a ∈ w.users, Doc.get? a "name" = some (.binary (hashName P u none).toList)

/-- The group exists and has the user as a member, and the keys of its entry and of its record
decrypt to the same plaintext. -/
def World.HasMember : Prop :=
  ∃ d ∈ w.groups, Doc.get? d "name" = some (.binary (hashName P g none).toList) ∧
    ∃ v ∈ usersArray d, entryName v = some (.binary (hashName P u (some g)).toList) ∧
    ∃ a ∈ w.users, Doc.get? a "name" = some (.binary (hashName P u none).toList) ∧
      ∃ c c' key, entryKey v = some (.binary c) ∧ Doc.get? a "key" = some (.binary c') ∧
        P.decryptAesgcm c = some key ∧ P.decryptAesgcm c' = some key

/-- What a call that lets a user into a group owes: the membership, or an exception and the
database as it was. -/
def LetsIn : Except Stop Unit → World β → Prop
  | .ok (), w' => w'.HasMember P g u
  | .error _, w' => w' = w

variable {P w g u}

theorem World.HasMember.hasGroup (h : w.HasMember P g u) : w.HasGroup P g := by
  obtain ⟨d, hd, hn, -⟩ := h
  exact ⟨d, hd, hn⟩

section Vault

variable {V : Vault β}

theorem hasUser_iff (hP : P.Ideal) : (V.toWorld P).HasUser P u ↔ u ∈ V.accounts.keys := by
  simp only [World.HasUser, Vault.toWorld, List.mem_map, exists_exists_and_eq_and, Keyed.mem_keys]
  apply exists_congr
  intro a
  apply and_congr_right
  intro _
  rw [a.get?_name, Option.some.injEq, Value.binary.injEq, List.Vector.toList_injective.eq_iff,
    hashName_none_inj hP]

theorem Vault.Coherent.hasMember (hP : P.Ideal) (h : V.Coherent) {G : Group β} (hG : G ∈ V.groups)
    (hg : G.name = g) (hu : u ∈ G.users) : (V.toWorld P).HasMember P g u := by
  subst hg
  obtain ⟨m, hm, rfl⟩ := List.mem_map.mp hu
  obtain ⟨a, ha, hau, hak⟩ := h G hG m hm
  have hname : Doc.get? (G.toDoc P) "name" = some (.binary (hashName P G.name none).toList) := by
    simp [Group.toDoc, Doc.get?, List.lookup_cons]
  have hentry : entryName (entryValue (m.entry P G.name)) =
      some (.binary (hashName P m.user (some G.name)).toList) := entryName_entryValue _
  refine ⟨_, List.mem_map_of_mem hG, hname, _, mem_usersArray_toDoc.mpr ⟨m, hm, rfl⟩, hentry,
    _, List.mem_map_of_mem ha, ?_, ?_⟩
  · rw [a.get?_name, hau]
  · exact ⟨_, _, m.key, entryKey_entryValue _, a.get?_key, hP.decrypt_encrypt _ _,
      hak ▸ hP.decrypt_encrypt _ _⟩

variable [DecidableEq β] {G : Group β} {m : Member β}

theorem Group.mem_users_join : m.user ∈ (G.next P (.join m)).users := by
  rw [next, users_join]
  split
  · assumption
  · exact List.mem_append_right _ (List.mem_singleton_self _)

theorem Vault.Coherent.hasMember_update (hP : P.Ideal) (h : V.Coherent) (hg : g ∈ V.groups.keys)
    (hm : V.HasAccount m.user m.key) :
    ((V.update P g (.join m)).toWorld P).HasMember P g m.user := by
  obtain ⟨G, hG, rfl⟩ := Keyed.mem_keys.mp hg
  have hW : (V.update P G.name (.join m)).Coherent := h.update (by
    rintro _ ⟨⟩
    exact hm)
  apply hW.hasMember (G := G.next P (.join m)) hP
  · exact mem_groups_update.mpr ⟨G, hG, if_pos rfl⟩
  · exact Group.change_name
  · exact Group.mem_users_join

theorem Vault.Coherent.hasMember_establish (hP : P.Ideal) (h : V.Coherent)
    (hg : g ∉ V.groups.keys) (hm : V.HasAccount m.user m.key) {iv : List β} :
    ((V.establish P g iv m).toWorld P).HasMember P g m.user := by
  have hW : (V.establish P g iv m).Coherent := h.establish hg hm
  apply hW.hasMember hP
  · exact (mem_groups_found hg).mpr (.inr rfl)
  · rfl
  · exact List.mem_singleton_self _

end Vault

section Reachable

variable [DecidableEq β] {count : ℤ → Scalar} {D : Directory β}

theorem Represents.wp_createGroup (hP : P.Ideal) (h : Represents P D w) :
    Wp (Honest count) (LetsIn P w g u) (createGroup P g u) w := by
  obtain ⟨V, rfl, hS, hC, rfl⟩ := h
  apply (MongoSgx.wp_createGroup hP hS).mono
  rintro r w' (⟨a, ha, rfl, rfl, iv, h⟩ | ⟨-, ⟨e, rfl⟩, rfl⟩)
  · have hacc : V.HasAccount a.user a.key := ⟨a, ha, rfl, rfl⟩
    rcases h with ⟨hg, rfl⟩ | ⟨hg, iv', rfl⟩
    · exact hC.hasMember_update (m := ⟨a.user, a.key, iv⟩) hP hg hacc
    · exact hC.hasMember_establish (m := ⟨a.user, a.key, iv⟩) hP hg hacc
  · rfl

theorem Represents.wp_addUserToGroup (hP : P.Ideal) (h : Represents P D w)
    (hw : w.HasGroup P g ∨ ¬ w.HasUser P u) :
    Wp (Honest count) (LetsIn P w g u) (addUserToGroup P g u) w := by
  obtain ⟨V, rfl, hS, hC, rfl⟩ := h
  rw [hasGroup_iff hP, hasUser_iff hP, ← Keyed.mem_keys] at hw
  apply (MongoSgx.wp_addUserToGroup hP hS).mono
  rintro r w' (⟨a, ha, rfl, iv, rfl, rfl⟩ | ⟨-, ⟨e, rfl⟩, rfl⟩)
  · have hu : a.user ∈ V.accounts.keys := Keyed.mem_keys.mpr ⟨a, ha, rfl⟩
    have hg : g ∈ V.groups.keys := hw.resolve_right (not_not_intro hu)
    exact hC.hasMember_update (m := ⟨a.user, a.key, iv⟩) hP hg ⟨a, ha, rfl, rfl⟩
  · rfl

/-- Without the group the addition of a user returns and does nothing. -/
theorem Represents.wp_addUserToGroup_missing (hP : P.Ideal) (h : Represents P D w)
    (hg : ¬ w.HasGroup P g) (hu : w.HasUser P u) :
    Wp (Honest count) (fun r w' => r = .ok () ∧ w' = w) (addUserToGroup P g u) w := by
  obtain ⟨V, rfl, hS, hC, rfl⟩ := h
  rw [hasGroup_iff hP] at hg
  rw [hasUser_iff hP] at hu
  apply (MongoSgx.wp_addUserToGroup hP hS).mono
  rintro r w' (⟨a, -, -, iv, rfl, rfl⟩ | ⟨hno, -⟩)
  · have hself : V.update P g (.join ⟨u, a.key, iv⟩) = V :=
      Vault.update_eq_self hS fun G hG hn => absurd ⟨G, hG, hn⟩ hg
    rw [hself]
    exact ⟨rfl, rfl⟩
  · exact absurd hu hno

theorem Represents.not_letsIn (hP : P.Ideal) (h : Represents P D w) (hg : ¬ w.HasGroup P g)
    (hu : w.HasUser P u) :
    ¬ Wp (Honest count) (LetsIn P w g u) (addUserToGroup P g u) w := by
  intro hwp
  obtain ⟨r, w', hr, rfl, rfl⟩ :=
    (h.wp_addUserToGroup_missing hP hg hu).exists_evals (honest_total count)
  have hmem : w'.HasMember P g u := hwp.of_evals hr
  exact hg hmem.hasGroup

end Reachable

variable [DecidableEq β]

/-- In every state that a single client can reach, `create_group` lets the user in or throws, and
`add_user_to_group` does exactly when the group exists or the user has no record. -/
theorem addUserToGroup_letsIn_iff (hP : P.Ideal) (count : ℤ → Scalar)
    (hist : List (Op β × Except Stop Unit)) {w : World β}
    (h : Session (Honest count) (Op.prog P) World.empty hist w) (g u : List β) :
    (Wp (Honest count) (LetsIn P w g u) (addUserToGroup P g u) w ↔
      w.HasGroup P g ∨ ¬ w.HasUser P u) ∧
    Wp (Honest count) (LetsIn P w g u) (createGroup P g u) w := by
  obtain ⟨-, hD⟩ := h.simulation (simulates_directory hP count) (fun _ _ => trivial)
    represents_empty
  constructor
  · constructor
    · intro hwp
      by_contra hno
      obtain ⟨hg, hu⟩ := not_or.mp hno
      exact hD.not_letsIn hP hg (not_not.mp hu) hwp
    · exact hD.wp_addUserToGroup hP
  · exact hD.wp_createGroup hP

omit [DecidableEq β] in
theorem Represents.hasUser (hP : P.Ideal) {D : Directory β} (h : Represents P D w)
    (hu : u ∈ D.users.keys) : w.HasUser P u := by
  obtain ⟨V, rfl, -, -, rfl⟩ := h
  rw [Vault.directory_users_keys] at hu
  exact (hasUser_iff hP).mpr hu

omit [DecidableEq β] in
theorem Represents.mem_groups_of_hasGroup (hP : P.Ideal) {D : Directory β} (h : Represents P D w)
    (hg : w.HasGroup P g) : g ∈ D.groups.keys := by
  obtain ⟨V, rfl, -, -, rfl⟩ := h
  rw [Vault.directory_groups_keys, Keyed.mem_keys]
  exact (hasGroup_iff hP).mp hg

/-- A second user is let into a group. -/
theorem addUserToGroup_letsIn_iff_sample : ∃ hist w,
    Session (Honest .int64) (Op.prog Primitives.nat) World.empty hist w ∧
    hist.map Prod.fst = [.createUser [1] [7], .createGroup [5] [1], .createUser [2] [8]] ∧
    Wp (Honest .int64) (LetsIn Primitives.nat w [5] [2])
      (addUserToGroup Primitives.nat [5] [2]) w := by
  obtain ⟨hist, w, h, hops, hD⟩ := exists_session Primitives.nat_ideal .int64 [.createUser [1] [7],
    .createGroup [5] [1], .createUser [2] [8]]
  obtain ⟨hiff, -⟩ := addUserToGroup_letsIn_iff Primitives.nat_ideal .int64 hist h [5] [2]
  have hg : w.HasGroup Primitives.nat [5] := (hD.mem_groups_iff Primitives.nat_ideal).mpr (by decide)
  exact ⟨hist, w, h, hops, hiff.mpr (.inl hg)⟩

/-- A registered user is added to a group that does not exist: the call returns. -/
theorem addUserToGroup_missing_group : ∃ hist w,
    Session (Honest .int64) (Op.prog Primitives.nat) World.empty hist w ∧
    hist.map Prod.fst = [.createUser [1] (.replicate 32 7)] ∧ ¬ w.HasGroup Primitives.nat [5] ∧
    Wp (Honest .int64) (fun r w' => r = .ok () ∧ w' = w)
      (addUserToGroup Primitives.nat [5] [1]) w ∧
    ¬ Wp (Honest .int64) (LetsIn Primitives.nat w [5] [1])
      (addUserToGroup Primitives.nat [5] [1]) w := by
  obtain ⟨hist, w, h, hops, hD⟩ := exists_session Primitives.nat_ideal .int64
    [.createUser [1] (.replicate 32 7)]
  have hP := Primitives.nat_ideal
  have hg : ¬ w.HasGroup Primitives.nat [5] := by
    intro hg
    have hmem := hD.mem_groups_of_hasGroup hP hg
    cases hmem
  have hu : w.HasUser Primitives.nat [1] := hD.hasUser hP (by decide)
  exact ⟨hist, w, h, hops, hg, hD.wp_addUserToGroup_missing hP hg hu, hD.not_letsIn hP hg hu⟩

end MongoSgx
