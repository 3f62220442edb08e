import MongoSgx.Sequential.Directory

/-! # The keys of a group

A key goes through three encryptions: at registration, at joining and at listing.
As long as only keys of `KEY_SIZE` bytes are registered, `get_keys_of_group`
returns the keys of the members in the order of joining, each as registered last.
-/

namespace MongoSgx

open Bson Interaction

variable {β : Type} [DecidableEq β] {P : Primitives β}

def Op.KeySized : Op β → Prop
  | .createUser _ key => key.length = keySize
  | _ => True

namespace Directory

def keyOf (D : Directory β) (u : List β) : Option (List β) := (D.users.find u).map Prod.snd

def KeySized (D : Directory β) : Prop := ∀ e ∈ D.users, e.2.length = keySize

theorem keySized_step {o : Op β} (ho : o.KeySized) {D : Directory β} (hD : D.KeySized) :
    (step o D).2.KeySized := by
  cases o with
  | createUser u key =>
    rw [step]
    split
    · exact hD
    · rename_i hu
      intro e he
      rcases (Keyed.mem_add hu).mp he with he | rfl
      · exact hD e he
      · exact ho
  | createGroup g u => rw [step]; split <;> [split <;> exact hD; exact hD]
  | addUserToGroup g u => rw [step]; split <;> exact hD
  | removeUserFromGroup g u => exact hD
  | deleteUser u =>
    rw [step]
    split
    · exact hD
    · exact fun e he => hD e (Keyed.mem_erase.mp he).1
  | deleteAllData => rintro _ ⟨⟩

end Directory

theorem keys_eq_keyOf {V : Vault β} (hC : V.Coherent) {G : Group β} (hG : G ∈ V.groups) :
    G.members.map (fun m => some m.key) = G.users.map V.directory.keyOf := by
  rw [Group.users, List.map_map]
  apply List.map_congr_left
  intro m hm
  obtain ⟨a, ha, hu, hk⟩ := hC G hG m hm
  have hfind : V.accounts.find m.user = some a := Keyed.find_eq_some_iff.mpr ⟨ha, hu⟩
  have hdir : V.directory.users.find m.user = some a.listing := by
    unfold Vault.directory
    rw [Keyed.find_map, hfind, Option.map_some]
  rw [Function.comp_apply, Directory.keyOf, hdir, Option.map_some, Account.listing, hk]

theorem simulates_keySized (hP : P.Ideal) (count : ℤ → Scalar) :
    Simulates (Honest count) (Op.prog P) Directory.step Except.isOk Op.KeySized
      (fun D w => Represents P D w ∧ D.KeySized) := by
  rintro o ho D w ⟨hD, hK⟩
  apply (simulates_directory hP count o trivial D w hD).mono
  rintro r w' ⟨hr, hD'⟩
  exact ⟨hr, hD', Directory.keySized_step ho hK⟩

def World.HasGroup (P : Primitives β) (w : World β) (g : List β) : Prop :=
  ∃ d ∈ w.groups, Doc.get? d "name" = some (.binary (hashName P g none).toList)

omit [DecidableEq β] in
theorem hasGroup_iff (hP : P.Ideal) {V : Vault β} {g : List β} :
    (V.toWorld P).HasGroup P g ↔ ∃ G ∈ V.groups, G.name = g := by
  simp only [World.HasGroup, Vault.toWorld, List.mem_map, exists_exists_and_eq_and]
  refine exists_congr fun G => and_congr_right fun _ => ?_
  rw [← hashName_none_inj hP, ← List.Vector.toList_injective.eq_iff]
  simp [Group.toDoc, Doc.get?, List.lookup_cons]

/-- After every session that registers keys of `KEY_SIZE` bytes, each group that exists has a
list of current members in the order of joining, and `get_keys_of_group` returns the key of
each as it was registered last. -/
theorem session_keys_of_group (hP : P.Ideal) (count : ℤ → Scalar)
    (hist : List (Op β × Except Stop Unit)) (hk : ∀ x ∈ hist, x.1.KeySized) {w : World β}
    (h : Session (Honest count) (Op.prog P) World.empty hist w) (g : List β)
    (hg : w.HasGroup P g) :
    let D := (runMachine Directory.step Directory.empty (hist.map Prod.fst)).2
    ∃ us, (g, us) ∈ D.groups ∧
      Wp (Honest count) (fun r w' => w' = w ∧ ∃ ks : List (Key β), r = .ok ks ∧
        ks.length = us.length ∧ ks.map (fun k => some k.toList) = us.map D.keyOf)
        (getKeysOfGroup P g) w := by
  obtain ⟨-, ⟨V, rfl, hS, hC, hV⟩, hK⟩ := h.simulation (simulates_keySized hP count) hk
    ⟨represents_empty, by nofun⟩
  dsimp only
  rw [← hV] at hK ⊢
  obtain ⟨G, hG, rfl⟩ := (hasGroup_iff hP).mp hg
  refine ⟨G.users, List.mem_map_of_mem (f := Group.listing) hG, ?_⟩
  have hGK : G.KeySized := fun m hm => by
    obtain ⟨a, ha, -, hk⟩ := hC G hG m hm
    rw [← hk]
    exact hK _ (List.mem_map_of_mem (f := Account.listing) ha)
  apply (wp_getKeysOfGroup hP hG (hS G hG) hGK).mono
  rintro r w' ⟨rfl, ks, rfl, hks⟩
  have hlen : ks.length = G.users.length := by
    simpa [Group.users] using congrArg List.length hks
  refine ⟨rfl, ks, rfl, hlen, ?_⟩
  rw [← keys_eq_keyOf hC hG]
  have hsome := congrArg (List.map some) hks
  rwa [List.map_map, List.map_map] at hsome

omit [DecidableEq β] in
theorem Represents.mem_groups_iff (hP : P.Ideal) {D : Directory β} {w : World β}
    (h : Represents P D w) {g : List β} : w.HasGroup P g ↔ g ∈ D.groups.keys := by
  obtain ⟨V, rfl, -, -, rfl⟩ := h
  rw [hasGroup_iff hP, Vault.directory_groups_keys, Keyed.mem_keys]

/-- A member that was deleted, registered with another key and added again. -/
theorem session_keys_of_group_sample : ∃ hist w,
    Session (Honest .int64) (Op.prog Primitives.nat) World.empty hist w ∧
    hist.map Prod.fst = [.createUser [1] (.replicate 32 7), .createGroup [5] [1],
      .createUser [2] (.replicate 32 8), .addUserToGroup [5] [2], .deleteUser [1],
      .createUser [1] (.replicate 32 9), .addUserToGroup [5] [1]] ∧
    Wp (Honest .int64) (fun r w' => w' = w ∧ ∃ ks : List (Key ℕ), r = .ok ks ∧
      ks.map (fun k => some k.toList) = [some (.replicate 32 8), some (.replicate 32 9)])
      (getKeysOfGroup Primitives.nat [5]) w := by
  have hkeys : ∀ o ∈ [.createUser [1] (.replicate 32 7), .createGroup [5] [1],
      .createUser [2] (.replicate 32 8), .addUserToGroup [5] [2], .deleteUser [1],
      .createUser [1] (.replicate 32 9), .addUserToGroup [5] [1]], Op.KeySized (β := ℕ) o := by
    simp [Op.KeySized, keySize]
  have hsim := simulates_keySized Primitives.nat_ideal .int64
  have hstart : Represents Primitives.nat Directory.empty World.empty ∧
      Directory.KeySized (β := ℕ) Directory.empty := ⟨represents_empty, by nofun⟩
  obtain ⟨hist, w, h, hops⟩ := hsim.exists_session (honest_total .int64) _ hkeys hstart
  have hk : ∀ x ∈ hist, x.1.KeySized := fun x hx =>
    hkeys x.1 (hops ▸ List.mem_map_of_mem hx)
  obtain ⟨-, hD, -⟩ := h.simulation hsim hk hstart
  rw [hops] at hD
  have hg : w.HasGroup Primitives.nat [5] := (hD.mem_groups_iff Primitives.nat_ideal).mpr (by decide)
  obtain ⟨us, hus, hwp⟩ := session_keys_of_group Primitives.nat_ideal .int64 hist hk h [5] hg
  rw [hops] at hus hwp
  have hlist : (([5] : List ℕ), us) = ([5], [[2], [1]]) := List.mem_singleton.mp hus
  obtain rfl := (Prod.mk.inj hlist).2
  refine ⟨hist, w, h, hops, hwp.mono ?_⟩
  rintro r w' ⟨hw, ks, hr, -, hks⟩
  exact ⟨hw, ks, hr, hks⟩

end MongoSgx
