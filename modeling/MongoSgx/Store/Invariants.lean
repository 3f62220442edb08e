import MongoSgx.Store.Vault

/-! # Invariants of vaults

Three properties of a vault survive its operations: every group is correctly
signed, every key has `KEY_SIZE` bytes, and every member is a user with the same
key.
-/

namespace MongoSgx

variable {β : Type} {P : Primitives β} {V : Vault β} {u g key iv : List β}
  {m n : Member β} {s : Hashed β}

section Members

variable [DecidableEq β] {G : Group β} {c : Change β}

theorem Group.mem_members_change (h : n ∈ (G.change c s).members) :
    n ∈ G.members ∨ c = .join n := by
  cases c with
  | leave u =>
    rw [members_leave] at h
    exact .inl (List.mem_of_mem_filter h)
  | join m =>
    by_cases hm : (Change.join m).Applies G
    · rw [members_join hm, List.mem_append, List.mem_singleton] at h
      rcases h with h | rfl
      · exact .inl h
      · exact .inr rfl
    · rw [change_join_of_mem (not_not.mp hm)] at h
      exact .inl h

theorem Group.users_join :
    (G.change (.join m) s).users = if m.user ∈ G.users then G.users else G.users ++ [m.user] := by
  split
  · rename_i h
    rw [change_join_of_mem h]
  · rename_i h
    rw [users, members_join h, List.map_append, List.map_singleton, users]

theorem Group.users_leave : (G.change (.leave u) s).users = G.users.filter (· ≠ u) := by
  rw [users, members_leave, users, List.filter_map]
  rfl

end Members

namespace Vault

section Signed

theorem Signed.sub (h : V.Signed P) {as gs has hgs} : (V.sub as gs has hgs).Signed P :=
  fun G hG => h G (hgs.subset hG)

theorem Signed.mapGroups {f : Group β → Group β} {hid hname}
    (h : ∀ G ∈ V.groups, (f G).Signed P) : (V.mapGroups f hid hname).Signed P := by
  intro H hH
  obtain ⟨G, hG, rfl⟩ := List.mem_map.mp hH
  exact h G hG

variable [DecidableEq β]

theorem Signed.register (h : V.Signed P) : (V.register u key iv).Signed P := h

theorem Signed.establish (h : V.Signed P) (hg : g ∉ V.groups.keys) :
    (V.establish P g iv m).Signed P := by
  intro G hG
  rcases (mem_groups_found hg).mp hG with hG | rfl
  · exact h G hG
  · rfl

theorem Signed.update (h : V.Signed P) {c : Change β} : (V.update P g c).Signed P := by
  refine .mapGroups fun G hG => ?_
  split
  · exact Group.next_signed (h G hG)
  · exact h G hG

theorem Signed.modify (h : V.Signed P) {c : Change β}
    (hs : ∀ G ∈ V.groups, G.name = g → (G.change c s).Signed P) : (V.modify g c s).Signed P := by
  refine .mapGroups fun G hG => ?_
  split
  · rename_i hg
    exact hs G hG hg
  · exact h G hG

theorem Signed.leaveAll (h : V.Signed P) : (V.leaveAll P u).Signed P :=
  .mapGroups fun G hG => Group.next_signed (h G hG)

end Signed

section KeySized

theorem KeySized.sub (h : V.KeySized) {as gs has hgs} : (V.sub as gs has hgs).KeySized where
  account a ha := h.account a (has.subset ha)
  group G hG := h.group G (hgs.subset hG)

variable [DecidableEq β]

theorem KeySized.register (h : V.KeySized) (hu : u ∉ V.accounts.keys)
    (hk : key.length = keySize) : (V.register u key iv).KeySized where
  account a ha := by
    rcases (mem_accounts_register hu).mp ha with ha | rfl
    · exact h.account a ha
    · exact hk
  group := h.group

theorem KeySized.establish (h : V.KeySized) (hg : g ∉ V.groups.keys)
    (hk : m.key.length = keySize) : (V.establish P g iv m).KeySized where
  account := h.account
  group G hG := by
    rcases (mem_groups_found hg).mp hG with hG | rfl
    · exact h.group G hG
    · intro n hn
      rwa [List.mem_singleton.mp hn]

theorem KeySized.modify (h : V.KeySized) {c : Change β}
    (hk : ∀ m, c = .join m → m.key.length = keySize) : (V.modify g c s).KeySized where
  account := h.account
  group G hG := by
    obtain ⟨H, hH, rfl⟩ := mem_groups_modify.mp hG
    split
    · intro n hn
      rcases Group.mem_members_change hn with hn | hn
      · exact h.group H hH n hn
      · exact hk n hn
    · exact h.group H hH

end KeySized

section Coherent

theorem Coherent.mapGroups (h : V.Coherent) {f : Group β → Group β} {hid hname}
    (hf : ∀ G ∈ V.groups, ∀ m ∈ (f G).members, m ∈ G.members ∨ V.HasAccount m.user m.key) :
    (V.mapGroups f hid hname).Coherent := by
  intro H hH m hm
  obtain ⟨G, hG, rfl⟩ := List.mem_map.mp hH
  rcases hf G hG m hm with hm | hm
  · exact h G hG m hm
  · exact hm

variable [DecidableEq β]

theorem Coherent.register (h : V.Coherent) (hu : u ∉ V.accounts.keys) :
    (V.register u key iv).Coherent := by
  intro G hG m hm
  obtain ⟨a, ha, he⟩ := h G hG m hm
  exact ⟨a, (mem_accounts_register hu).mpr (.inl ha), he⟩

theorem Coherent.establish (h : V.Coherent) (hg : g ∉ V.groups.keys)
    (ha : V.HasAccount m.user m.key) : (V.establish P g iv m).Coherent := by
  intro G hG n hn
  rcases (mem_groups_found hg).mp hG with hG | rfl
  · exact h G hG n hn
  · rwa [List.mem_singleton.mp hn]

theorem Coherent.change (h : V.Coherent) {f : Group β → Group β} {hid hname} {c : Change β}
    (hf : ∀ G, f G = G ∨ ∃ s, f G = G.change c s)
    (hc : ∀ m, c = .join m → V.HasAccount m.user m.key) :
    (V.mapGroups f hid hname).Coherent := by
  refine h.mapGroups fun G _ n hn => ?_
  rcases hf G with he | ⟨s, he⟩
  · rw [he] at hn
    exact .inl hn
  · rw [he] at hn
    exact (Group.mem_members_change hn).imp_right (hc n)

theorem Coherent.modify (h : V.Coherent) {c : Change β}
    (hc : ∀ m, c = .join m → V.HasAccount m.user m.key) : (V.modify g c s).Coherent :=
  h.change (fun G => by split; exacts [.inr ⟨s, rfl⟩, .inl rfl]) hc

theorem Coherent.update (h : V.Coherent) {c : Change β}
    (hc : ∀ m, c = .join m → V.HasAccount m.user m.key) : (V.update P g c).Coherent :=
  h.change (fun G => by split; exacts [.inr ⟨_, rfl⟩, .inl rfl]) hc

theorem Coherent.leaveAll (h : V.Coherent) : (V.leaveAll P u).Coherent :=
  h.change (c := .leave u) (fun _ => .inr ⟨_, rfl⟩) (by nofun)

theorem Coherent.forget (h : V.Coherent) (hu : ∀ G ∈ V.groups, u ∉ G.users) :
    (V.forget u).Coherent := by
  intro G hG m hm
  obtain ⟨a, ha, hau, hak⟩ := h G hG m hm
  have hne : a.user ≠ u := fun he => hu G hG (List.mem_map.mpr ⟨m, hm, hau.symm.trans he⟩)
  exact ⟨a, Keyed.mem_erase.mpr ⟨ha, hne⟩, hau, hak⟩

end Coherent

end Vault

end MongoSgx
