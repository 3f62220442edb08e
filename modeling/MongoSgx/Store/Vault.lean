import MongoSgx.Keyed.Basic
import MongoSgx.Store.Change
import MongoSgx.Store.Honest

/-! # Databases with known contents

A vault is a database of typed user records and groups in which the unique
indexes hold and every `_id` is fresh. On the database of a vault the steps of
the honest store are operations on vaults.
-/

namespace MongoSgx

open Bson Interaction

variable {β : Type}

structure Vault (β : Type) where
  accounts : Keyed (Account.user (β := β))
  groups : Keyed (Group.name (β := β))
  nextId : ℕ
  account_ids : (accounts.elems.map Account.id).Nodup
  group_ids : (groups.elems.map Group.id).Nodup
  account_fresh : ∀ a ∈ accounts, a.id < nextId
  group_fresh : ∀ G ∈ groups, G.id < nextId

namespace Vault

variable {V : Vault β}

def toWorld (P : Primitives β) (V : Vault β) : World β where
  users := V.accounts.elems.map (Account.toDoc P)
  groups := V.groups.elems.map (Group.toDoc P)
  nextId := V.nextId

def empty : Vault β where
  accounts := .empty
  groups := .empty
  nextId := 0
  account_ids := List.nodup_nil
  group_ids := List.nodup_nil
  account_fresh := by nofun
  group_fresh := by nofun

theorem group_eq_of_id_eq {G H : Group β} (hG : G ∈ V.groups) (hH : H ∈ V.groups)
    (h : G.id = H.id) : G = H := List.inj_on_of_nodup_map V.group_ids hG hH h

/-- Every group carries the signature of its contents. -/
def Signed (P : Primitives β) (V : Vault β) : Prop := ∀ G ∈ V.groups, G.Signed P

structure KeySized (V : Vault β) : Prop where
  account : ∀ a ∈ V.accounts, a.key.length = keySize
  group : ∀ G ∈ V.groups, G.KeySized

def HasAccount (V : Vault β) (u key : List β) : Prop := ∃ a ∈ V.accounts, a.user = u ∧ a.key = key

/-- Every member is a user and has the key of its user record. -/
def Coherent (V : Vault β) : Prop :=
  ∀ G ∈ V.groups, ∀ m ∈ G.members, V.HasAccount m.user m.key

/-- Edit every group without touching its identity. -/
def mapGroups (f : Group β → Group β) (hid : ∀ G, (f G).id = G.id)
    (hname : ∀ G, (f G).name = G.name) (V : Vault β) : Vault β :=
  { V with
    groups := V.groups.map f hname
    group_ids := by
      rw [Keyed.map, List.map_map, show Group.id ∘ f = Group.id from funext hid]
      exact V.group_ids
    group_fresh := by
      intro G hG
      obtain ⟨H, hH, rfl⟩ := Keyed.mem_map.mp hG
      rw [hid]
      exact V.group_fresh H hH }

theorem mapGroups_congr {f f' : Group β → Group β} {hid hname hid' hname'}
    (h : ∀ G ∈ V.groups, f G = f' G) : V.mapGroups f hid hname = V.mapGroups f' hid' hname' := by
  have he : V.groups.elems.map f = V.groups.elems.map f' := List.map_congr_left h
  simp only [mapGroups, Keyed.map, he]

theorem mapGroups_eq_self {f : Group β → Group β} {hid hname} (h : ∀ G ∈ V.groups, f G = G) :
    V.mapGroups f hid hname = V := by
  have he : V.groups.elems.map f = V.groups.elems :=
    (List.map_congr_left h).trans (List.map_id _)
  simp only [mapGroups, Keyed.map, he]

def sub (V : Vault β) (as : List (Account β)) (gs : List (Group β))
    (has : as.Sublist V.accounts.elems) (hgs : gs.Sublist V.groups.elems) : Vault β where
  accounts := V.accounts.sub as has
  groups := V.groups.sub gs hgs
  nextId := V.nextId
  account_ids := V.account_ids.sublist (has.map _)
  group_ids := V.group_ids.sublist (hgs.map _)
  account_fresh := fun a ha => V.account_fresh a (has.subset ha)
  group_fresh := fun G hG => V.group_fresh G (hgs.subset hG)

variable [DecidableEq β]

def register (u key iv : List β) (V : Vault β) : Vault β :=
  { V with
    accounts := V.accounts.add ⟨V.nextId, u, key, iv⟩
    nextId := V.nextId + 1
    account_ids := by
      by_cases h : u ∈ V.accounts.keys
      · rw [Keyed.add_of_mem h]
        exact V.account_ids
      · rw [Keyed.elems_add h, List.map_append, List.map_singleton, ← List.concat_eq_append,
          List.nodup_concat]
        refine ⟨fun hm => ?_, V.account_ids⟩
        obtain ⟨a, ha, he⟩ := List.mem_map.mp hm
        exact absurd he (V.account_fresh a ha).ne
    account_fresh := by
      intro a ha
      by_cases h : u ∈ V.accounts.keys
      · rw [Keyed.add_of_mem h] at ha
        exact Nat.lt_succ_of_lt (V.account_fresh a ha)
      · rcases (Keyed.mem_add h).mp ha with ha | rfl
        · exact Nat.lt_succ_of_lt (V.account_fresh a ha)
        · exact Nat.lt_succ_self _
    group_fresh := fun G hG => Nat.lt_succ_of_lt (V.group_fresh G hG) }

/-- Found a group with one member, unless there is a group of the name. -/
def found (g iv : List β) (m : Member β) (s : Hashed β) (V : Vault β) : Vault β :=
  { V with
    groups := V.groups.add ⟨V.nextId, g, iv, [m], List.nodup_singleton _, s⟩
    nextId := V.nextId + 1
    group_ids := by
      by_cases h : g ∈ V.groups.keys
      · rw [Keyed.add_of_mem h]
        exact V.group_ids
      · rw [Keyed.elems_add h, List.map_append, List.map_singleton, ← List.concat_eq_append,
          List.nodup_concat]
        refine ⟨fun hm => ?_, V.group_ids⟩
        obtain ⟨G, hG, he⟩ := List.mem_map.mp hm
        exact absurd he (V.group_fresh G hG).ne
    account_fresh := fun a ha => Nat.lt_succ_of_lt (V.account_fresh a ha)
    group_fresh := by
      intro G hG
      by_cases h : g ∈ V.groups.keys
      · rw [Keyed.add_of_mem h] at hG
        exact Nat.lt_succ_of_lt (V.group_fresh G hG)
      · rcases (Keyed.mem_add h).mp hG with hG | rfl
        · exact Nat.lt_succ_of_lt (V.group_fresh G hG)
        · exact Nat.lt_succ_self _ }

def foundingSignature (P : Primitives β) (g iv : List β) (m : Member β) : Hashed β :=
  P.hmac ((hashName P g none).toList ++ P.encryptAesgcm iv g ++ Bytes.concat [m.entry P g])

def establish (P : Primitives β) (g iv : List β) (m : Member β) (V : Vault β) : Vault β :=
  V.found g iv m (foundingSignature P g iv m)

def modify (g : List β) (c : Change β) (s : Hashed β) (V : Vault β) : Vault β :=
  V.mapGroups (fun G => if G.name = g then G.change c s else G)
    (fun G => by split <;> simp) (fun G => by split <;> simp)

/-- Change the group named `g` and sign it. -/
def update (P : Primitives β) (g : List β) (c : Change β) (V : Vault β) : Vault β :=
  V.mapGroups (fun G => if G.name = g then G.next P c else G)
    (fun G => by split <;> simp [Group.next]) (fun G => by split <;> simp [Group.next])

def leaveAll (P : Primitives β) (u : List β) (V : Vault β) : Vault β :=
  V.mapGroups (Group.next P (.leave u)) (fun _ => Group.change_id) (fun _ => Group.change_name)

def forget (u : List β) (V : Vault β) : Vault β :=
  V.sub (V.accounts.erase u).elems V.groups.elems List.filter_sublist (List.Sublist.refl _)

section Lemmas

variable {P : Primitives β} {u g key iv : List β} {c : Change β} {s : Hashed β} {m : Member β}

theorem accounts_register (h : u ∉ V.accounts.keys) :
    (V.register u key iv).accounts.elems = V.accounts.elems ++ [⟨V.nextId, u, key, iv⟩] :=
  Keyed.elems_add (l := V.accounts) (a := ⟨V.nextId, u, key, iv⟩) h

theorem groups_found (h : g ∉ V.groups.keys) :
    (V.found g iv m s).groups.elems =
      V.groups.elems ++ [⟨V.nextId, g, iv, [m], List.nodup_singleton _, s⟩] :=
  Keyed.elems_add (l := V.groups) (a := ⟨V.nextId, g, iv, [m], List.nodup_singleton _, s⟩) h

theorem groups_modify {G : Group β} {l₁ l₂ : List (Group β)}
    (h : V.groups.elems = l₁ ++ G :: l₂) :
    (V.modify G.name c s).groups.elems = l₁ ++ G.change c s :: l₂ :=
  Keyed.elems_modify (l := V.groups) (fun _ => Group.change_name) h

theorem mem_groups_modify {H : Group β} : H ∈ (V.modify g c s).groups ↔
    ∃ G ∈ V.groups, (if G.name = g then G.change c s else G) = H := List.mem_map

theorem mem_groups_update {H : Group β} : H ∈ (V.update P g c).groups ↔
    ∃ G ∈ V.groups, (if G.name = g then G.next P c else G) = H := List.mem_map

theorem mem_groups_leaveAll {H : Group β} : H ∈ (V.leaveAll P u).groups ↔
    ∃ G ∈ V.groups, G.next P (.leave u) = H := List.mem_map

theorem mem_groups_found (h : g ∉ V.groups.keys) {H : Group β} :
    H ∈ (V.found g iv m s).groups ↔
      H ∈ V.groups ∨ H = ⟨V.nextId, g, iv, [m], List.nodup_singleton _, s⟩ :=
  Keyed.mem_add (l := V.groups) (a := ⟨V.nextId, g, iv, [m], List.nodup_singleton _, s⟩) h

theorem mem_accounts_register (h : u ∉ V.accounts.keys) {a : Account β} :
    a ∈ (V.register u key iv).accounts ↔ a ∈ V.accounts ∨ a = ⟨V.nextId, u, key, iv⟩ :=
  Keyed.mem_add (l := V.accounts) (a := ⟨V.nextId, u, key, iv⟩) h

theorem modify_eq_update {G : Group β} (hG : G ∈ V.groups) :
    V.modify G.name c (G.nextSignature P c) = V.update P G.name c := by
  apply mapGroups_congr
  intro H hH
  by_cases h : H.name = G.name
  · rw [if_pos h, if_pos h, Keyed.eq_of_key_eq hH hG h, Group.next]
  · rw [if_neg h, if_neg h]

theorem not_applies_update {G : Group β} (hG : G ∈ (V.update P g c).groups) (hg : G.name = g) :
    ¬ c.Applies G := by
  obtain ⟨H, -, rfl⟩ := mem_groups_update.mp hG
  by_cases hn : H.name = g
  · rw [if_pos hn]
    exact Group.not_applies_change
  · rw [if_neg hn] at hg
    exact absurd hg hn

theorem update_eq_self (hS : V.Signed P) (h : ∀ G ∈ V.groups, G.name = g → ¬ c.Applies G) :
    V.update P g c = V := by
  apply mapGroups_eq_self
  intro G hG
  split
  · rename_i hg
    exact Group.next_eq_self (hS G hG) (h G hG hg)
  · rfl

end Lemmas

end Vault

end MongoSgx
