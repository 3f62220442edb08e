import Mathlib.Logic.Function.Basic
import MongoSgx.Concurrent.Linearizable
import MongoSgx.Sequential.Membership

/-! # Directories that grow

While nobody deletes, users and groups stay. What a client has learned of a user
record or of a group then holds for the rest of its call, although others write
between its own steps, and the database stays that of one directory.
-/

namespace MongoSgx

open Bson Interaction

variable {β : Type} {P : Primitives β} {V W : Vault β} {u g key : List β}

section Holds

theorem Account.listing_eq (hP : P.Ideal) {a b : Account β} (h : a.toDoc P = b.toDoc P) :
    a.listing = b.listing := by
  simp only [toDoc, List.cons.injEq, Prod.mk.injEq, true_and, Value.binary.injEq,
    List.Vector.toList_injective.eq_iff, hashName_none_inj hP, encryptedKey] at h
  obtain ⟨-, huser, hkey, -⟩ := h
  have hkeys := congrArg P.decryptAesgcm hkey
  rw [hP.decrypt_encrypt, hP.decrypt_encrypt, Option.some.injEq] at hkeys
  rw [listing, listing, huser, hkeys]

theorem Group.listing_eq (hP : P.Ideal) {G H : Group β} (h : G.toDoc P = H.toDoc P) :
    G.listing = H.listing := by
  obtain ⟨-, hname, hentries, -⟩ := Group.eq_of_toDoc_eq hP h
  rw [listing, listing, hname, Group.users_eq_of_entries_eq hP hname hentries]

theorem map_eq_of_factors {α γ δ : Type} {f : α → γ} {k : α → δ}
    (h : ∀ a b, f a = f b → k a = k b) {l l' : List α} (hl : l.map f = l'.map f) :
    l.map k = l'.map k := by
  induction l generalizing l' with
  | nil => rw [List.map_eq_nil_iff.mp hl.symm]
  | cons a l ih =>
    cases l' with
    | nil => cases hl
    | cons b l' =>
      obtain ⟨hab, hl⟩ := List.cons.inj hl
      rw [List.map_cons, List.map_cons, h a b hab, ih hl]

theorem Vault.directory_eq (hP : P.Ideal) (h : V.toWorld P = W.toWorld P) :
    V.directory = W.directory := by
  have husers := congrArg World.users h
  have hgroups := congrArg World.groups h
  unfold directory
  congr 1
  · exact Keyed.ext (map_eq_of_factors (fun _ _ => Account.listing_eq hP) husers)
  · exact Keyed.ext (map_eq_of_factors (fun _ _ => Group.listing_eq hP) hgroups)

/-- Every group is signed, every key has `KEY_SIZE` bytes and every member has a record. -/
structure Vault.Kept (P : Primitives β) (V : Vault β) : Prop where
  sound : V.Sound P
  coherent : V.Coherent

def Holds (P : Primitives β) (w : World β) (D : Directory β) : Prop :=
  ∃ V : Vault β, w = V.toWorld P ∧ V.Kept P ∧ V.directory = D

theorem Vault.Kept.holds (h : V.Kept P) : Holds P (V.toWorld P) V.directory := ⟨V, rfl, h, rfl⟩

theorem Holds.eq (hP : P.Ideal) {D : Directory β} (h : Holds P (V.toWorld P) D) :
    D = V.directory := by
  obtain ⟨W, hW, -, rfl⟩ := h
  exact (Vault.directory_eq hP hW).symm

theorem holds_empty : Holds P (World.empty : World β) Directory.empty :=
  ⟨.empty, rfl, ⟨⟨by nofun, ⟨by nofun, by nofun⟩⟩, by nofun⟩, rfl⟩

end Holds

section Grows

structure Directory.Grows (D D' : Directory β) : Prop where
  users : ∀ e ∈ D.users, e ∈ D'.users
  groups : ∀ g ∈ D.groups.keys, g ∈ D'.groups.keys

theorem Directory.Grows.refl (D : Directory β) : D.Grows D := ⟨fun _ => id, fun _ => id⟩

theorem Directory.Grows.trans {D D' D'' : Directory β} (h : D.Grows D') (h' : D'.Grows D'') :
    D.Grows D'' :=
  ⟨fun e he => h'.users e (h.users e he), fun g hg => h'.groups g (h.groups g hg)⟩

def growing (P : Primitives β) : Frame (World β) where
  Keeps s t := ∀ D, Holds P s D → ∃ D', Holds P t D' ∧ D.Grows D'
  refl s D hD := ⟨D, hD, .refl D⟩
  trans h h' D hD := by
    obtain ⟨D', hD', hgrows⟩ := h D hD
    obtain ⟨D'', hD'', hgrows'⟩ := h' D' hD'
    exact ⟨D'', hD'', hgrows.trans hgrows'⟩

theorem keeps_growing (hP : P.Ideal) (hW : W.Kept P) (h : V.directory.Grows W.directory) :
    (growing P).Keeps (V.toWorld P) (W.toWorld P) := by
  intro D hD
  rw [hD.eq hP]
  exact ⟨_, hW.holds, h⟩

/-- A fact about a directory that stays true as the directory grows. -/
def Directory.Lasting (φ : Directory β → Prop) : Prop :=
  ∀ D D' : Directory β, D.Grows D' → φ D → φ D'

theorem Directory.lasting_true : Directory.Lasting fun _ : Directory β => True :=
  fun _ _ _ _ => trivial

theorem Directory.lasting_user : Directory.Lasting fun D : Directory β => (u, key) ∈ D.users :=
  fun _ _ h => h.users _

theorem Directory.lasting_group :
    Directory.Lasting fun D : Directory β => (u, key) ∈ D.users ∧ g ∈ D.groups.keys :=
  fun _ _ h hD => ⟨h.users _ hD.1, h.groups _ hD.2⟩

theorem Directory.mem_users_keys {D : Directory β} (h : (u, key) ∈ D.users) : u ∈ D.users.keys :=
  Keyed.mem_keys.mpr ⟨_, h, rfl⟩

theorem standing_growing {φ : Directory β → Prop} (hφ : Directory.Lasting φ) :
    Standing P (growing P).contract (fun V => V.Kept P ∧ φ V.directory) where
  stable := by
    rintro V t ⟨hV, hD⟩ ht
    obtain ⟨_, ⟨W, rfl, hW, rfl⟩, hgrows⟩ := ht _ hV.holds
    exact ⟨W, rfl, hW, hφ _ _ hgrows hD⟩

end Grows

variable [DecidableEq β]

section Changes

def Change.onDirectory (g : List β) : Change β → Directory β → Directory β
  | .join m, D => D.join g m.user
  | .leave u, D => D.leave g u

variable {c : Change β} {s : Hashed β}

theorem Vault.directory_modify : (V.modify g c s).directory = c.onDirectory g V.directory := by
  cases c with
  | join m =>
    have hlisting : ∀ G : Group β,
        (G.change (.join m) s).listing = Directory.joinEntry m.user G.listing := by
      intro G
      rw [Group.listing, Group.users_join, Group.change_name, Directory.joinEntry]
      rfl
    simp only [Change.onDirectory, Directory.join, directory]
    rw [← Keyed.map_modify (g := fun G => Group.change (.join m) s G)
      (fun _ => Group.change_name) hlisting]
    rfl
  | leave u =>
    have hlisting : ∀ G : Group β,
        (G.change (.leave u) s).listing = Directory.leaveEntry u G.listing := by
      intro G
      rw [Group.listing, Group.users_leave, Group.change_name, Directory.leaveEntry]
      rfl
    simp only [Change.onDirectory, Directory.leave, directory]
    rw [← Keyed.map_modify (g := fun G => Group.change (.leave u) s G)
      (fun _ => Group.change_name) hlisting]
    rfl

theorem Change.grows (c : Change β) (g : List β) (D : Directory β) :
    D.Grows (c.onDirectory g D) := by
  cases c with
  | join m =>
    exact ⟨fun _ => id, fun h hh => by rwa [onDirectory, Directory.join, Keyed.keys_modify]⟩
  | leave u =>
    exact ⟨fun _ => id, fun h hh => by rwa [onDirectory, Directory.leave, Keyed.keys_modify]⟩

theorem Vault.onDirectory_idle (h : ∀ G ∈ V.groups, G.name = g → ¬ c.Applies G) :
    c.onDirectory g V.directory = V.directory := by
  cases c with
  | join m =>
    refine congrArg (Directory.mk V.directory.users) (Keyed.modify_eq_self _ ?_)
    intro e he hg
    obtain ⟨G, hG, rfl⟩ := List.mem_map.mp he
    have hmem : m.user ∈ G.listing.2 := not_not.mp (h G hG hg)
    rw [Directory.joinEntry, if_pos hmem]
  | leave u =>
    refine congrArg (Directory.mk V.directory.users) (Keyed.modify_eq_self _ ?_)
    intro e he hg
    obtain ⟨G, hG, rfl⟩ := List.mem_map.mp he
    have hmem : u ∉ G.listing.2 := h G hG hg
    have hfilter : G.listing.2.filter (· ≠ u) = G.listing.2 := by
      refine List.filter_eq_self.mpr fun v hv => decide_eq_true ?_
      rintro rfl
      exact hmem hv
    rw [Directory.leaveEntry, hfilter]

omit [DecidableEq β] in
theorem Vault.hasAccount_of_mem_users (h : (u, key) ∈ V.directory.users) : V.HasAccount u key := by
  obtain ⟨a, ha, he⟩ := List.mem_map.mp h
  obtain ⟨hu, hk⟩ := Prod.mk.inj he
  exact ⟨a, ha, hu, hk⟩

theorem edits_growing (hP : P.Ideal) (hL : P.LengthRegular) {φ : Directory β → Prop}
    (hφ : Directory.Lasting φ) (hm : ∀ m D, c = .join m → φ D → (m.user, m.key) ∈ D.users) :
    Edits P (growing P).contract (fun V => V.Kept P ∧ φ V.directory) g c (Group.Sound P) where
  standing := standing_growing hφ
  seen V G hV hG := hV.1.sound.group hG
  write := by
    rintro V G H ⟨hV, hD⟩ hG hH hGg rfl hc hsig
    have hmember : ∀ m, c = .join m → V.HasAccount m.user m.key := fun m hcm =>
      Vault.hasAccount_of_mem_users (hm m _ hcm hD)
    have hkey : ∀ m, c = .join m → m.key.length = keySize := by
      intro m hcm
      obtain ⟨a, ha, -, hk⟩ := hmember m hcm
      exact hk ▸ hV.sound.keySized.account a ha
    have hW : (V.modify H.name c (G.nextSignature P c)).Kept P :=
      ⟨hV.sound.modify hP hL hG hH hGg hsig.symm (fun _ => Group.signature_change hc) hkey,
        hV.coherent.modify hmember⟩
    have hgrows := c.grows H.name V.directory
    rw [← Vault.directory_modify (s := G.nextSignature P c)] at hgrows
    exact ⟨keeps_growing hP hW hgrows, hW, hφ _ _ hgrows hD⟩

end Changes

end MongoSgx
