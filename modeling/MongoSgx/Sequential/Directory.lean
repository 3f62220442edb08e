import MongoSgx.Interaction.Session
import MongoSgx.Sequential.Sweep
import MongoSgx.Store.Invariants

/-! # The directory behind the database

To a single client the database is a directory: users with their keys, and
groups with their members in the order in which they joined. The directory knows
no hashes, ciphertexts or signatures. Every session of the public operations
follows it.
-/

namespace MongoSgx

open Bson Interaction

variable {β : Type}

/-- Users with their keys, and groups with their members in the order of joining. -/
structure Directory (β : Type) where
  users : Keyed (Prod.fst (α := List β) (β := List β))
  groups : Keyed (Prod.fst (α := List β) (β := List (List β)))

namespace Directory

def empty : Directory β := ⟨.empty, .empty⟩

variable [DecidableEq β]

/-- A member joins a group at the end of its list, unless it is there. -/
def joinEntry (u : List β) (e : List β × List (List β)) : List β × List (List β) :=
  (e.1, if u ∈ e.2 then e.2 else e.2 ++ [u])

def leaveEntry (u : List β) (e : List β × List (List β)) : List β × List (List β) :=
  (e.1, e.2.filter (· ≠ u))

theorem joinEntry_fst (u : List β) (e : List β × List (List β)) : (joinEntry u e).1 = e.1 := rfl

theorem leaveEntry_fst (u : List β) (e : List β × List (List β)) : (leaveEntry u e).1 = e.1 := rfl

def join (g u : List β) (D : Directory β) : Directory β :=
  { D with groups := D.groups.modify g (joinEntry u) (joinEntry_fst u) }

def leave (g u : List β) (D : Directory β) : Directory β :=
  { D with groups := D.groups.modify g (leaveEntry u) (leaveEntry_fst u) }

/-- What an operation answers, whether it returns, and what it does to the directory. -/
def step : Op β → Directory β → Bool × Directory β
  | .createUser u key, D =>
    if u ∈ D.users.keys then (false, D) else (true, { D with users := D.users.add (u, key) })
  | .createGroup g u, D =>
    if u ∈ D.users.keys then
      (true, if g ∈ D.groups.keys then D.join g u
        else { D with groups := D.groups.add (g, [u]) })
    else (false, D)
  | .addUserToGroup g u, D => if u ∈ D.users.keys then (true, D.join g u) else (false, D)
  | .removeUserFromGroup g u, D => (true, D.leave g u)
  | .deleteUser u, D =>
    if D.groups.elems = [] then (false, D)
    else (true, ⟨D.users.erase u, D.groups.map (leaveEntry u) (leaveEntry_fst u)⟩)
  | .deleteAllData, _ => (true, empty)

end Directory

def Account.listing (a : Account β) : List β × List β := (a.user, a.key)

def Group.listing (G : Group β) : List β × List (List β) := (G.name, G.users)

theorem Account.listing_fst (a : Account β) : a.listing.1 = a.user := rfl

theorem Group.listing_fst (G : Group β) : G.listing.1 = G.name := rfl

section Listing

variable [DecidableEq β] {P : Primitives β} {G : Group β} {m : Member β} {u : List β}

theorem Group.listing_join :
    (G.next P (.join m)).listing = Directory.joinEntry m.user G.listing := by
  rw [listing, next, users_join, change_name, Directory.joinEntry]
  rfl

theorem Group.listing_leave :
    (G.next P (.leave u)).listing = Directory.leaveEntry u G.listing := by
  rw [listing, next, users_leave, change_name, Directory.leaveEntry]
  rfl

end Listing

namespace Vault

def directory (V : Vault β) : Directory β where
  users := V.accounts.map Account.listing Account.listing_fst
  groups := V.groups.map Group.listing Group.listing_fst

@[simp] theorem directory_users_keys {V : Vault β} : V.directory.users.keys = V.accounts.keys := by
  unfold directory
  rw [Keyed.keys_map]

@[simp] theorem directory_groups_keys {V : Vault β} : V.directory.groups.keys = V.groups.keys := by
  unfold directory
  rw [Keyed.keys_map]

variable [DecidableEq β] {P : Primitives β} {V : Vault β} {u g key iv : List β} {m : Member β}

theorem directory_register :
    (V.register u key iv).directory =
      { V.directory with users := V.directory.users.add (u, key) } := by
  simp only [directory, register, Keyed.map_add]
  rfl

theorem directory_establish : (V.establish P g iv m).directory =
    { V.directory with groups := V.directory.groups.add (g, [m.user]) } := by
  simp only [directory, establish, found, Keyed.map_add]
  rfl

theorem directory_join : (V.update P g (.join m)).directory = V.directory.join g m.user := by
  simp only [Directory.join, directory]
  rw [← Keyed.map_modify (g := Group.next P (.join m)) (fun _ => Group.change_name)
    fun _ => Group.listing_join]
  rfl

theorem directory_leave : (V.update P g (.leave u)).directory = V.directory.leave g u := by
  simp only [Directory.leave, directory]
  rw [← Keyed.map_modify (g := Group.next P (.leave u)) (fun _ => Group.change_name)
    fun _ => Group.listing_leave]
  rfl

theorem directory_deleteUser : ((V.leaveAll P u).forget u).directory =
    ⟨V.directory.users.erase u, V.directory.groups.map (Directory.leaveEntry u)
      (Directory.leaveEntry_fst u)⟩ := by
  simp only [directory, ← Keyed.map_erase, Keyed.map_map]
  congr 1
  ext1
  change (V.groups.elems.map _).map _ = V.groups.elems.map _
  rw [List.map_map]
  exact List.map_congr_left fun G _ => Group.listing_leave

omit [DecidableEq β] in
theorem directory_groups_nil : V.directory.groups.elems = [] ↔ V.groups.elems = [] :=
  List.map_eq_nil_iff

end Vault

/-- The database is that of a signed vault with the given directory. -/
def Represents (P : Primitives β) (D : Directory β) (w : World β) : Prop :=
  ∃ V : Vault β, w = V.toWorld P ∧ V.Signed P ∧ V.Coherent ∧ V.directory = D

variable {P : Primitives β}

theorem represents_empty : Represents P Directory.empty (World.empty : World β) :=
  ⟨.empty, rfl, by nofun, by nofun, rfl⟩

variable [DecidableEq β]

theorem wp_step (hP : P.Ideal) (count : ℤ → Scalar) {V : Vault β} (hS : V.Signed P) (o : Op β) :
    Wp (Honest count) (fun r w => r.isOk = (Directory.step o V.directory).1 ∧ ∃ W : Vault β,
      w = W.toWorld P ∧ W.Signed P ∧ (V.Coherent → W.Coherent) ∧
        W.directory = (Directory.step o V.directory).2) (o.prog P) (V.toWorld P) := by
  cases o with
  | createUser u key =>
    apply (wp_createUser hP key).mono
    rintro r w (⟨hu, rfl, iv, rfl⟩ | ⟨hu, ⟨e, rfl, -⟩, rfl⟩)
    · rw [Directory.step, if_neg (by simpa using hu)]
      exact ⟨rfl, _, rfl, hS.register, fun hC => hC.register hu, Vault.directory_register⟩
    · rw [Directory.step, if_pos (by simpa using hu)]
      exact ⟨rfl, V, rfl, hS, id, rfl⟩
  | createGroup g u =>
    apply (wp_createGroup hP hS).mono
    rintro r w (⟨a, ha, rfl, rfl, iv, h⟩ | ⟨hu, ⟨e, rfl⟩, rfl⟩)
    · have hu : a.user ∈ V.directory.users.keys := by
        simpa using Keyed.mem_keys.mpr ⟨a, ha, rfl⟩
      have hacc : V.HasAccount a.user a.key := ⟨a, ha, rfl, rfl⟩
      rw [Directory.step, if_pos hu]
      rcases h with ⟨hg, rfl⟩ | ⟨hg, iv', rfl⟩
      · refine ⟨rfl, _, rfl, hS.update, fun hC => hC.update ?_, ?_⟩
        · rintro m ⟨⟩
          exact hacc
        · rw [Vault.directory_join, if_pos (by simpa using hg)]
      · refine ⟨rfl, _, rfl, hS.establish hg, fun hC => hC.establish hg hacc, ?_⟩
        rw [Vault.directory_establish, if_neg (by simpa using hg)]
    · rw [Directory.step, if_neg (by simpa using hu)]
      exact ⟨rfl, V, rfl, hS, id, rfl⟩
  | addUserToGroup g u =>
    apply (wp_addUserToGroup hP hS).mono
    rintro r w (⟨a, ha, rfl, iv, rfl, rfl⟩ | ⟨hu, ⟨e, rfl⟩, rfl⟩)
    · have hu : a.user ∈ V.directory.users.keys := by
        simpa using Keyed.mem_keys.mpr ⟨a, ha, rfl⟩
      rw [Directory.step, if_pos hu]
      refine ⟨rfl, _, rfl, hS.update, fun hC => hC.update ?_, Vault.directory_join⟩
      rintro m ⟨⟩
      exact ⟨a, ha, rfl, rfl⟩
    · rw [Directory.step, if_neg (by simpa using hu)]
      exact ⟨rfl, V, rfl, hS, id, rfl⟩
  | removeUserFromGroup g u =>
    apply (wp_removeUserFromGroup hP hS).mono
    rintro r w ⟨rfl, rfl⟩
    exact ⟨rfl, _, rfl, hS.update, fun hC => hC.update (by nofun), Vault.directory_leave⟩
  | deleteUser u =>
    apply (wp_deleteUser hP hS).mono
    rintro r w (⟨hnil, rfl, rfl⟩ | ⟨hne, rfl, rfl⟩)
    · rw [Directory.step, if_pos (Vault.directory_groups_nil.mpr hnil)]
      exact ⟨rfl, V, rfl, hS, id, rfl⟩
    · rw [Directory.step, if_neg (mt Vault.directory_groups_nil.mp hne)]
      refine ⟨rfl, _, rfl, hS.leaveAll.sub, fun hC => hC.leaveAll.forget ?_,
        Vault.directory_deleteUser⟩
      intro H hH
      obtain ⟨G, -, rfl⟩ := Vault.mem_groups_leaveAll.mp hH
      unfold Group.next
      rw [Group.users_leave]
      simp
  | deleteAllData =>
    apply wp_deleteAllData.mono
    rintro r w ⟨rfl, rfl⟩
    exact ⟨rfl, _, rfl, hS.sub, fun _ => by nofun, rfl⟩

theorem simulates_directory (hP : P.Ideal) (count : ℤ → Scalar) :
    Simulates (Honest count) (Op.prog P) Directory.step Except.isOk (fun _ => True)
      (Represents P) := by
  rintro o - _ _ ⟨V, rfl, hS, hC, rfl⟩
  apply (wp_step hP count hS o).mono
  rintro r w ⟨hr, W, rfl, hW, hC', hD⟩
  exact ⟨hr, W, rfl, hW, hC' hC, hD⟩

theorem exists_session (hP : P.Ideal) (count : ℤ → Scalar) (os : List (Op β)) : ∃ hist w,
    Session (Honest count) (Op.prog P) World.empty hist w ∧ hist.map Prod.fst = os ∧
    Represents P (runMachine Directory.step Directory.empty os).2 w := by
  have hsim := simulates_directory (P := P) hP count
  obtain ⟨hist, w, h, rfl⟩ := hsim.exists_session (honest_total count) os (fun _ _ => trivial)
    represents_empty
  exact ⟨hist, w, h, rfl, (h.simulation hsim (fun _ _ => trivial) represents_empty).2⟩

end MongoSgx
