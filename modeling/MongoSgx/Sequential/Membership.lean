import Mathlib.Data.Finset.Image
import MongoSgx.Sequential.Directory

/-! # Membership as an abstract data type

Forgetting keys and orders, the database is a set of users and a finite map from
groups to member sets. The operations succeed and fail as the abstract ones do,
and `is_user_part_of_group` reads the abstract member sets.
-/

namespace MongoSgx

open Bson Interaction

variable {β : Type} [DecidableEq β]

/-- A set of users, and a finite map from groups to member sets. -/
structure Membership (β : Type) where
  users : Finset (List β)
  groups : Finset (List β)
  members : List β → Finset (List β)
  absent : ∀ g, g ∉ groups → members g = ∅

namespace Membership

def empty : Membership β := ⟨∅, ∅, fun _ => ∅, fun _ _ => rfl⟩

def change (f : List β → Finset (List β) → Finset (List β)) (M : Membership β) : Membership β :=
  { M with
    members := fun g => if g ∈ M.groups then f g (M.members g) else ∅
    absent := fun _ h => if_neg h }

def create (g u : List β) (M : Membership β) : Membership β :=
  { M with
    groups := insert g M.groups
    members := fun h => if h = g then insert u (M.members h) else M.members h
    absent := by
      intro h hh
      rw [Finset.mem_insert, not_or] at hh
      rw [if_neg hh.1, M.absent h hh.2] }

def add (g u : List β) (M : Membership β) : Membership β :=
  M.change fun h us => if h = g then insert u us else us

def remove (g u : List β) (M : Membership β) : Membership β :=
  M.change fun h us => if h = g then us.erase u else us

def removeAll (u : List β) (M : Membership β) : Membership β := M.change fun _ us => us.erase u

/-- Whether an operation succeeds, and what it does to users and members. -/
def step : Op β → Membership β → Bool × Membership β
  | .createUser u _, M =>
    if u ∈ M.users then (false, M) else (true, { M with users := insert u M.users })
  | .createGroup g u, M => if u ∈ M.users then (true, M.create g u) else (false, M)
  | .addUserToGroup g u, M => if u ∈ M.users then (true, M.add g u) else (false, M)
  | .removeUserFromGroup g u, M => (true, M.remove g u)
  | .deleteUser u, M =>
    if M.groups = ∅ then (false, M)
    else (true, { M.removeAll u with users := M.users.erase u })
  | .deleteAllData, _ => (true, empty)

omit [DecidableEq β] in
theorem ext_of {M N : Membership β} (hu : M.users = N.users) (hg : M.groups = N.groups)
    (hm : ∀ g, M.members g = N.members g) : M = N := by
  obtain ⟨_, _, members, _⟩ := M
  obtain ⟨_, _, members', _⟩ := N
  obtain rfl : members = members' := funext hm
  obtain rfl := hu
  obtain rfl := hg
  rfl

theorem create_eq_add {M : Membership β} {g u : List β} (hg : g ∈ M.groups) :
    M.create g u = M.add g u := by
  apply ext_of
  · rfl
  · exact Finset.insert_eq_self.mpr hg
  · intro h
    simp only [create, add, change]
    by_cases hh : h ∈ M.groups
    · rw [if_pos hh]
    · have hne : h ≠ g := fun he => hh (he ▸ hg)
      rw [if_neg hh, if_neg hne, M.absent h hh]

end Membership

namespace Directory

variable {D : Directory β} {g h u : List β}

def membersOf (D : Directory β) (g : List β) : Finset (List β) :=
  match D.groups.find g with
  | some e => e.2.toFinset
  | none => ∅

def membership (D : Directory β) : Membership β where
  users := D.users.keys.toFinset
  groups := D.groups.keys.toFinset
  members := D.membersOf
  absent g hg := by
    have hn : D.groups.find g = none := Keyed.find_eq_none_iff_keys.mpr (by simpa using hg)
    unfold membersOf
    rw [hn]

@[simp] theorem toFinset_joinEntry (e : List β × List (List β)) :
    (joinEntry u e).2.toFinset = insert u e.2.toFinset := by
  ext v
  by_cases h : u ∈ e.2
  · simp [joinEntry, h]
  · simp [joinEntry, h]

@[simp] theorem toFinset_leaveEntry (e : List β × List (List β)) :
    (leaveEntry u e).2.toFinset = e.2.toFinset.erase u := by
  ext v
  simp [leaveEntry, and_comm]

theorem membership_change {D' : Directory β}
    {F : List β → List β × List (List β) → List β × List (List β)}
    {f : List β → Finset (List β) → Finset (List β)}
    (husers : D'.users = D.users) (hkeys : D'.groups.keys = D.groups.keys)
    (hfind : ∀ h, D'.groups.find h = (D.groups.find h).map (F h))
    (hF : ∀ h e, (F h e).2.toFinset = f h e.2.toFinset) :
    D'.membership = D.membership.change f := by
  apply Membership.ext_of
  · simp [membership, Membership.change, husers]
  · simp [membership, Membership.change, hkeys]
  · intro h
    simp only [membership, Membership.change, membersOf, hfind]
    cases hh : D.groups.find h with
    | none =>
      have hk : h ∉ D.groups.keys := Keyed.find_eq_none_iff_keys.mp hh
      simp [hk]
    | some e =>
      obtain ⟨he, hek⟩ := Keyed.find_eq_some_iff.mp hh
      have hk : h ∈ D.groups.keys := Keyed.mem_keys.mpr ⟨e, he, hek⟩
      simp [hk, hF]

theorem membership_join : (D.join g u).membership = D.membership.add g u := by
  refine membership_change (F := fun h e => if h = g then joinEntry u e else e) rfl
    (Keyed.keys_modify (joinEntry_fst u)) (fun h => ?_) (fun h e => ?_)
  · simp only [join, Keyed.find_modify]
    split <;> simp_all
  · split <;> simp

theorem membership_leave : (D.leave g u).membership = D.membership.remove g u := by
  refine membership_change (F := fun h e => if h = g then leaveEntry u e else e) rfl
    (Keyed.keys_modify (leaveEntry_fst u)) (fun h => ?_) (fun h e => ?_)
  · simp only [leave, Keyed.find_modify]
    split <;> simp_all
  · split <;> simp

theorem membership_create (hg : g ∉ D.groups.keys) :
    Directory.membership { D with groups := D.groups.add (g, [u]) } =
      D.membership.create g u := by
  apply Membership.ext_of
  · rfl
  · ext h
    have hk : (D.groups.add (g, [u])).keys = D.groups.keys ++ [g] := Keyed.keys_add hg
    simp [membership, Membership.create, hk]
  · intro h
    have hfind : (D.groups.add (g, [u])).find h =
        if h = g then some (g, [u]) else D.groups.find h := Keyed.find_add hg
    simp only [membership, Membership.create, membersOf, hfind]
    by_cases hh : h = g
    · subst hh
      have hn : D.groups.find h = none := Keyed.find_eq_none_iff_keys.mpr hg
      simp [hn]
    · simp [hh]

theorem membership_deleteUser :
    Directory.membership ⟨D.users.erase u, D.groups.map (leaveEntry u) (leaveEntry_fst u)⟩ =
      { D.membership.removeAll u with users := D.membership.users.erase u } := by
  have h : Directory.membership
      { D with groups := D.groups.map (leaveEntry u) (leaveEntry_fst u) } =
      D.membership.removeAll u :=
    membership_change (F := fun _ => leaveEntry u) rfl
      (Keyed.keys_map (leaveEntry_fst u)) (fun _ => Keyed.find_map (leaveEntry_fst u))
      fun _ e => toFinset_leaveEntry e
  rw [← h]
  apply Membership.ext_of
  · ext v
    simp [membership, Keyed.keys_erase, and_comm]
  · rfl
  · exact fun _ => rfl

theorem membership_step (o : Op β) (D : Directory β) :
    Membership.step o D.membership = ((step o D).1, (step o D).2.membership) := by
  have hu : ∀ u, u ∈ D.membership.users ↔ u ∈ D.users.keys := fun u => List.mem_toFinset
  have hg : ∀ g, g ∈ D.membership.groups ↔ g ∈ D.groups.keys := fun g => List.mem_toFinset
  cases o with
  | createUser u key =>
    by_cases h : u ∈ D.users.keys
    · simp only [step, Membership.step, hu, h, ↓reduceIte]
    · simp only [step, Membership.step, hu, h, ↓reduceIte]
      have hk : (D.users.add (u, key)).keys = D.users.keys ++ [u] := Keyed.keys_add h
      refine Prod.ext rfl (Membership.ext_of ?_ rfl fun _ => rfl)
      ext v
      simp [membership, hk]
  | createGroup g u =>
    by_cases h : u ∈ D.users.keys
    · by_cases hk : g ∈ D.groups.keys
      · simp only [step, Membership.step, hu, h, hk, ↓reduceIte, membership_join,
          Membership.create_eq_add ((hg g).mpr hk)]
      · simp only [step, Membership.step, hu, h, hk, ↓reduceIte, membership_create hk]
    · simp only [step, Membership.step, hu, h, ↓reduceIte]
  | addUserToGroup g u =>
    by_cases h : u ∈ D.users.keys
    · simp only [step, Membership.step, hu, h, ↓reduceIte, membership_join]
    · simp only [step, Membership.step, hu, h, ↓reduceIte]
  | removeUserFromGroup g u => simp only [step, Membership.step, membership_leave]
  | deleteUser u =>
    have hnil : D.membership.groups = ∅ ↔ D.groups.elems = [] := by
      simp [membership, Keyed.keys]
    by_cases h : D.groups.elems = []
    · simp only [step, Membership.step, hnil, h, ↓reduceIte]
    · simp only [step, Membership.step, hnil, h, ↓reduceIte, membership_deleteUser]
  | deleteAllData => rfl

end Directory

/-- The database holds a signed vault with the given users and members. -/
def Models (P : Primitives β) (M : Membership β) (w : World β) : Prop :=
  ∃ D, Represents P D w ∧ D.membership = M

variable {P : Primitives β} {w : World β}

theorem models_empty : Models P Membership.empty (World.empty : World β) :=
  ⟨Directory.empty, represents_empty, rfl⟩

theorem simulates_membership (hP : P.Ideal) (count : ℤ → Scalar) :
    Simulates (Honest count) (Op.prog P) Membership.step Except.isOk (fun _ => True)
      (Models P) := by
  rintro o ho _ w ⟨D, hD, rfl⟩
  apply (simulates_directory hP count o ho D w hD).mono
  rintro r w' ⟨hr, hD'⟩
  rw [Directory.membership_step]
  exact ⟨hr, _, hD', rfl⟩

theorem Models.wp_isUserPartOfGroup (hP : P.Ideal) {count : ℤ → Scalar} {M : Membership β}
    (h : Models P M w) (g u : List β) :
    Wp (Honest count) (fun r w' => r = .ok (decide (u ∈ M.members g)) ∧ w' = w)
      (isUserPartOfGroup P g u) w := by
  obtain ⟨_, ⟨V, rfl, -, -, rfl⟩, rfl⟩ := h
  have hmem : (∃ G ∈ V.groups, G.name = g ∧ u ∈ G.users) ↔
      u ∈ V.directory.membership.members g := by
    have hfind : V.directory.groups.find g = (V.groups.find g).map Group.listing :=
      Keyed.find_map Group.listing_fst
    simp only [Directory.membership, Directory.membersOf, hfind]
    cases hg : V.groups.find g with
    | none =>
      have hno := Keyed.find_eq_none_iff.mp hg
      simpa using fun G hG hn => absurd hn (hno G hG)
    | some G =>
      obtain ⟨hG, rfl⟩ := Keyed.find_eq_some_iff.mp hg
      simp only [Option.map_some, Group.listing, List.mem_toFinset]
      constructor
      · rintro ⟨H, hH, hn, hu⟩
        exact Keyed.eq_of_key_eq hH hG hn ▸ hu
      · exact fun hu => ⟨G, hG, rfl, hu⟩
  apply (MongoSgx.wp_isUserPartOfGroup hP).mono
  rintro r w' ⟨rfl, b, rfl, hb⟩
  have hb' : b = decide (u ∈ V.directory.membership.members g) := by
    rw [Bool.eq_iff_iff, decide_eq_true_iff, ← hmem]
    exact hb
  exact ⟨congrArg _ hb', rfl⟩

/-- A session from empty collections is explained by the abstract membership: its calls
succeed and fail as the abstract ones, so does whatever call comes next, and
`is_user_part_of_group` answers from the abstract member sets. -/
theorem session_refines_membership (hP : P.Ideal) (count : ℤ → Scalar)
    (hist : List (Op β × Except Stop Unit))
    (h : Session (Honest count) (Op.prog P) World.empty hist w) :
    let (outcomes, M) := runMachine Membership.step Membership.empty (hist.map Prod.fst)
    hist.map (fun x => x.2.isOk) = outcomes ∧ Models P M w ∧
      (∀ o, Wp (Honest count) (fun r w' => r.isOk = (M.step o).1 ∧ Models P (M.step o).2 w')
        (Op.prog P o) w) ∧
      ∀ g u, Wp (Honest count) (fun r w' => r = .ok (decide (u ∈ M.members g)) ∧ w' = w)
        (isUserPartOfGroup P g u) w := by
  have hsim := simulates_membership (β := β) hP count
  obtain ⟨hout, hM⟩ := h.simulation hsim (fun _ _ => trivial) models_empty
  exact ⟨hout, hM, fun o => hsim o trivial _ w hM, fun g u => hM.wp_isUserPartOfGroup hP g u⟩

/-- Two users of one group, a removal, and a member that is no user. -/
theorem session_refines_membership_sample : ∃ hist w,
    Session (Honest .int64) (Op.prog Primitives.nat) World.empty hist w ∧
    hist.map Prod.fst = [.createUser [1] [7], .createGroup [5] [1], .createUser [2] [8],
      .addUserToGroup [5] [2], .removeUserFromGroup [5] [1], .addUserToGroup [5] [3]] ∧
    hist.map (fun x => x.2.isOk) = [true, true, true, true, true, false] ∧
    Wp (Honest .int64) (fun r w' => r = .ok false ∧ w' = w)
      (isUserPartOfGroup Primitives.nat [5] [1]) w ∧
    Wp (Honest .int64) (fun r w' => r = .ok true ∧ w' = w)
      (isUserPartOfGroup Primitives.nat [5] [2]) w := by
  obtain ⟨hist, w, h, hops⟩ := (simulates_membership Primitives.nat_ideal .int64).exists_session
    (honest_total .int64) [.createUser [1] [7], .createGroup [5] [1], .createUser [2] [8],
      .addUserToGroup [5] [2], .removeUserFromGroup [5] [1], .addUserToGroup [5] [3]]
    (fun _ _ => trivial) models_empty
  obtain ⟨hout, -, -, hmem⟩ := session_refines_membership Primitives.nat_ideal .int64 hist h
  rw [hops] at hout hmem
  exact ⟨hist, w, h, hops, hout, hmem [5] [1], hmem [5] [2]⟩

end MongoSgx
