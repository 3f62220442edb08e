import MongoSgx.Concurrent.Orphans
import MongoSgx.Interaction.Transcript

/-! # Operations that are cut off

An operation that writes more than once leaves a state between its writes when
the enclave stops or the next call of the driver fails. With one client, no such
state has an entry without a record: entries are written while the record stands,
and `delete_user` deletes the record after all the groups have been written. The
exception is `delete_all_data`, which deletes the records before the groups.
-/

namespace MongoSgx

open Bson Interaction

variable {β : Type} {P : Primitives β} {V W : Vault β} {u g key : List β} {o : Op β}

section Documents

/-- Every entry of every group belongs to a user who has a record. -/
def EntriesRecorded (P : Primitives β) (w : World β) : Prop :=
  ∀ d ∈ w.groups, ∀ v ∈ usersArray d, ∃ u, entryName v = pseudonymIn P u d ∧
    ∃ a ∈ w.users, Doc.get? a "name" = some (.binary (hashName P u none).toList)

theorem NoOrphans.entriesRecorded {w : World β} (h : NoOrphans P w) : EntriesRecorded P w := by
  intro d hd v hv
  obtain ⟨u, hu, a, ha, hname, -⟩ := h d hd v hv
  exact ⟨u, hu, a, ha, hname⟩

theorem CoherentStore.entriesRecorded (hP : P.Ideal) {w : World β} (h : CoherentStore P w) :
    EntriesRecorded P w := by
  obtain ⟨V, rfl, hV⟩ := h
  exact (hV.noOrphans hP).entriesRecorded

theorem usersArray_toDoc_eq_nil {G : Group β} : usersArray (G.toDoc P) = [] ↔ G.members = [] := by
  rw [usersArray_toDoc, List.map_eq_nil_iff, Group.entries, List.map_eq_nil_iff]

end Documents

section Alone

theorem standing_alone {Inv : World β → Prop} {A : Vault β → Prop} : Standing P (.alone Inv) A where
  stable hV ht := ⟨_, ht, hV⟩

theorem guar_alone (hW : W.Coherent) :
    (Contract.alone (CoherentStore P)).guar (V.toWorld P) (W.toWorld P) := fun _ => ⟨W, rfl, hW⟩

variable [DecidableEq β] {count : ℤ → Scalar}

theorem edits_join_alone {m : Member β} : Edits P (.alone (CoherentStore P))
    (fun V => V.Coherent ∧ V.HasAccount m.user m.key) g (.join m) (fun _ => True) where
  standing := standing_alone
  seen _ _ _ _ := trivial
  write := by
    rintro V G - ⟨hV, hk⟩ - - - - - -
    have hW : (V.modify g (.join m) (G.nextSignature P (.join m))).Coherent := hV.modify (by
      rintro _ ⟨⟩
      exact hk)
    exact ⟨guar_alone hW, hW, hk⟩

theorem edits_leave_alone : Edits P (.alone (CoherentStore P)) Vault.Coherent g (.leave u)
    (fun _ => True) where
  standing := standing_alone
  seen _ _ _ _ := trivial
  write := by
    intro V G _ hV _ _ _ _ _ _
    have hW : (V.modify g (.leave u) (G.nextSignature P (.leave u))).Coherent :=
      hV.modify (by nofun)
    exact ⟨guar_alone hW, hW⟩

/-- With no other client, the groups that still have the user are due or queued as they are. -/
theorem sweeps_alone {Inv : World β → Prop} {A : Vault β → Prop}
    (hinv : ∀ V, A V → Inv (Vault.toWorld P V))
    (hleave : ∀ V g s, A V → A (Vault.modify g (.leave u) s V))
    (hforget : ∀ V, A V → (∀ G ∈ V.groups, u ∉ G.users) → A (Vault.forget u V)) :
    Sweeps P (Honest count) (.alone Inv) u
      (fun cur Gs V => A V ∧ OverGroups cur ∧
        ∀ G ∈ V.groups, u ∈ G.users → G.id ∈ due V cur ∨ G ∈ Gs)
      (fun Gs V => A V ∧ ∀ G ∈ V.groups, u ∈ G.users → G ∈ Gs) where
  reading _ _ := standing_alone
  writing _ := standing_alone
  overGroups _ _ _ h := h.2.1
  visit := by
    rintro V cur cur' Gs G ⟨hV, -, hleft⟩ hG hover htodo
    refine ⟨hV, hover, fun H hH hu => ?_⟩
    rcases hleft H hH hu with hdue | hq
    · by_cases hid : H.id = G.id
      · obtain rfl := Vault.group_eq_of_id_eq hH hG hid
        exact .inr (List.mem_append_right _ (List.mem_singleton_self H))
      · refine .inl ?_
        unfold due
        rw [htodo]
        exact (List.mem_erase_of_ne hid).mpr hdue
    · exact .inr (List.mem_append_left _ hq)
  finish V cur Gs h hno := ⟨h.1, fun G hG hu => (h.2.2 G hG hu).resolve_left (hno G hG)⟩
  write := by
    rintro V G H Gs ⟨hV, hleft⟩ - -
    have hW := hleave V G.name (G.nextSignature P (.leave u)) hV
    refine ⟨fun _ => hinv _ hW, hW, fun K hK hu => ?_⟩
    obtain ⟨K', hK', rfl⟩ := Vault.mem_groups_modify.mp hK
    by_cases hn : K'.name = G.name
    · rw [if_pos hn, Group.users_leave] at hu
      simp at hu
    · rw [if_neg hn] at hu ⊢
      rcases List.mem_cons.mp (hleft K' hK' hu) with rfl | hq
      · exact absurd rfl hn
      · exact hq
  miss := by
    rintro V G Gs ⟨hV, hleft⟩ - hno
    refine ⟨hV, fun K hK hu => ?_⟩
    rcases List.mem_cons.mp (hleft K hK hu) with rfl | hq
    · exact absurd rfl (hno K hK)
    · exact hq
  forget := by
    rintro V ⟨hV, hleft⟩
    have hW := hforget V hV fun G hG hu => List.not_mem_nil (hleft G hG hu)
    exact ⟨fun _ => hinv _ hW, hW, hleft⟩

theorem safe_alone (hP : P.Ideal) (hV : V.Coherent)
    (ho : o = .deleteAllData → ∀ G ∈ V.groups, G.members = []) :
    Safe (Honest count) (.alone (CoherentStore P)) (fun _ _ => True) (o.prog P)
      (V.toWorld P) := by
  have hA : Standing P (.alone (CoherentStore P)) Vault.Coherent := standing_alone
  have hjoin : ∀ (g u : List β) (m : Member β), m.user = u → Edits P (.alone (CoherentStore P))
      (fun V => V.Coherent ∧ V.HasAccount u m.key) g (.join m) (fun _ => True) := by
    rintro g _ m rfl
    exact edits_join_alone
  cases o with
  | createUser u key =>
    refine safe_createUser hP honestAnswers_self hA (fun W iv hW hu => ?_) hV
    exact guar_alone (hW.register hu)
  | createGroup g u =>
    refine safe_createGroup (B := fun key V => V.Coherent ∧ V.HasAccount u key) hP
      honestAnswers_self hA (fun _ _ => .intro) ?_ (hjoin g u) hV
    rintro W iv m rfl ⟨hW, hk⟩ hg
    exact guar_alone (hW.establish hg hk)
  | addUserToGroup g u =>
    exact safe_addUserToGroup (B := fun key V => V.Coherent ∧ V.HasAccount u key) hP
      honestAnswers_self hA (fun _ _ => .intro) (hjoin g u) hV
  | removeUserFromGroup g u =>
    exact safe_removeUserFromGroup hP honestAnswers_self edits_leave_alone hV
  | deleteUser u =>
    have hsweep : Sweeps P (Honest count) (.alone (CoherentStore P)) u _ _ :=
      sweeps_alone (A := Vault.Coherent) (fun V hV => ⟨V, rfl, hV⟩)
        (fun _ _ _ hV => hV.modify (by nofun)) fun _ hV hu => hV.forget hu
    refine (hsweep.safe_deleteUser hP honestAnswers_self ⟨hV, ⟨rfl, rfl, rfl⟩, ?_⟩).mono
      fun _ _ _ => trivial
    exact fun G hG _ => .inl (List.mem_map_of_mem hG)
  | deleteAllData =>
    refine safe_deleteAllData (A := fun V => ∀ G ∈ V.groups, G.members = []) honestAnswers_self
      standing_alone (fun W as gs has hgs hW => ?_) (ho rfl)
    have hnone : ∀ G ∈ (W.sub as gs has hgs).groups, G.members = [] :=
      fun G hG => hW G (hgs.subset hG)
    refine ⟨guar_alone fun G hG m hm => ?_, hnone⟩
    rw [hnone G hG] at hm
    cases hm

omit [DecidableEq β] in
theorem not_entriesRecorded {w : World β} {d : Doc β} (hd : d ∈ w.groups) (hne : usersArray d ≠ [])
    (husers : w.users = []) : ¬ EntriesRecorded P w := by
  intro h
  obtain ⟨v, hv⟩ := List.exists_mem_of_ne_nil _ hne
  obtain ⟨u, -, a, ha, -⟩ := h d hd v hv
  rw [husers] at ha
  cases ha

/-- `delete_all_data` comes through a state with all the groups and no user. -/
theorem exists_steps_deleteAllData (count : ℤ → Scalar) : ∃ p,
    (deleteAllData : Enclave β Unit).Steps (Honest count) (V.toWorld P) p
      ((V.sub [] _ (List.nil_sublist _) (List.Sublist.refl _)).toWorld P) := by
  obtain ⟨_, _, hr, rfl, rfl⟩ := (wp_deleteMany_users (P := P) (V := V)).exists_evals
    (honest_total count)
  simp only [deleteAllData, create, Prog.bind_eq, Prog.request_bind]
  exact ⟨_, .head (.call (r := ()) rfl) (hr.steps_bind _)⟩

theorem exists_cut (count : ℤ → Scalar) {d : Doc β} (hd : d ∈ (V.toWorld P).groups)
    (hne : usersArray d ≠ []) : ∃ p w,
    (deleteAllData : Enclave β Unit).Steps (Honest count) (V.toWorld P) p w ∧
      ¬ EntriesRecorded P w := by
  obtain ⟨p, hs⟩ := exists_steps_deleteAllData (P := P) (V := V) count
  exact ⟨p, _, hs, not_entriesRecorded hd hne rfl⟩

end Alone

variable [DecidableEq β]

/-- In the runs of one client, cut off anywhere in their last operation, every entry of every
group belongs to a recorded user, unless that operation is `delete_all_data` and some group has
an entry. -/
theorem entriesRecorded_iff (hP : P.Ideal) (count : ℤ → Scalar)
    {hist : List (Op β × Except Stop Unit)} {w : World β}
    (h : Session (Honest count) (Op.prog P) World.empty hist w) :
    (∀ p w', (o.prog P).Steps (Honest count) w p w' → EntriesRecorded P w') ↔
      (o = .deleteAllData → ∀ d ∈ w.groups, usersArray d = []) := by
  obtain ⟨V, rfl, -, hC, -⟩ :=
    (h.simulation (simulates_directory hP count) (fun _ _ => trivial) represents_empty).2
  constructor
  · rintro hcut rfl d hd
    by_contra hne
    obtain ⟨p, w', hs, hw'⟩ := exists_cut count hd hne
    exact hw' (hcut p w' hs)
  · intro ho p w' hs
    have hempty : o = .deleteAllData → ∀ G ∈ V.groups, G.members = [] := fun hdel G hG =>
      usersArray_toDoc_eq_nil.mp (ho hdel _ (List.mem_map_of_mem hG))
    have hw' : CoherentStore P w' :=
      (safe_alone hP hC hempty).invariant (fun hg => hg) hs ⟨V, rfl, hC⟩
    exact hw'.entriesRecorded hP

/-- After a user and a group with the user have been created, deleting the user can be cut off
anywhere and deleting all data cannot. -/
theorem entriesRecorded_iff_sample : ∃ hist w,
    Session (Honest .int64) (Op.prog Primitives.nat) World.empty hist w ∧
    hist.map Prod.fst = [.createUser [1] (.replicate 32 7), .createGroup [5] [1]] ∧
    (∀ p w', ((Op.deleteUser [1]).prog Primitives.nat).Steps (Honest .int64) w p w' →
      EntriesRecorded Primitives.nat w') ∧
    ¬ ∀ p w', (Op.deleteAllData.prog Primitives.nat).Steps (Honest .int64) w p w' →
      EntriesRecorded Primitives.nat w' := by
  obtain ⟨hist, V, G, h, hops, -, -, -, hV, -, hu⟩ := exists_group_session (g := [5])
    Primitives.nat_ideal .int64 [.createUser [1] (.replicate 32 7), .createGroup [5] [1]] rfl
  have hG : G ∈ V.groups := by simp [Keyed.mem_def, hV]
  refine ⟨hist, _, h, hops, ?_, ?_⟩
  · exact (entriesRecorded_iff Primitives.nat_ideal .int64 h).mpr (by nofun)
  · rw [entriesRecorded_iff Primitives.nat_ideal .int64 h]
    intro hnil
    have hmembers := usersArray_toDoc_eq_nil.mp (hnil rfl _ (List.mem_map_of_mem hG))
    rw [Group.users, hmembers] at hu
    cases hu

/-- Deleting all data is cut off when the user is gone and the group with its entry still stands. -/
theorem cut_deleteAllData : ∃ hist w p w',
    Session (Honest .int64) (Op.prog Primitives.nat) World.empty hist w ∧
    hist.map Prod.fst = [.createUser [1] (.replicate 32 7), .createGroup [5] [1]] ∧
    (Op.deleteAllData.prog Primitives.nat).Steps (Honest .int64) w p w' ∧
    ¬ EntriesRecorded Primitives.nat w' := by
  obtain ⟨hist, V, G, h, hops, -, -, -, hV, -, hu⟩ := exists_group_session (g := [5])
    Primitives.nat_ideal .int64 [.createUser [1] (.replicate 32 7), .createGroup [5] [1]] rfl
  have hG : G ∈ V.groups := by simp [Keyed.mem_def, hV]
  have hne : usersArray (G.toDoc Primitives.nat) ≠ [] := fun hnil => by
    rw [Group.users, usersArray_toDoc_eq_nil.mp hnil] at hu
    cases hu
  obtain ⟨p, w', hs, hw'⟩ := exists_cut .int64 (List.mem_map_of_mem hG) hne
  exact ⟨hist, _, p, w', h, hops, hs, hw'⟩

end MongoSgx
