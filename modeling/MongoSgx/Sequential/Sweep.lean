import MongoSgx.Sequential.Calls

/-! # Deletions running alone

`delete_user` reads every group through one cursor, queues one update for each,
runs the queue as a bulk and only then deletes the user record. The cursor visits
every group exactly once, in an order the store chooses, so the bulk drops the
user from all groups; when there is no group the bulk is empty and fails.
-/

namespace MongoSgx

open Bson Interaction

variable {β : Type} [DecidableEq β] {count : ℤ → Scalar} {P : Primitives β} {V : Vault β}
  {u g : List β}

namespace Vault

def leaveSome (P : Primitives β) (u : List β) (gs : List (List β)) (V : Vault β) : Vault β :=
  V.mapGroups (fun G => if G.name ∈ gs then G.next P (.leave u) else G)
    (fun G => by split <;> simp [Group.next]) (fun G => by split <;> simp [Group.next])

theorem leaveSome_nil : V.leaveSome P u [] = V := mapGroups_eq_self fun _ _ => rfl

theorem leaveSome_cons {gs : List (List β)} (h : g ∉ gs) :
    (V.update P g (.leave u)).leaveSome P u gs = V.leaveSome P u (g :: gs) := by
  have hf : ∀ G : Group β, (if (if G.name = g then G.next P (.leave u) else G).name ∈ gs then
      (if G.name = g then G.next P (.leave u) else G).next P (.leave u)
      else if G.name = g then G.next P (.leave u) else G) =
      if G.name ∈ g :: gs then G.next P (.leave u) else G := by
    intro G
    by_cases hg : G.name = g
    · subst hg
      simp [Group.next, h]
    · simp [hg]
  have he : (V.groups.elems.map fun G => if G.name = g then G.next P (.leave u) else G).map
      (fun G => if G.name ∈ gs then G.next P (.leave u) else G) =
      V.groups.elems.map fun G => if G.name ∈ g :: gs then G.next P (.leave u) else G := by
    rw [List.map_map]
    exact List.map_congr_left fun G _ => hf G
  simp only [leaveSome, update, mapGroups, Keyed.map, he]

theorem leaveSome_eq_leaveAll {gs : List (List β)} (h : ∀ G ∈ V.groups, G.name ∈ gs) :
    V.leaveSome P u gs = V.leaveAll P u := mapGroups_congr fun G hG => if_pos (h G hG)

end Vault

section Bulk

/-- The updates in the bulk have not been written yet, and those that have been are in `w`. -/
def Dropping (P : Primitives β) (u : List β) (V : Vault β) (bulk : Bulk β) (w : World β) : Prop :=
  V.groups.elems ≠ [] ∧ ∃ (W : Vault β) (Gs : List (Group β)), w = W.toWorld P ∧
    bulk = Gs.map (sweepOp P u) ∧ (Gs.map Group.name).Nodup ∧ (∀ G ∈ Gs, G ∈ W.groups) ∧
    W.leaveSome P u (Gs.map Group.name) = V.leaveAll P u

theorem Dropping.start {Gs : List (Group β)} (hne : V.groups.elems ≠ [])
    (hn : (Gs.map Group.name).Nodup) (hGs : ∀ G, G ∈ Gs ↔ G ∈ V.groups) :
    Dropping P u V (Gs.map (sweepOp P u)) (V.toWorld P) :=
  ⟨hne, V, Gs, rfl, rfl, hn, fun G => (hGs G).mp,
    Vault.leaveSome_eq_leaveAll fun G hG => List.mem_map_of_mem ((hGs G).mpr hG)⟩

theorem Dropping.done {w : World β} (h : Dropping P u V [] w) : w = (V.leaveAll P u).toWorld P := by
  obtain ⟨-, W, Gs, rfl, hbulk, -, -, hleave⟩ := h
  obtain rfl := List.map_eq_nil_iff.mp hbulk.symm
  rw [← hleave, List.map_nil, Vault.leaveSome_nil]

def Dropped (P : Primitives β) (u : List β) (V : Vault β) (r : Except Stop Unit) (w : World β) :
    Prop :=
  (V.groups.elems = [] ∧ r = .error (.thrown emptyBulkError) ∧ w = V.toWorld P) ∨
  (V.groups.elems ≠ [] ∧ r = .ok () ∧ w = ((V.leaveAll P u).forget u).toWorld P)

theorem dropSteps_alone (hP : P.Ideal) :
    DropSteps (Honest count).rule P u (Dropping P u V) (Dropped P u V) where
  quiet_write _ := quiet_honest
  quiet_done _ := quiet_honest
  write := by
    rintro sel upd bulk _ ⟨hne, W, Gs, rfl, hbulk, hn, hsub, hleave⟩ r w h
    cases Gs with
    | nil => cases hbulk
    | cons G Gs =>
      obtain ⟨hop, rfl⟩ := List.cons.inj hbulk
      obtain ⟨rfl, rfl⟩ := Prod.mk.inj hop
      rw [List.map_cons, List.nodup_cons] at hn
      have hG := hsub G (List.mem_cons_self ..)
      obtain ⟨rfl, ⟨-, hno⟩ | ⟨rfl, -⟩⟩ := honest_bulkEdit hP h
      · exact absurd rfl (hno G hG)
      · rw [Vault.modify_eq_update hG]
        refine ⟨hne, _, Gs, rfl, rfl, hn.2, fun H hH => ?_, ?_⟩
        · have hne : H.name ≠ G.name := fun he => hn.1 (he ▸ List.mem_map_of_mem hH)
          exact Vault.mem_groups_update.mpr ⟨H, hsub H (List.mem_cons_of_mem _ hH), if_neg hne⟩
        · rw [Vault.leaveSome_cons hn.1]
          exact hleave
  delete := by
    intro _ hK r w h
    obtain rfl := hK.done
    obtain ⟨rfl, rfl⟩ := honest_forget hP h
    exact .inr ⟨hK.1, rfl, rfl⟩

end Bulk

section Cursor

/-- The cursor has returned the groups `Gs`, each once, and one update is queued for each. -/
structure Swept (P : Primitives β) (u : List β) (V : Vault β) (Gs : List (Group β))
    (cur : Cursor β) (bulk : Bulk β) : Prop where
  overGroups : OverGroups cur
  bulk : bulk = Gs.map (sweepOp P u)
  nodup : (Gs.map Group.name).Nodup
  sub : ∀ G ∈ Gs, G ∈ V.groups
  seen : ∀ G ∈ Gs, G.id ∈ cur.seen
  due_nodup : (due V cur).Nodup
  due_iff : ∀ G ∈ V.groups, G.id ∈ due V cur ↔ G ∉ Gs

theorem Swept.start {rp : Option ReadMode} :
    Swept P u V [] (findWithOpts .groups [] none rp) [] where
  overGroups := ⟨rfl, rfl, rfl⟩
  bulk := rfl
  nodup := List.nodup_nil
  sub := by simp
  seen := by simp
  due_nodup := V.group_ids
  due_iff G hG := by simpa [due, findWithOpts] using ⟨G, hG, rfl⟩

theorem Swept.snoc {Gs : List (Group β)} {cur cur' : Cursor β} {bulk : Bulk β} {G : Group β}
    (h : Swept P u V Gs cur bulk) (hG : G ∈ V.groups)
    (hnew : G.id ∈ due V cur ∨ G.id ∉ cur.seen) (hover : OverGroups cur')
    (htodo : cur'.todo = some ((due V cur).erase G.id)) (hseen : cur'.seen = G.id :: cur.seen) :
    Swept P u V (Gs ++ [G]) cur' (bulk ++ [sweepOp P u G]) := by
  have hdue : due V cur' = (due V cur).erase G.id := by rw [due, htodo, Option.getD_some]
  have hGs : G ∉ Gs := by
    rcases hnew with hd | hs
    · exact (h.due_iff G hG).mp hd
    · exact fun hm => hs (h.seen G hm)
  refine ⟨hover, ?_, ?_, ?_, ?_, ?_, ?_⟩
  · rw [h.bulk, List.map_append, List.map_singleton]
  · rw [List.map_append, List.map_singleton, ← List.concat_eq_append, List.nodup_concat]
    refine ⟨fun hm => hGs ?_, h.nodup⟩
    obtain ⟨H, hH, he⟩ := List.mem_map.mp hm
    exact Keyed.eq_of_key_eq (h.sub H hH) hG he ▸ hH
  · intro H hH
    rcases List.mem_append.mp hH with hH | hH
    · exact h.sub H hH
    · exact List.mem_singleton.mp hH ▸ hG
  · intro H hH
    rw [hseen]
    rcases List.mem_append.mp hH with hH | hH
    · exact List.mem_cons_of_mem _ (h.seen H hH)
    · exact List.mem_singleton.mp hH ▸ List.mem_cons_self ..
  · exact hdue ▸ h.due_nodup.erase _
  · intro H hH
    rw [hdue, h.due_nodup.mem_erase_iff, h.due_iff H hH, List.mem_append, List.mem_singleton,
      not_or, and_comm]
    refine and_congr_right fun _ => not_congr ⟨fun he => ?_, fun he => he ▸ rfl⟩
    exact Vault.group_eq_of_id_eq hH hG he

def QueuedForAll (P : Primitives β) (u : List β) (V : Vault β) (bulk : Bulk β) : Prop :=
  ∃ Gs : List (Group β), bulk = Gs.map (sweepOp P u) ∧ (Gs.map Group.name).Nodup ∧
    ∀ G, G ∈ Gs ↔ G ∈ V.groups

theorem sweepSteps_alone (hP : P.Ideal) (hS : V.Signed P) : SweepSteps (Honest count).rule P u
    (fun cur bulk w => w = V.toWorld P ∧ ∃ Gs, Swept P u V Gs cur bulk)
    (fun cur bulk d w => w = V.toWorld P ∧ ∃ G ∈ V.groups, d = G.toDoc P ∧
      ∃ Gs, Swept P u V Gs cur (bulk ++ [sweepOp P u G]))
    (fun bulk w => w = V.toWorld P ∧ QueuedForAll P u V bulk) (fun _ _ => False) where
  quiet_round _ _ := quiet_honest
  quiet_read _ _ _ := quiet_honest
  next := by
    rintro cur bulk _ ⟨rfl, Gs, h⟩ ⟨d, cur'⟩ w hE
    obtain ⟨rfl, ⟨G, hG, hnew, rfl, hover, htodo, hseen⟩ | ⟨hno, rfl⟩⟩ :=
      honest_nextGroup h.overGroups hE
    · exact ⟨rfl, G, hG, rfl, _, h.snoc hG hnew hover htodo hseen⟩
    · refine ⟨rfl, Gs, h.bulk, h.nodup, fun G => ⟨h.sub G, fun hG => ?_⟩⟩
      exact not_not.mp fun hn => hno G hG ((h.due_iff G hG).mpr hn)
  stop := by
    rintro _ _ _ _ e ⟨rfl, G, hG, rfl, -⟩ he
    exact not_sweepStop_toDoc hP (hS G hG) he
  queue := by
    rintro _ _ _ _ op ⟨rfl, G, hG, rfl, hswept⟩ hop
    obtain ⟨-, rfl⟩ := (sweepOf_toDoc hP).mp hop
    exact ⟨rfl, hswept⟩

theorem Swept.length_le {Gs : List (Group β)} {cur : Cursor β} {bulk : Bulk β}
    (h : Swept P u V Gs cur bulk) : bulk.length ≤ V.groups.elems.length := by
  rw [h.bulk, List.length_map]
  exact ((List.Nodup.of_map _ h.nodup).subperm h.sub).length_le

theorem wp_sweep (hP : P.Ideal) (hS : V.Signed P) {α : Type} {k : Bulk β → Enclave β α}
    {Q : Except Stop α → World β → Prop}
    (hk : ∀ bulk, QueuedForAll P u V bulk → Wp (Honest count) Q (k bulk) (V.toWorld P)) :
    Wp (Honest count) Q (.loop (sweepRound P u)
      (findWithOpts .groups [] none (some .primaryPreferred), []) k) (V.toWorld P) := by
  refine (sweepSteps_alone hP hS).judged_loop (n := V.groups.elems.length) ?_ sound_wp unrolls_wp
    (fun _ _ h => h.elim) ?_ ⟨rfl, [], Swept.start⟩
  · rintro cur bulk w ⟨-, Gs, h⟩
    exact h.length_le
  · rintro bulk w ⟨rfl, hbulk⟩
    exact hk bulk hbulk

end Cursor

/-- An empty bulk fails, and another one is still to be written. -/
theorem QueuedForAll.dropping {bulk : Bulk β} (h : QueuedForAll P u V bulk) :
    if bulk = [] then Dropped P u V (.error (.thrown emptyBulkError)) (V.toWorld P)
    else Dropping P u V bulk (V.toWorld P) := by
  obtain ⟨Gs, rfl, hn, hGs⟩ := h
  split
  · rename_i hnil
    obtain rfl := List.map_eq_nil_iff.mp hnil
    refine .inl ⟨List.eq_nil_iff_forall_not_mem.mpr fun G hG => ?_, rfl, rfl⟩
    cases (hGs G).mpr hG
  · rename_i hbulk
    refine Dropping.start (fun hnil => hbulk ?_) hn hGs
    have hGs' : Gs = [] := List.eq_nil_iff_forall_not_mem.mpr fun G hG => by
      have hmem := (hGs G).mp hG
      rw [Keyed.mem_def, hnil] at hmem
      cases hmem
    rw [hGs', List.map_nil]

theorem wp_deleteUser (hP : P.Ideal) (hS : V.Signed P) :
    Wp (Honest count) (fun r w =>
      (V.groups.elems = [] ∧ r = .error (.thrown emptyBulkError) ∧ w = V.toWorld P) ∨
      (V.groups.elems ≠ [] ∧ r = .ok () ∧ w = ((V.leaveAll P u).forget u).toWorld P))
      (deleteUser P u) (V.toWorld P) := by
  refine judged_deleteUser (A := (· = V.toWorld P)) quiet_honest sound_wp rfl ?_
  rintro _ rfl
  exact wp_sweep hP hS fun bulk hbulk =>
    ((dropSteps_alone hP).ends_finishDeletion hbulk.dropping).wp

section DeleteAll

variable {coll : Collection} {w : World β}

omit [DecidableEq β] in
theorem docs_setDocs {ds : List (Doc β)} : (w.setDocs coll ds).docs coll = ds := by cases coll <;> rfl

omit [DecidableEq β] in
theorem setDocs_setDocs {ds ds' : List (Doc β)} :
    (w.setDocs coll ds).setDocs coll ds' = w.setDocs coll ds' := by cases coll <;> rfl

/-- Some documents of the collection are left, and all of them are due to be deleted. -/
def Emptying (coll : Collection) (w : World β) (todo : Option (List ℕ)) (w' : World β) : Prop :=
  ∃ ds : List (Doc β), w' = w.setDocs coll ds ∧ (∀ d ∈ ds, (docId d).isSome) ∧
    (ds.filterMap docId).Nodup ∧ (todo.getD (firstAnswer [] ds)).Nodup ∧
    ∀ id ∈ ds.filterMap docId, id ∈ todo.getD (firstAnswer [] ds)

theorem Emptying.start (hid : ∀ d ∈ w.docs coll, (docId d).isSome)
    (hn : ((w.docs coll).filterMap docId).Nodup) : Emptying coll w none w := by
  have hall : firstAnswer [] (w.docs coll) = (w.docs coll).filterMap docId := by simp [firstAnswer]
  refine ⟨w.docs coll, by cases coll <;> rfl, hid, hn, ?_, ?_⟩
  · rwa [Option.getD_none, hall]
  · rw [Option.getD_none, hall]
    exact fun id hid => hid

theorem Emptying.next {todo : Option (List ℕ)} {w' w'' : World β}
    {r : Except BsonError (Option (List ℕ))} (h : Emptying coll w todo w')
    (hr : Honest count (.deleteNext coll [] todo) w' r w'') :
    (∃ ids, r = .ok (some ids) ∧ Emptying coll w (some ids) w'' ∧
      (w''.docs coll).length < (w'.docs coll).length) ∨
    (r = .ok none ∧ w'' = w.setDocs coll []) := by
  obtain ⟨ds, rfl, hid, hn, htn, hdue⟩ := h
  simp only [Honest, docs_setDocs, setDocs_setDocs] at hr
  rcases hr with ⟨l, d, l', id, rfl, -, hd, rfl, rfl⟩ | ⟨hp, rfl, rfl⟩
  · have hsub : (l ++ l').Sublist (l ++ d :: l') :=
      (List.Sublist.refl l).append (List.sublist_cons_self d l')
    rw [List.filterMap_append, List.filterMap_cons_some hd, List.nodup_middle,
      ← List.filterMap_append, List.nodup_cons] at hn
    refine .inl ⟨_, rfl, ⟨l ++ l', rfl, fun e he => hid e (hsub.subset he), hn.2, htn.erase _, ?_⟩, ?_⟩
    · intro id' hid'
      have hne : id' ≠ id := fun he => hn.1 (he ▸ hid')
      exact (List.mem_erase_of_ne hne).mpr (hdue id' ((hsub.filterMap _).subset hid'))
    · simp [docs_setDocs]
  · refine .inr ⟨rfl, ?_⟩
    have hnil : ds = [] := List.eq_nil_iff_forall_not_mem.mpr fun d hd => hp ?_
    · rw [hnil]
    · obtain ⟨id, hid⟩ := Option.isSome_iff_exists.mp (hid d hd)
      exact ⟨d, hd, Selector.matches_nil d, id,
        hdue id (List.mem_filterMap.mpr ⟨d, hd, hid⟩), hid⟩

theorem wp_deleteMany (coll : Collection) {w : World β} (hid : ∀ d ∈ w.docs coll, (docId d).isSome)
    (hn : ((w.docs coll).filterMap docId).Nodup) :
    Wp (Honest count) (fun r w' => r = .ok (.ok ()) ∧ w' = w.setDocs coll [])
      (deleteMany coll []) w := by
  refine sound_wp.loop_measure unrolls_wp (Emptying coll w) (fun _ w' => (w'.docs coll).length) ?_
    (.start hid hn)
  rintro todo w' hI
  refine (ends_deleteManyRound fun r w'' hr => hI.next hr).mono ?_
  rintro (e | todo' | ⟨e⟩ | ⟨⟩) w'' hr
  · exact hr.elim
  · obtain ⟨ids, rfl, ⟨ids', he, hI', hlt⟩ | ⟨he, -⟩⟩ := hr
    · cases he
      exact ⟨hI', hlt⟩
    · cases he
  · obtain ⟨ids, he, -⟩ | ⟨he, -⟩ := hr
    · cases he
    · cases he
  · obtain ⟨ids, he, -⟩ | ⟨-, rfl⟩ := hr
    · cases he
    · exact .pure ⟨rfl, rfl⟩

omit [DecidableEq β] in
theorem docs_toWorld_ids (coll : Collection) : (∀ d ∈ (V.toWorld P).docs coll, (docId d).isSome) ∧
    (((V.toWorld P).docs coll).filterMap docId).Nodup := by
  cases coll with
  | users =>
    refine ⟨fun d hd => ?_, ?_⟩
    · obtain ⟨a, -, rfl⟩ := List.mem_map.mp hd
      rfl
    · simpa [World.docs, Vault.toWorld, List.filterMap_map, Function.comp_def] using V.account_ids
  | groups =>
    refine ⟨fun d hd => ?_, ?_⟩
    · obtain ⟨G, -, rfl⟩ := List.mem_map.mp hd
      rfl
    · simpa [World.docs, Vault.toWorld, List.filterMap_map, Function.comp_def] using V.group_ids

/-- The users go first, and the groups stay behind. -/
theorem wp_deleteMany_users : Wp (Honest count) (fun r w => r = .ok (.ok ()) ∧
    w = (V.sub [] _ (List.nil_sublist _) (List.Sublist.refl _)).toWorld P)
    (deleteMany .users []) (V.toWorld P) :=
  wp_deleteMany .users (w := V.toWorld P) (docs_toWorld_ids .users).1 (docs_toWorld_ids .users).2

theorem wp_deleteAllData_any {w : World β} (hid : ∀ coll, ∀ d ∈ w.docs coll, (docId d).isSome)
    (hn : ∀ coll, ((w.docs coll).filterMap docId).Nodup) :
    Wp (Honest count) (fun r w' => r = .ok () ∧ w' = ⟨[], [], w.nextId⟩) deleteAllData w := by
  simp only [deleteAllData, create, destroy, Prog.bind_eq, Prog.request_bind]
  refine wp_silent (by trivial) fun _ => ?_
  apply Wp.bind
  apply (wp_deleteMany .users (hid .users) (hn .users)).mono
  rintro r w' ⟨rfl, rfl⟩
  simp only [andThen_ok, throwUnless, Prog.pure_bind]
  apply Wp.bind
  apply (wp_deleteMany .groups (w := World.setDocs _ .users []) (hid .groups) (hn .groups)).mono
  rintro r w' ⟨rfl, rfl⟩
  simp only [andThen_ok, Prog.pure_bind]
  exact wp_silent (by trivial) fun _ => .pure ⟨rfl, rfl⟩

theorem wp_deleteAllData :
    Wp (Honest count) (fun r w => r = .ok () ∧
      w = (V.sub [] [] (List.nil_sublist _) (List.nil_sublist _)).toWorld P)
      deleteAllData (V.toWorld P) :=
  wp_deleteAllData_any (fun coll => (docs_toWorld_ids coll).1) fun coll => (docs_toWorld_ids coll).2

end DeleteAll

end MongoSgx
