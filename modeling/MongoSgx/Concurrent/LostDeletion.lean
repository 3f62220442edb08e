import MongoSgx.Concurrent.Tracking
import MongoSgx.Interaction.Pool
import MongoSgx.Interaction.Reach
import MongoSgx.Sequential.Directory

/-! # Deletions among calls for other users

A deletion that returns has removed its user from every group, in every run where
each of its updates finds the document as it was read. Nothing in the code makes
sure of that: an update that finds no document is dropped without notice, and a
change of another member between the read and the write is enough.
-/

namespace MongoSgx

open Bson Interaction

variable {β : Type} {P : Primitives β} {V W : Vault β} {u g : List β}

section Contracts

def VaultStore (P : Primitives β) (w : World β) : Prop := ∃ V : Vault β, w = V.toWorld P

/-- A deletion relies on nobody enrolling its user. -/
def deleterContract (P : Primitives β) (u : List β) : Contract (World β) where
  rely s t := VaultStore P s →
    VaultStore P t ∧ ∀ id g, Enrolled P t u id g → Enrolled P s u id g
  guar s t := VaultStore P s → VaultStore P t
  rely_refl _ h := ⟨h, fun _ _ he => he⟩
  rely_trans h h' hs := ⟨(h' (h hs).1).1, fun id g he => (h hs).2 id g ((h' (h hs).1).2 id g he)⟩
  guar_refl _ h := h

/-- A call for another user does not enroll the one that is deleted. -/
def bystanderContract (P : Primitives β) (u : List β) : Contract (World β) where
  rely s t := VaultStore P s → VaultStore P t
  guar s t := VaultStore P s →
    VaultStore P t ∧ ∀ id g, Enrolled P t u id g → Enrolled P s u id g
  rely_refl _ h := h
  rely_trans h h' hs := h' (h hs)
  guar_refl _ h := ⟨h, fun _ _ he => he⟩

theorem standing_bystander : Standing P (bystanderContract P u) (fun _ => True) where
  stable := by
    rintro V t - ht
    obtain ⟨W, hW⟩ := ht ⟨V, rfl⟩
    exact ⟨W, hW, trivial⟩

theorem guar_bystander (hP : P.Ideal) (h : NoNew u V W) :
    (bystanderContract P u).guar (V.toWorld P) (W.toWorld P) :=
  fun _ => ⟨⟨W, rfl⟩, (noNew_iff hP).mpr h⟩

variable {ι : Type} [DecidableEq ι] {i₀ : ι}

def deletionContract (P : Primitives β) (u : List β) (i₀ i : ι) : Contract (World β) :=
  if i = i₀ then deleterContract P u else bystanderContract P u

/-- What a call promises when it returns: the deletion has removed its user everywhere. -/
def DeletionDone (P : Primitives β) (u : List β) (i₀ i : ι) (r : Except Stop Unit)
    (w : World β) : Prop :=
  i = i₀ → r = .ok () → VaultStore P w ∧ ∀ id g, ¬ Enrolled P w u id g

theorem deletionContract_self : deletionContract P u i₀ i₀ = deleterContract P u := if_pos rfl

theorem deletionContract_of_ne {i : ι} (hi : i ≠ i₀) :
    deletionContract P u i₀ i = bystanderContract P u := if_neg hi

theorem inv_deletionContract {i : ι} {s t : World β} (hg : (deletionContract P u i₀ i).guar s t)
    (hs : VaultStore P s) : VaultStore P t := by
  by_cases hi : i = i₀
  · rw [hi, deletionContract_self] at hg
    exact hg hs
  · rw [deletionContract_of_ne hi] at hg
    exact (hg hs).1

theorem deletionContract_noninterference {i j : ι} {s t : World β} (hij : i ≠ j)
    (hg : (deletionContract P u i₀ i).guar s t) : (deletionContract P u i₀ j).rely s t := by
  by_cases hj : j = i₀
  · subst hj
    rw [deletionContract_of_ne hij] at hg
    rw [deletionContract_self]
    exact hg
  · rw [deletionContract_of_ne hj]
    exact inv_deletionContract hg

end Contracts

/-- The calls that may run beside the deletion of a user: those that concern other users only. -/
def Op.ConcernsOthers (u : List β) : Op β → Prop
  | .createGroup _ v | .addUserToGroup _ v | .removeUserFromGroup _ v => v ≠ u
  | _ => False

variable [DecidableEq β] {count : ℤ → Scalar}

theorem safe_bystander (hP : P.Ideal) {o : Op β} (ho : o.ConcernsOthers u) :
    Safe (Found count) (bystanderContract P u) (fun _ _ => True) (o.prog P) (V.toWorld P) := by
  have hA : Standing P (bystanderContract P u) (fun _ => True) := standing_bystander
  have hedit : ∀ (g : List β) (c : Change β), (∀ m, c = .join m → m.user ≠ u) →
      Edits P (bystanderContract P u) (fun _ => True) g c (fun _ => True) := fun g c hc =>
    { standing := hA
      seen := fun _ _ _ _ => trivial
      write := fun _ _ _ _ _ _ _ _ _ _ => ⟨guar_bystander hP (noNew_modify hc), trivial⟩ }
  cases o with
  | createGroup g v =>
    refine safe_createGroup (B := fun _ _ => True) hP found_honest hA (fun _ _ _ _ => trivial)
      ?_ (fun m hm => hedit g _ ?_) trivial
    · rintro V iv m rfl - hg
      exact guar_bystander hP (noNew_establish hg ho)
    · rintro _ ⟨⟩
      exact hm ▸ ho
  | addUserToGroup g v =>
    refine safe_addUserToGroup (B := fun _ _ => True) hP found_honest hA (fun _ _ _ _ => trivial)
      (fun m hm => hedit g _ ?_) trivial
    rintro _ ⟨⟩
    exact hm ▸ ho
  | removeUserFromGroup g v =>
    exact safe_removeUserFromGroup hP found_honest (hedit g _ (by nofun)) trivial
  | createUser => cases ho
  | deleteUser => cases ho
  | deleteAllData => cases ho

theorem safe_deleter (hP : P.Ideal) :
    Safe (Found count) (deleterContract P u)
      (fun r t => r = .ok () → VaultStore P t ∧ ∀ id g, ¬ Enrolled P t u id g)
      (deleteUser P u) (V.toWorld P) := by
  have hsweep : Sweeps P (Found count) (deleterContract P u)
      u (fun cur Gs V => True ∧ OverGroups cur ∧ Tracked u cur Gs V)
      (fun Gs V => True ∧ Queued u Gs V) := by
    refine sweeps_tracked ?_ (fun V g s _ => ⟨fun _ => ⟨_, rfl⟩, trivial⟩)
      (fun V _ _ => ⟨fun _ => ⟨_, rfl⟩, trivial⟩)
    intro V t _ ht
    obtain ⟨⟨W, rfl⟩, hnew⟩ := ht ⟨V, rfl⟩
    exact ⟨W, rfl, trivial, (noNew_iff hP).mp hnew⟩
  refine (hsweep.safe_deleteUser hP found_honest ⟨trivial, ⟨rfl, rfl, rfl⟩, ?_⟩).mono ?_
  · exact fun G hG _ => .inl (List.mem_map_of_mem hG)
  · rintro r t h hr
    obtain ⟨W, rfl, -, hq⟩ := h hr
    refine ⟨⟨W, rfl⟩, fun id g he => ?_⟩
    obtain ⟨G, hG, -, -, hu⟩ := (enrolled_iff hP).mp he
    obtain ⟨H, hH, -⟩ := hq G hG hu
    cases hH

section OneGroup

variable {G : Group β} {cur : Cursor β}

structure PastGroup (G : Group β) (cur : Cursor β) : Prop where
  overGroups : OverGroups cur
  todo : cur.todo = some []
  seen : cur.seen = [G.id]

/-- A deletion can read the only group and wait before its cursor ends. -/
theorem steps_deleteUser {S : Type} {E : Env (Call β) Reply S} {s : S} (hP : P.Ideal)
    (hsilent : ∀ c r, c.Silent → E c s r s)
    (hread : ∀ cur r, OverGroups cur → cur.readPrefs = some .primaryPreferred →
      CursorNext (V.toWorld P).groups cur r → E (.cursorNext cur) s r s)
    (hV : V.groups.elems = [G]) (hG : G.Signed P) :
    ∃ cur, PastGroup G cur ∧ (deleteUser P u).Steps E s
      (.loop (sweepRound P u) (cur, [sweepOp P u G]) (finishDeletion P u)) s := by
  have hmem : G.toDoc P ∈ (V.toWorld P).groups := by simp [Vault.toWorld, hV]
  have hids : firstAnswer [] (V.toWorld P).groups = [G.id] := by
    simp [firstAnswer, Vault.toWorld, hV]
  refine ⟨⟨.groups, [], none, some .primaryPreferred, some [], [G.id], none⟩,
    ⟨⟨rfl, rfl, rfl⟩, rfl, rfl⟩, ?_⟩
  simp only [deleteUser_eq, create, destroy, Prog.bind_eq, Prog.request_bind]
  iterate 6 refine .head (.call (hsilent _ () trivial)) ?_
  refine .head .unroll ?_
  simp only [Prog.unroll, sweepRound, cursorNext, Prog.bind_eq, Prog.request_bind, Prog.call_bind]
  refine .head (.call (hread _ (some (G.toDoc P), _) ⟨rfl, rfl, rfl⟩ rfl (.inl ⟨G.toDoc P, G.id,
    hmem, Selector.matches_nil _, rfl, .inr (List.not_mem_nil), rfl⟩))) ?_
  simp only [read_group_encname, read_some, Prog.pure_bind, decryptData_encrypt hP, printf,
    Prog.request_bind, Prog.call_bind, validateGroupSignature_toDoc, hG, decide_true,
    Bool.not_true, Bool.false_eq_true, ↓reduceIte, computeGroupSignature_drop hP G u G.signature,
    create, destroy, Prog.pure_eq]
  iterate 3 refine .head (.call (hsilent _ () trivial)) ?_
  have htodo : ([G.id] : List ℕ).erase G.id = [] := by simp
  simp only [findWithOpts, hids, Option.getD_none, htodo, List.nil_append]
  exact .refl _ _

theorem PastGroup.next (h : PastGroup G cur) (hW : ∀ H ∈ W.groups, H.id = G.id)
    {r : Option (Doc β) × Cursor β} {w : World β}
    (hr : Honest count (.cursorNext cur) (W.toWorld P) r w) : r.1 = none ∧ w = W.toWorld P := by
  obtain ⟨rfl, ⟨H, hH, hnew, -⟩ | ⟨-, hnone⟩⟩ := honest_nextGroup h.overGroups hr
  · unfold due at hnew
    rw [h.todo, h.seen, Option.getD_some, hW H hH] at hnew
    simp at hnew
  · exact ⟨hnone, rfl⟩

theorem sweepSteps_past (hW : ∀ H ∈ W.groups, H.id = G.id) :
    SweepSteps (Honest count).rule P u
      (fun cur bulk w => w = W.toWorld P ∧ PastGroup G cur ∧ bulk = [sweepOp P u G])
      (fun _ _ _ _ => False) (fun bulk w => w = W.toWorld P ∧ bulk = [sweepOp P u G])
      (fun _ _ => False) where
  quiet_round _ _ := quiet_honest
  quiet_read _ _ _ := quiet_honest
  next := by
    rintro cur bulk _ ⟨rfl, h, rfl⟩ ⟨d, cur'⟩ w hr
    obtain ⟨rfl, rfl⟩ := h.next hW hr
    exact ⟨rfl, rfl⟩
  stop _ _ _ _ _ h := h.elim
  queue _ _ _ _ _ h := h.elim

theorem dropSteps_missed (hP : P.Ideal) (hW : ∀ H ∈ W.groups, H.toDoc P ≠ G.toDoc P) :
    DropSteps (Honest count).rule P u
      (fun bulk w => w = W.toWorld P ∧ ∀ op ∈ bulk, op = sweepOp P u G)
      (fun r w => r = .ok () ∧ w = (W.forget u).toWorld P) where
  quiet_write _ := quiet_honest
  quiet_done _ := quiet_honest
  write := by
    rintro sel upd bulk _ ⟨rfl, hall⟩ r w hr
    obtain ⟨rfl, rfl⟩ := Prod.mk.inj (hall _ (List.mem_cons_self ..))
    obtain ⟨rfl, ⟨rfl, -⟩ | ⟨-, H, hH, he⟩⟩ := honest_bulkEdit hP hr
    · exact ⟨rfl, fun op hop => hall op (List.mem_cons_of_mem _ hop)⟩
    · exact absurd he (hW H hH)
  delete := by
    rintro _ ⟨rfl, -⟩ r w hr
    obtain ⟨rfl, rfl⟩ := honest_forget hP hr
    exact ⟨rfl, rfl⟩

/-- The update of a group that has changed since it was read is dropped without notice. -/
theorem wp_deleteUser_missed (count : ℤ → Scalar) (hP : P.Ideal) (h : PastGroup G cur)
    (hW : ∀ H ∈ W.groups, H.id = G.id ∧ H.toDoc P ≠ G.toDoc P) :
    Wp (Honest count) (fun r w => r = .ok () ∧ w = (W.forget u).toWorld P)
      (.loop (sweepRound P u) (cur, [sweepOp P u G]) (finishDeletion P u)) (W.toWorld P) := by
  refine .loop (.bind ?_)
  apply ((sweepSteps_past fun H hH => (hW H hH).1).ends_sweepRound ⟨rfl, h, rfl⟩).wp.mono
  rintro (e | ⟨cur', bulk⟩ | bulk) w hr
  · exact hr.elim
  · obtain ⟨hlen, -, -, rfl⟩ := hr
    cases hlen
  · obtain ⟨rfl, rfl⟩ := hr
    refine ((dropSteps_missed hP fun H hH => (hW H hH).2).ends_finishDeletion ?_).wp
    simp

theorem evals_deleteUser_found (count : ℤ → Scalar) (hP : P.Ideal) (hV : V.groups.elems = [G])
    (hG : G.Signed P) :
    ∃ w, (deleteUser P u).Evals (Found count) (V.toWorld P) (.ok ()) w := by
  have hmem : ∀ H, H ∈ V.groups ↔ H = G := fun H => by simp [Keyed.mem_def, hV]
  obtain ⟨cur, hcur, hs⟩ : ∃ cur, PastGroup G cur ∧
      (deleteUser P u).Steps (Found count) (V.toWorld P) _ _ :=
    steps_deleteUser hP (fun c r hc => ⟨honest_of_silent hc r _, by cases c <;> trivial⟩)
      (fun cur r hcur _ h => ⟨⟨rfl, hcur.1 ▸ h⟩, trivial⟩) hV hG
  obtain ⟨⟨d, cur'⟩, w, hr⟩ := honest_total count (.cursorNext cur) (V.toWorld P)
  obtain ⟨rfl, rfl⟩ := hcur.next (fun H hH => by rw [(hmem H).mp hH]) hr
  obtain ⟨r, w₁, hr₁⟩ := honest_total count
    (.bulkUpdateOne .groups (sweepOp P u G).1 (sweepOp P u G).2) (V.toWorld P)
  obtain ⟨rfl, -⟩ := honest_bulkEdit hP hr₁
  obtain ⟨r, w₂, hr₂⟩ := honest_total count
    (.deleteOne .users (nameSelector (hashName P u none))) w₁
  obtain ⟨rfl, hforget⟩ := hr₂
  refine ⟨w₂, hs.trans (.head .unroll ?_)⟩
  simp only [Prog.unroll, sweepRound, cursorNext, Prog.bind_eq, Prog.request_bind, Prog.call_bind]
  refine .head (.call ⟨hr, trivial⟩) ?_
  simp only [Prog.pure_eq, Prog.pure_bind, finishDeletion, bulkExecute, List.isEmpty_cons,
    Bool.false_eq_true, ↓reduceIte, bulkRun, bulkUpdateOne, Prog.bind_eq, Prog.request_bind,
    Prog.call_bind, throwUnless, create, destroy, deleteOne]
  have hfinds : BulkFinds (.bulkUpdateOne .groups (sweepOp P u G).1 (sweepOp P u G).2)
      (V.toWorld P) :=
    ⟨_, List.mem_map_of_mem ((hmem G).mpr rfl), matches_ofDoc.mpr rfl⟩
  refine .head (.call ⟨hr₁, hfinds⟩) (.head (.call (r := ()) ⟨rfl, trivial⟩) ?_)
  refine .head (.call ⟨⟨rfl, hforget⟩, trivial⟩) (.head (.call (r := ()) ⟨rfl, trivial⟩) ?_)
  exact .refl _ _

theorem Group.toDoc_leave_ne (hP : P.Ideal) {s : Hashed β} (hu : u ∈ G.users) :
    (G.change (.leave u) s).toDoc P ≠ G.toDoc P := by
  intro he
  obtain ⟨-, hname, hentries, -⟩ := Group.eq_of_toDoc_eq hP he
  have husers := Group.users_eq_of_entries_eq hP hname hentries
  rw [Group.users_leave] at husers
  rw [← husers] at hu
  simp at hu

theorem changed_removal (hP : P.Ideal) (hV : V.groups.elems = [G]) (hg : G.name = g)
    (hu : u ∈ G.users) : ∀ H ∈ (V.update P g (.leave u)).groups,
      H.id = G.id ∧ H.toDoc P ≠ G.toDoc P := by
  intro H hH
  obtain ⟨G', hG', rfl⟩ := Vault.mem_groups_update.mp hH
  rw [Keyed.mem_def, hV, List.mem_singleton] at hG'
  subst hG'
  rw [if_pos hg]
  exact ⟨Group.change_id, Group.toDoc_leave_ne hP hu⟩

/-- A deletion returns and leaves its user in the group when another member is removed between
its read and its write. -/
theorem exists_lost_deletion {ι : Type} [DecidableEq ι] (hP : P.Ideal) (count : ℤ → Scalar)
    (ops : ι → Op β) {i j : ι} {v : List β} (hi : ops i = .deleteUser u)
    (hj : ops j = .removeUserFromGroup g v) (hS : V.Signed P) (hV : V.groups.elems = [G])
    (hg : G.name = g) (hu : u ∈ G.users) (hv : v ∈ G.users) (huv : u ≠ v) :
    ∃ (evs : List (Event ι (Call β))) (cfg : Config ι (Call β) Reply Stop Unit (World β)),
      Run (Honest count) (fun i => (ops i).prog P) (fun _ _ => True) (.start (V.toWorld P)) evs
        cfg ∧
      cfg.status i = .finished (.ok ()) ∧
      ∃ d₀ ∈ (V.toWorld P).groups, ∃ d ∈ cfg.world.groups, docId d = docId d₀ ∧
        ∃ v ∈ usersArray d, entryName v = pseudonymIn P u d := by
  let prog : ι → Enclave β Unit := fun i => (ops i).prog P
  have hpi : prog i = deleteUser P u := congrArg (Op.prog P) hi
  have hpj : prog j = removeUserFromGroup P g v := congrArg (Op.prog P) hj
  have hij : i ≠ j := by
    rintro rfl
    rw [hi] at hj
    cases hj
  have hG : G ∈ V.groups := by simp [Keyed.mem_def, hV]
  -- the deletion reads the group
  obtain ⟨cur, hcur, hread⟩ : ∃ cur, PastGroup G cur ∧
      (deleteUser P u).Steps (Honest count) (V.toWorld P) _ _ :=
    steps_deleteUser hP (fun c r hc => honest_of_silent hc r _)
      (fun cur r hcur _ h => ⟨rfl, hcur.1 ▸ h⟩) hV (hS G hG)
  have hchanged := changed_removal hP hV hg hv
  -- the removal runs, and the deletion goes on with the group as it was
  have hrest : Wp (Honest count) (fun r w => Wp (Honest count)
      (fun r' w' => r' = .ok () ∧ w' = ((V.update P g (.leave v)).forget u).toWorld P)
      (.loop (sweepRound P u) (cur, [sweepOp P u G]) (finishDeletion P u)) w)
      (removeUserFromGroup P g v) (V.toWorld P) := by
    apply (wp_removeUserFromGroup hP hS).mono
    rintro _ _ ⟨-, rfl⟩
    exact wp_deleteUser_missed count hP hcur hchanged
  rw [← hpi] at hread
  rw [← hpj] at hrest
  obtain ⟨evs, cfg, _, _, hrun, hret, -, ⟨rfl, hw⟩, -⟩ :=
    hrest.exists_run_between (.start (V.toWorld P)) (honest_total count) hij rfl rfl hread
  refine ⟨evs, cfg, hrun, hret, G.toDoc P, List.mem_map_of_mem hG,
    (G.next P (.leave v)).toDoc P, ?_, congrArg some Group.change_id, ?_⟩
  · rw [hw]
    exact List.mem_map_of_mem (Vault.mem_groups_update.mpr ⟨G, hG, if_pos hg⟩)
  · apply (exists_entry_iff hP).mpr
    unfold Group.next
    rw [Group.users_leave, List.mem_filter]
    exact ⟨hu, decide_eq_true huv⟩

theorem recordSteps_finding : RecordSteps ((Honest count).sparing fun c => ∀ w, BulkFinds c w) P u
    (fun _ => True) (fun _ _ _ => True) (fun _ _ => True) where
  quiet_start _ _ hc _ := ⟨hc.bulkFinds, fun _ _ _ => trivial⟩
  quiet_read _ _ _ _ hc _ := ⟨hc.bulkFinds, fun _ _ _ => trivial⟩
  find := by
    refine fun w _ => ⟨fun _ => trivial, ?_⟩
    rintro ⟨_ | d, cur⟩ _ - <;> trivial
  stop _ _ _ _ _ _ := trivial

theorem editSteps_finding {edit : GroupEdit β} :
    EditSteps ((Honest count).sparing fun c => ∀ w, BulkFinds c w) P edit
    (fun _ _ => True) (fun _ _ _ => True) (fun _ _ => True) where
  quiet_start _ _ _ hc _ := ⟨hc.bulkFinds, fun _ _ _ => trivial⟩
  quiet_read _ _ _ _ hc _ := ⟨hc.bulkFinds, fun _ _ _ => trivial⟩
  quiet_done _ _ _ hc _ := ⟨hc.bulkFinds, fun _ _ _ => trivial⟩
  find := by
    refine fun n w _ => ⟨fun _ => trivial, ?_⟩
    rintro ⟨_ | d, cur⟩ _ - <;> trivial
  stop _ _ _ _ _ _ := trivial
  send := by
    refine fun n d w sel upd _ _ => ⟨fun _ => trivial, ?_⟩
    rintro (e | reply) _ -
    · simp [Answered]
    · simp [Answered]
  exhausted _ _ := trivial

/-- A deletion can run while another user is being added to the only group: the key has been
fetched, and the entry is written behind the deletion. -/
theorem exists_run_beside_addition {ι : Type} [DecidableEq ι] (hP : P.Ideal) (count : ℤ → Scalar)
    (ops : ι → Op β) {i j : ι} {v : List β}
    {ok : Config ι (Call β) Reply Stop Unit (World β) → Event ι (Call β) → Prop}
    (ha : ∀ i, Admitted (Found count) (Honest count) ok i) (hok : ∀ cfg i, ok cfg (.invoke i))
    (hi : ops i = .addUserToGroup g v) (hj : ops j = .deleteUser u) (hS : V.Signed P)
    (hV : V.groups.elems = [G]) (hv : v ∈ V.accounts.keys) :
    ∃ (evs : List (Event ι (Call β))) (cfg : Config ι (Call β) Reply Stop Unit (World β)),
      Run (Honest count) (fun i => (ops i).prog P) ok (.start (V.toWorld P)) evs cfg ∧
      cfg.status i = .finished (.ok ()) ∧ cfg.status j = .finished (.ok ()) ∧ Within i j evs := by
  let prog : ι → Enclave β Unit := fun i => (ops i).prog P
  have hpi : prog i = addUserToGroup P g v := congrArg (Op.prog P) hi
  have hpj : prog j = deleteUser P u := congrArg (Op.prog P) hj
  have hij : i ≠ j := by
    rintro rfl
    rw [hi] at hj
    cases hj
  have hfound : ∀ (c : Call β) w r w', (∀ w, BulkFinds c w) → Honest count c w r w' →
      Found count c w r w' := fun c w r w' hc h => ⟨h, hc w⟩
  have hG : G ∈ V.groups := by simp [Keyed.mem_def, hV]
  -- the addition fetches the key
  obtain ⟨r, _, hkey, rfl, ⟨a, -, -, iv, rfl⟩ | ⟨hno, -⟩⟩ :=
    (wp_reencryptUserKey (u := v) (V := V) hP).exists_evals (honest_total count)
  rotate_left
  · exact absurd hv hno
  have hread : (addUserToGroup P g v).Steps (Found count) (V.toWorld P) _ _ :=
    ((recordSteps_finding.ends trivial).evals_of_sparing hfound hkey).steps_bind _
  -- the deletion runs
  obtain ⟨w, hdel⟩ := evals_deleteUser_found (u := u) count hP hV (hS G hG)
  have hdel' : (deleteUser P u).Evals (Honest count) (V.toWorld P) (.ok ()) w := by
    obtain ⟨_, h, rfl⟩ := hdel.simulate (fun c s r t _ h hst => ⟨t, hst ▸ h.1, rfl⟩) rfl
    exact h
  obtain ⟨hnil, -⟩ | ⟨-, -, rfl⟩ := (wp_deleteUser hP hS).of_evals hdel'
  · rw [hV] at hnil
    cases hnil
  -- the addition goes on
  have hS' : ((V.leaveAll P u).forget u).Signed P := hS.leaveAll.sub
  obtain ⟨_, _, hadd, rfl, -⟩ :=
    (wp_addUserToGroupWithKey (g := g) hP hS' ⟨v, a.key, iv⟩).exists_evals (honest_total count)
  have hrest := (editSteps_finding.ends trivial).evals_of_sparing hfound hadd
  rw [← hpi] at hread
  rw [← hpj] at hdel
  obtain ⟨evs, cfg, hrun, hi', hj', -, hwithin⟩ := exists_run_between (.start (V.toWorld P)) ha hij
    rfl rfl (hok _ i) (hok _ j) hread hdel hrest
  exact ⟨evs, cfg, hrun, hi', hj', hwithin⟩

theorem exists_group_session (hP : P.Ideal) (count : ℤ → Scalar) (os : List (Op β))
    {us : List (List β)} (h : (runMachine Directory.step Directory.empty os).2.groups.elems =
      [(g, us)]) : ∃ hist V G,
    Session (Honest count) (Op.prog P) World.empty hist (Vault.toWorld P V) ∧
    hist.map Prod.fst = os ∧ V.Signed P ∧ V.Coherent ∧
    V.accounts.keys = (runMachine Directory.step Directory.empty os).2.users.keys ∧
    V.groups.elems = [G] ∧ G.name = g ∧ G.users = us := by
  obtain ⟨hist, _, hs, hops, V, rfl, hS, hC, hD⟩ := exists_session hP count os
  rw [← hD] at h ⊢
  obtain ⟨G, l, hV, hG, hl⟩ := List.map_eq_cons_iff.mp h
  obtain rfl := List.map_eq_nil_iff.mp hl
  exact ⟨hist, V, G, hs, hops, hS, hC, Vault.directory_users_keys.symm, hV, congrArg Prod.fst hG,
    congrArg Prod.snd hG⟩

end OneGroup

/-- The runs in which every write of a bulk finds its document. -/
def AllFind {ι : Type} (cfg : Config ι (Call β) Reply Stop Unit (World β)) :
    Event ι (Call β) → Prop
  | .call _ c => BulkFinds c cfg.world
  | _ => True

theorem admitted_found {ι : Type} {i : ι} : Admitted (Found count) (Honest count)
    (AllFind : Config ι (Call β) Reply Stop Unit (World β) → _) i :=
  ⟨fun h => h, trivial, trivial⟩

section Calls

variable {ι : Type} [DecidableEq ι] {ops : ι → Op β} {i₀ : ι}

theorem composable_deletion (hP : P.Ideal) (hi₀ : ops i₀ = .deleteUser u)
    (hops : ∀ i, i ≠ i₀ → (ops i).ConcernsOthers u) :
    Composable (Honest count) (Found count) (fun i => (ops i).prog P) AllFind (VaultStore P)
      (deletionContract P u i₀) (DeletionDone P u i₀) (fun _ _ => True) where
  env hok hE := ⟨hE, hok⟩
  start := by
    rintro i _ ⟨V, rfl⟩
    by_cases hi : i = i₀
    · subst hi
      rw [deletionContract_self, hi₀]
      exact (safe_deleter hP).mono fun _ _ h _ => h
    · rw [deletionContract_of_ne hi]
      exact (safe_bystander hP (hops i hi)).mono fun _ _ _ h => absurd h hi
  admits _ _ := ⟨trivial, trivial⟩
  inv := inv_deletionContract
  noninterference hij _ _ := deletionContract_noninterference hij
  result := by
    rintro i _ r s t hij hs hg hQ rfl hr
    rw [deletionContract_of_ne hij] at hg
    obtain ⟨-, hno⟩ := hQ rfl hr
    exact ⟨(hg hs).1, fun id g he => hno id g ((hg hs).2 id g he)⟩

end Calls

/-- In every run in which each update of a bulk finds its document as it was read, a deletion of
`u` that has returned among calls for other users leaves `u` in no group. -/
theorem run_deletion_kept {ι : Type} [DecidableEq ι] (hP : P.Ideal) (count : ℤ → Scalar)
    (ops : ι → Op β) (i₀ : ι) (hi₀ : ops i₀ = .deleteUser u)
    (hops : ∀ i, i ≠ i₀ → (ops i).ConcernsOthers u) (V : Vault β)
    {evs : List (Event ι (Call β))} {cfg : Config ι (Call β) Reply Stop Unit (World β)}
    (hr : Run (Honest count) (fun i => (ops i).prog P) AllFind (.start (V.toWorld P)) evs cfg)
    (hret : cfg.status i₀ = .finished (.ok ())) :
    ∀ d ∈ cfg.world.groups, ∀ v ∈ usersArray d, entryName v ≠ pseudonymIn P u d := by
  have hsafe := (hr.poolSafe (composable_deletion hP hi₀ hops) (.start ⟨V, rfl⟩)).safe i₀
  rw [hret] at hsafe
  obtain ⟨⟨W, hW⟩, hno⟩ := hsafe rfl rfl
  rw [hW] at hno ⊢
  intro d hd v hv he
  obtain ⟨G, hG, rfl⟩ := List.mem_map.mp hd
  have hu := (exists_entry_iff hP).mp ⟨v, hv, he⟩
  exact hno G.id G.name ((enrolled_iff hP).mpr ⟨G, hG, rfl, rfl, hu⟩)

def shareOps : List (Op ℕ) :=
  [.createUser [1] (.replicate 32 7), .createUser [2] (.replicate 32 8), .createGroup [5] [1],
    .addUserToGroup [5] [2]]

theorem shareOps_groups :
    (runMachine Directory.step Directory.empty shareOps).2.groups.elems = [([5], [[1], [2]])] := rfl

def raceOps : Bool → Op ℕ
  | false => .deleteUser [1]
  | true => .removeUserFromGroup [5] [2]

def besideOps : Bool → Op ℕ
  | false => .deleteUser [1]
  | true => .addUserToGroup [5] [2]

/-- The deletion runs between the two halves of the addition. -/
theorem run_deletion_kept_sample : ∃ (V : Vault ℕ) (evs : List (Event Bool (Call ℕ)))
    (cfg : Config Bool (Call ℕ) Reply Stop Unit (World ℕ)),
    Run (Honest .int64) (fun i => (besideOps i).prog Primitives.nat) AllFind
      (.start (V.toWorld Primitives.nat)) evs cfg ∧
    (∀ i, cfg.status i = .finished (.ok ())) ∧ Within true false evs ∧
    (∃ d ∈ (V.toWorld Primitives.nat).groups, ∃ v ∈ usersArray d,
      entryName v = pseudonymIn Primitives.nat [1] d) ∧
    ∀ d ∈ cfg.world.groups, ∀ v ∈ usersArray d,
      entryName v ≠ pseudonymIn Primitives.nat [1] d := by
  have hP := Primitives.nat_ideal
  obtain ⟨-, V, G, -, -, hS, -, hkeys, hV, -, hu⟩ := exists_group_session (g := [5]) hP .int64
    [.createUser [1] (.replicate 32 7), .createUser [2] (.replicate 32 8), .createGroup [5] [1]] rfl
  have hG : G ∈ V.groups := by simp [Keyed.mem_def, hV]
  have hv : [2] ∈ V.accounts.keys := by
    rw [hkeys]
    decide
  obtain ⟨evs, cfg, hr, hadd, hdel, hwithin⟩ := exists_run_beside_addition hP .int64
    besideOps (i := true) (j := false) (fun _ => admitted_found) (fun _ _ => trivial) rfl rfl hS hV hv
  have hops : ∀ i, i ≠ false → (besideOps i).ConcernsOthers [1] := by
    rintro (_ | _) hi
    · exact absurd rfl hi
    · exact (by decide : ([2] : List ℕ) ≠ [1])
  refine ⟨V, evs, cfg, hr, ?_, hwithin, ⟨_, List.mem_map_of_mem hG, ?_⟩, ?_⟩
  · rintro (_ | _)
    · exact hdel
    · exact hadd
  · exact (exists_entry_iff hP).mpr (by simp [hu])
  · exact run_deletion_kept hP .int64 besideOps false rfl hops V hr hdel

/-- The removal falls between the read and the write of the deletion, which returns and leaves
the user in the group. -/
theorem run_deletion_lost : ∃ hist w,
    Session (Honest .int64) (Op.prog Primitives.nat) World.empty hist w ∧
    hist.map Prod.fst = shareOps ∧
    ∃ (evs : List (Event Bool (Call ℕ))) (cfg : Config Bool (Call ℕ) Reply Stop Unit (World ℕ)),
      Run (Honest .int64) (fun i => (raceOps i).prog Primitives.nat) (fun _ _ => True)
        (.start w) evs cfg ∧
      cfg.status false = .finished (.ok ()) ∧
      ∃ d₀ ∈ w.groups, ∃ d ∈ cfg.world.groups, docId d = docId d₀ ∧
        ∃ v ∈ usersArray d, entryName v = pseudonymIn Primitives.nat [1] d := by
  obtain ⟨hist, V, G, h, hops, hS, -, -, hV, hg, hu⟩ := exists_group_session
    Primitives.nat_ideal .int64 shareOps shareOps_groups
  obtain ⟨evs, cfg, hr, hret, hlost⟩ := exists_lost_deletion Primitives.nat_ideal .int64 raceOps
    (i := false) (j := true) rfl rfl hS hV hg (by simp [hu]) (by simp [hu]) (by decide)
  exact ⟨hist, _, h, hops, evs, cfg, hr, hret, hlost⟩

end MongoSgx
