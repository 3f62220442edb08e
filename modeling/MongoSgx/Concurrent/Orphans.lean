import MongoSgx.Concurrent.LostDeletion

/-! # Members and their records

Nothing in the database ties the entries of the groups to the records of the
users. An entry without a record can come about when a user is added and deleted
at the same time: the key is read before the record goes and the entry is written
after the groups have been swept. As long as this does not happen, and every
update of a deletion finds its document as it was read, every member has a record
with the same key.
-/

namespace MongoSgx

open Bson Interaction

variable {β : Type} {P : Primitives β} {V W : Vault β} {u v g key : List β} {o : Op β}

section Documents

/-- Every entry of every group belongs to a user who has a record, and the keys of the entry and
of the record decrypt to the same plaintext. -/
def NoOrphans (P : Primitives β) (w : World β) : Prop :=
  ∀ d ∈ w.groups, ∀ v ∈ usersArray d, ∃ u, entryName v = pseudonymIn P u d ∧
    ∃ a ∈ w.users, Doc.get? a "name" = some (.binary (hashName P u none).toList) ∧
      ∃ c c' key, entryKey v = some (.binary c) ∧ Doc.get? a "key" = some (.binary c') ∧
        P.decryptAesgcm c = some key ∧ P.decryptAesgcm c' = some key

theorem Vault.Coherent.noOrphans (hP : P.Ideal) (h : V.Coherent) : NoOrphans P (V.toWorld P) := by
  intro d hd v hv
  obtain ⟨G, hG, rfl⟩ := List.mem_map.mp hd
  obtain ⟨m, hm, rfl⟩ := mem_usersArray_toDoc.mp hv
  obtain ⟨a, ha, hu, hk⟩ := h G hG m hm
  refine ⟨m.user, (entryName_eq_pseudonymIn hP).mpr rfl, _, List.mem_map_of_mem ha, ?_, ?_⟩
  · rw [a.get?_name, hu]
  · exact ⟨_, _, m.key, entryKey_entryValue _, a.get?_key, hP.decrypt_encrypt _ _,
      hk ▸ hP.decrypt_encrypt _ _⟩

theorem not_noOrphans (hP : P.Ideal) {G : Group β} (hG : G ∈ V.groups) (hu : u ∈ G.users)
    (hno : u ∉ V.accounts.keys) : ¬ NoOrphans P (V.toWorld P) := by
  intro h
  obtain ⟨m, hm, rfl⟩ := List.mem_map.mp hu
  obtain ⟨u, he, d, hd, hname, -⟩ := h _ (List.mem_map_of_mem hG) _
    (mem_usersArray_toDoc.mpr ⟨m, hm, rfl⟩)
  obtain ⟨a, ha, rfl⟩ := List.mem_map.mp hd
  rw [(entryName_eq_pseudonymIn hP).mp he] at hno
  rw [a.get?_name, Option.some.injEq, Value.binary.injEq, List.Vector.toList_injective.eq_iff,
    hashName_none_inj hP] at hname
  exact hno (Keyed.mem_keys.mpr ⟨a, ha, hname⟩)

end Documents

section Contracts

def CoherentStore (P : Primitives β) (w : World β) : Prop :=
  ∃ V : Vault β, w = V.toWorld P ∧ V.Coherent

def Op.Enrolls (u : List β) : Op β → Prop
  | .createGroup _ v | .addUserToGroup _ v => v = u
  | _ => False

/-- One operation deletes a user whom the other one enters into a group. -/
def Op.Clashes (o o' : Op β) : Prop :=
  ∃ u, (o = .deleteUser u ∧ o'.Enrolls u) ∨ (o' = .deleteUser u ∧ o.Enrolls u)

/-- An operation that enrolls a user relies on its record, one that deletes a user relies on
nobody enrolling it, and no other operation deletes or enrolls a user. -/
def memberContract (P : Primitives β) (o : Op β) : Contract (World β) where
  rely s t := CoherentStore P s → CoherentStore P t ∧
    (∀ u key, o.Enrolls u → Registered P s u key → Registered P t u key) ∧
    (∀ u id g, o = .deleteUser u → Enrolled P t u id g → Enrolled P s u id g)
  guar s t := CoherentStore P s → CoherentStore P t ∧
    (∀ u key, o ≠ .deleteUser u → Registered P s u key → Registered P t u key) ∧
    (∀ u id g, ¬ o.Enrolls u → Enrolled P t u id g → Enrolled P s u id g)
  rely_refl _ h := ⟨h, fun _ _ _ h => h, fun _ _ _ _ h => h⟩
  rely_trans h h' hs := by
    obtain ⟨ht, hreg, henr⟩ := h hs
    obtain ⟨hu, hreg', henr'⟩ := h' ht
    exact ⟨hu, fun u key ho hr => hreg' u key ho (hreg u key ho hr),
      fun u id g ho he => henr u id g ho (henr' u id g ho he)⟩
  guar_refl _ h := ⟨h, fun _ _ _ h => h, fun _ _ _ _ h => h⟩

theorem memberContract_noninterference {o o' : Op β} {s t : World β} (ho : ¬ o.Clashes o')
    (hg : (memberContract P o).guar s t) : (memberContract P o').rely s t := by
  intro hs
  obtain ⟨ht, hreg, henr⟩ := hg hs
  refine ⟨ht, fun u key hu => hreg u key fun he => ho ?_,
    fun u id g hu => henr u id g fun he => ho ?_⟩
  · exact ⟨u, .inl ⟨he, hu⟩⟩
  · exact ⟨u, .inr ⟨hu, he⟩⟩

theorem guar_member (hP : P.Ideal) (hW : W.Coherent)
    (hreg : ∀ v key, o ≠ .deleteUser v → V.HasAccount v key → W.HasAccount v key)
    (hnew : ∀ v, ¬ o.Enrolls v → NoNew v V W) :
    (memberContract P o).guar (V.toWorld P) (W.toWorld P) := by
  intro _
  refine ⟨⟨W, rfl, hW⟩, fun v key hv hr => ?_, fun v id g hv => (noNew_iff hP).mpr (hnew v hv) id g⟩
  exact (registered_iff hP).mpr (hreg v key hv ((registered_iff hP).mp hr))

theorem standing_member : Standing P (memberContract P o) Vault.Coherent where
  stable hV ht := by
    obtain ⟨⟨W, hW, hC⟩, -⟩ := ht ⟨_, rfl, hV⟩
    exact ⟨W, hW, hC⟩

/-- While a user is enrolled, its record stands. -/
theorem standing_enrolling (hP : P.Ideal) (ho : o.Enrolls u) :
    Standing P (memberContract P o) (fun V => V.Coherent ∧ V.HasAccount u key) where
  stable := by
    rintro V t ⟨hV, hk⟩ ht
    obtain ⟨⟨W, rfl, hW⟩, hreg, -⟩ := ht ⟨V, rfl, hV⟩
    exact ⟨W, rfl, hW, (registered_iff hP).mp (hreg u key ho ⟨V, rfl, hk⟩)⟩

end Contracts

variable [DecidableEq β] {count : ℤ → Scalar}

section Operations

theorem edits_enrolling (hP : P.Ideal) (ho : ∀ v, o.Enrolls v ↔ u = v) {m : Member β}
    (hm : m.user = u) : Edits P (memberContract P o) (fun V => V.Coherent ∧ V.HasAccount u m.key) g
      (.join m) (fun _ => True) where
  standing := standing_enrolling hP ((ho u).mpr rfl)
  seen _ _ _ _ := trivial
  write := by
    rintro V G - ⟨hV, hk⟩ - - - - - -
    have hW : (V.modify g (.join m) (G.nextSignature P (.join m))).Coherent := hV.modify (by
      rintro _ ⟨⟩
      exact hm ▸ hk)
    refine ⟨guar_member hP hW (fun _ _ _ hr => hr) fun v hv => noNew_modify ?_, hW, hk⟩
    rintro _ ⟨⟩ rfl
    exact hv ((ho _).mpr hm.symm)

theorem safe_enrolling (hP : P.Ideal)
    (ho : (∃ g, o = .createGroup g u) ∨ ∃ g, o = .addUserToGroup g u) (hV : V.Coherent) :
    Safe (Found count) (memberContract P o) (fun _ _ => True) (o.prog P) (V.toWorld P) := by
  have hself : ∀ v, o.Enrolls v ↔ u = v := by
    rintro v
    rcases ho with ⟨g, rfl⟩ | ⟨g, rfl⟩ <;> rfl
  rcases ho with ⟨g, rfl⟩ | ⟨g, rfl⟩
  · refine safe_createGroup (B := fun key V => V.Coherent ∧ V.HasAccount u key) hP found_honest
      standing_member (fun _ _ => .intro) ?_ (fun m hm => edits_enrolling hP hself hm) hV
    rintro V iv m rfl ⟨hV, hk⟩ hg
    have hW : (V.establish P g iv m).Coherent := hV.establish hg hk
    have hnew : ∀ v, ¬ (Op.createGroup g m.user).Enrolls v → NoNew v V (V.establish P g iv m) :=
      fun v hv => noNew_establish hg (mt (hself v).mpr hv)
    exact guar_member hP hW (fun _ _ _ hr => hr) hnew
  · exact safe_addUserToGroup (B := fun key V => V.Coherent ∧ V.HasAccount u key) hP found_honest
      standing_member (fun _ _ => .intro) (fun m hm => edits_enrolling hP hself hm) hV

/-- A deletion forgets its user when no group has it any more. -/
theorem sweeps_member (hP : P.Ideal) : Sweeps P (Found count) (memberContract P (.deleteUser u)) u
    (fun cur Gs V => V.Coherent ∧ OverGroups cur ∧ Tracked u cur Gs V)
    (fun Gs V => V.Coherent ∧ Queued u Gs V) := by
  refine sweeps_tracked ?_ ?_ ?_
  · intro V t hV ht
    obtain ⟨⟨W, rfl, hW⟩, -, hnew⟩ := ht ⟨V, rfl, hV⟩
    exact ⟨W, rfl, hW, (noNew_iff hP).mp fun id g => hnew u id g rfl⟩
  · intro V g s hV
    have hW : (V.modify g (.leave u) s).Coherent := hV.modify (by nofun)
    exact ⟨guar_member hP hW (fun _ _ _ hr => hr) fun _ _ => noNew_modify (by nofun), hW⟩
  · intro V hV hu
    have hW : (V.forget u).Coherent := hV.forget hu
    refine ⟨guar_member hP hW ?_ fun _ _ => noNew_of_groups_eq rfl, hW⟩
    rintro v key hv ⟨a, ha, rfl, hk⟩
    exact ⟨a, Keyed.mem_erase.mpr ⟨ha, fun he => hv (he ▸ rfl)⟩, rfl, hk⟩

theorem safe_member (hP : P.Ideal) (ho : o ≠ .deleteAllData) (hV : V.Coherent) :
    Safe (Found count) (memberContract P o) (fun _ _ => True) (o.prog P) (V.toWorld P) := by
  cases o with
  | createUser u key =>
    refine safe_createUser hP found_honest standing_member (fun V iv hV hu => ?_) hV
    have hW : (V.register u key iv).Coherent := hV.register hu
    refine guar_member hP hW ?_ fun _ _ => noNew_of_groups_eq rfl
    rintro v key - ⟨a, ha, he⟩
    exact ⟨a, (Vault.mem_accounts_register hu).mpr (.inl ha), he⟩
  | createGroup g u => exact safe_enrolling hP (.inl ⟨g, rfl⟩) hV
  | addUserToGroup g u => exact safe_enrolling hP (.inr ⟨g, rfl⟩) hV
  | removeUserFromGroup g u =>
    have hedit : Edits P (memberContract P (.removeUserFromGroup g u)) Vault.Coherent g (.leave u)
        (fun _ => True) := {
      standing := standing_member
      seen := fun _ _ _ _ => trivial
      write := fun V G _ hV _ _ _ _ _ _ =>
        have hW : (V.modify g (.leave u) (G.nextSignature P (.leave u))).Coherent :=
          hV.modify (by nofun)
        ⟨guar_member hP hW (fun _ _ _ hr => hr) fun _ _ => noNew_modify (by nofun), hW⟩ }
    exact safe_removeUserFromGroup hP found_honest hedit hV
  | deleteUser u =>
    refine ((sweeps_member hP).safe_deleteUser hP found_honest ⟨hV, ⟨rfl, rfl, rfl⟩, ?_⟩).mono
      fun _ _ _ => trivial
    exact fun G hG _ => .inl (List.mem_map_of_mem hG)
  | deleteAllData => exact absurd rfl ho

end Operations

/-- The runs in which no user is deleted while it is being entered into a group, and every write
of a bulk finds its document. -/
def Apart {ι : Type} (ops : ι → Op β) (cfg : Config ι (Call β) Reply Stop Unit (World β)) :
    Event ι (Call β) → Prop
  | .invoke i => ∀ j p, cfg.status j = .running p → ¬ (ops i).Clashes (ops j)
  | .call _ c => BulkFinds c cfg.world
  | _ => True

omit [DecidableEq β] in
theorem Op.Clashes.symm {o o' : Op β} (h : o.Clashes o') : o'.Clashes o := by
  obtain ⟨u, h⟩ := h
  exact ⟨u, h.symm⟩

/-- In every run in which no user is deleted while it is being entered into a group, and in which
each update of a bulk finds its document as it was read, every member of every group has a record
with the same key, in every state of the run. -/
theorem run_no_orphans {ι : Type} [DecidableEq ι] (hP : P.Ideal) (count : ℤ → Scalar)
    (ops : ι → Op β) (hops : ∀ i, ops i ≠ .deleteAllData) {w : World β} (hw : CoherentStore P w)
    {evs : List (Event ι (Call β))} {cfg : Config ι (Call β) Reply Stop Unit (World β)}
    (hr : Run (Honest count) (fun i => (ops i).prog P) (Apart ops) (.start w) evs cfg) :
    NoOrphans P cfg.world := by
  have hc : Composable (Honest count) (Found count) (fun i => (ops i).prog P) (Apart ops)
      (CoherentStore P) (fun i => memberContract P (ops i)) (fun _ _ _ => True)
      (fun i j => ¬ (ops i).Clashes (ops j)) := {
    env := fun hok hE => ⟨hE, hok⟩
    start := by
      rintro i _ ⟨V, rfl, hV⟩
      exact safe_member hP (hops i) hV
    admits := fun hok hj => ⟨hok _ _ hj, fun h => hok _ _ hj h.symm⟩
    inv := fun hg hs => (hg hs).1
    noninterference := fun _ ho _ hg => memberContract_noninterference ho hg
    result := fun _ _ _ _ => trivial }
  obtain ⟨V, hV, hC⟩ := (hr.poolSafe hc (.start hw)).inv
  rw [hV]
  exact hC.noOrphans hP

theorem admitted_apart {ι : Type} {i : ι} {ops : ι → Op β} :
    Admitted (Found count) (Honest count) (Apart ops) i := ⟨fun h => h, trivial, trivial⟩

/-- The deletion runs between the two halves of the addition of another user. -/
theorem run_no_orphans_sample : ∃ (w : World ℕ) (evs : List (Event Bool (Call ℕ)))
    (cfg : Config Bool (Call ℕ) Reply Stop Unit (World ℕ)),
    CoherentStore Primitives.nat w ∧
    Run (Honest .int64) (fun i => (besideOps i).prog Primitives.nat) (Apart besideOps) (.start w)
      evs cfg ∧
    (∀ i, cfg.status i = .finished (.ok ())) ∧ Within true false evs ∧
    NoOrphans Primitives.nat cfg.world := by
  have hP := Primitives.nat_ideal
  obtain ⟨-, V, G, -, -, hS, hC, hkeys, hV, -, -⟩ := exists_group_session (g := [5]) hP .int64
    [.createUser [1] (.replicate 32 7), .createUser [2] (.replicate 32 8), .createGroup [5] [1]] rfl
  have hv : [2] ∈ V.accounts.keys := by
    rw [hkeys]
    decide
  have happart : ∀ i j, ¬ (besideOps i).Clashes (besideOps j) := by
    have hne : ([2] : List ℕ) ≠ [1] := by decide
    rintro (_ | _) (_ | _) ⟨u, ⟨hdel, henr⟩ | ⟨hdel, henr⟩⟩ <;> cases hdel
    all_goals first | exact henr | exact hne henr
  obtain ⟨evs, cfg, hr, hadd, hdel, hwithin⟩ := exists_run_beside_addition hP .int64
    besideOps (i := true) (j := false) (fun _ => admitted_apart) (fun _ i j _ _ => happart i j) rfl
    rfl hS hV hv
  have hops : ∀ i, besideOps i ≠ .deleteAllData := by
    rintro (_ | _) <;> nofun
  have hstart : CoherentStore Primitives.nat (V.toWorld Primitives.nat) := ⟨V, rfl, hC⟩
  refine ⟨_, evs, cfg, hstart, hr, ?_, hwithin, run_no_orphans hP .int64 besideOps hops hstart hr⟩
  rintro (_ | _)
  · exact hdel
  · exact hadd

/-- A deletion between the read of the key and the write of the entry leaves an entry without a
record. -/
theorem exists_orphan {ι : Type} [DecidableEq ι] (hP : P.Ideal) (count : ℤ → Scalar)
    (ops : ι → Op β) {i j : ι} (hi : ops i = .addUserToGroup g u) (hj : ops j = .deleteUser u)
    (hS : V.Signed P) {G : Group β} (hG : G ∈ V.groups) (hg : G.name = g)
    (hu : u ∈ V.accounts.keys) :
    ∃ (evs : List (Event ι (Call β))) (cfg : Config ι (Call β) Reply Stop Unit (World β)),
      Run (Honest count) (fun i => (ops i).prog P) (fun _ _ => True) (.start (V.toWorld P)) evs
        cfg ∧
      cfg.status i = .finished (.ok ()) ∧ cfg.status j = .finished (.ok ()) ∧
      ¬ NoOrphans P cfg.world := by
  let prog : ι → Enclave β Unit := fun i => (ops i).prog P
  have hpi : prog i = addUserToGroup P g u := congrArg (Op.prog P) hi
  have hpj : prog j = deleteUser P u := congrArg (Op.prog P) hj
  have hij : i ≠ j := by
    rintro rfl
    rw [hi] at hj
    cases hj
  have hne : V.groups.elems ≠ [] := List.ne_nil_of_mem hG
  -- the deletion runs when the addition has fetched the key, and the addition goes on with it
  have hrest : ∀ a iv, a ∈ V.accounts → a.user = u → Wp (Honest count) (fun r w =>
      Wp (Honest count) (fun r' w' => r = .ok () ∧ r' = .ok () ∧ ∃ m : Member β, m.user = u ∧
        w' = (((V.leaveAll P u).forget u).update P g (.join m)).toWorld P)
      (addUserToGroupWithKey P g u (P.encryptAesgcm iv a.key)) w) (prog j) (V.toWorld P) := by
    intro a iv _ _
    rw [hpj]
    apply (wp_deleteUser hP hS).mono
    rintro _ _ (⟨hnil, -⟩ | ⟨-, rfl, rfl⟩)
    · exact absurd hnil hne
    · have hS' : ((V.leaveAll P u).forget u).Signed P := hS.leaveAll.sub
      apply (wp_addUserToGroupWithKey hP hS' ⟨u, a.key, iv⟩).mono
      rintro _ _ ⟨rfl, rfl⟩
      exact ⟨rfl, rfl, _, rfl, rfl⟩
  obtain ⟨evs, cfg, _, _, hrun, hret, hret', ⟨rfl, rfl, m, rfl, hw⟩, -⟩ :=
    exists_run_behind_key hP (.start (V.toWorld P)) hij hpi rfl rfl rfl hu hrest
  refine ⟨evs, cfg, hrun, hret, hret', ?_⟩
  rw [hw]
  have hleft : G.next P (.leave m.user) ∈ ((V.leaveAll P m.user).forget m.user).groups :=
    Vault.mem_groups_leaveAll.mpr ⟨G, hG, rfl⟩
  apply not_noOrphans (u := m.user) hP
    (Vault.mem_groups_update.mpr ⟨_, hleft, if_pos (Group.change_name.trans hg)⟩)
  · unfold Group.next
    rw [Group.users_join]
    split <;> simp_all
  · change m.user ∉ (V.accounts.erase m.user).keys
    simp [Keyed.keys_erase]

def clashOps : Bool → Op ℕ
  | false => .addUserToGroup [5] [1]
  | true => .deleteUser [1]

/-- The deletion falls between the read of the key and the write of the entry, which stays without
a record. -/
theorem run_orphan : ∃ hist w,
    Session (Honest .int64) (Op.prog Primitives.nat) World.empty hist w ∧
    hist.map Prod.fst = [.createUser [1] (.replicate 32 7), .createUser [2] (.replicate 32 8),
      .createGroup [5] [2]] ∧
    ∃ (evs : List (Event Bool (Call ℕ))) (cfg : Config Bool (Call ℕ) Reply Stop Unit (World ℕ)),
      Run (Honest .int64) (fun i => (clashOps i).prog Primitives.nat) (fun _ _ => True)
        (.start w) evs cfg ∧
      (∀ i, cfg.status i = .finished (.ok ())) ∧ ¬ NoOrphans Primitives.nat cfg.world := by
  obtain ⟨hist, V, G, h, hops, hS, -, hkeys, hV, hname, -⟩ := exists_group_session (g := [5])
    Primitives.nat_ideal .int64 [.createUser [1] (.replicate 32 7),
      .createUser [2] (.replicate 32 8), .createGroup [5] [2]] rfl
  have hG : G ∈ V.groups := by simp [Keyed.mem_def, hV]
  have hu : [1] ∈ V.accounts.keys := by
    rw [hkeys]
    decide
  obtain ⟨evs, cfg, hr, hadd, hdel, horphan⟩ := exists_orphan Primitives.nat_ideal .int64 clashOps
    (i := false) (j := true) rfl rfl hS hG hname hu
  refine ⟨hist, _, h, hops, evs, cfg, hr, ?_, horphan⟩
  rintro (_ | _)
  · exact hadd
  · exact hdel

end MongoSgx
