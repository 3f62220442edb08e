import MongoSgx.Store.Vault

/-! # The steps of the honest store on vaults

Every driver call of the enclave, made on the database of a vault, answers from
the contents of the vault and leaves the database of a vault behind. The lemmas
say which, one for each kind of call.
-/

namespace MongoSgx

open Bson Interaction

variable {β : Type}

section Reads

variable {P : Primitives β} {G : Group β} {a : Account β}

@[simp] theorem read_account_name : (Iter.initFind (a.toDoc P) "name").binary =
    some (hashName P a.user none).toList := by
  simp [Iter.initFind, Iter.init, Account.toDoc, Iter.binary]

@[simp] theorem read_account_key : (Iter.initFind (a.toDoc P) "key").binary =
    some (P.encryptAesgcm a.iv a.key) := by
  simp [Iter.initFind, Iter.init, Account.toDoc, Iter.binary, Account.encryptedKey]

@[simp] theorem read_account_signature : (Iter.initFind (a.toDoc P) "signature").binary =
    some (computeUserSignature P (hashName P a.user none).toList
      (P.encryptAesgcm a.iv a.key)).toList := by
  simp [Iter.initFind, Iter.init, Account.toDoc, Iter.binary, Account.encryptedKey]

@[simp] theorem read_group_encname : (Iter.initFind (G.toDoc P) "encname").binary =
    some (P.encryptAesgcm G.iv G.name) := by
  simp [Iter.initFind, Iter.init, Group.toDoc, Iter.binary, Group.encname]

@[simp] theorem read_group_signature : (Iter.initFind (G.toDoc P) "signature").binary =
    some G.signature.toList := by
  simp [Iter.initFind, Iter.init, Group.toDoc, Iter.binary]

theorem read_group_users : ∃ arrayIter,
    (Iter.initFind (G.toDoc P) "users").recurse none = some arrayIter ∧
    arrayIter.rest.map Prod.snd = G.members.map fun m => entryValue (m.entry P G.name) := by
  refine ⟨.init (((G.entries P).map entryValue).zipIdx.map fun v => (toString v.2, v.1)), ?_, ?_⟩
  · simp [Iter.initFind, Iter.init, Group.toDoc, Iter.recurse]
  · rw [Iter.init, List.map_map, Function.comp_def, List.zipIdx_map_fst, Group.entries,
      List.map_map]
    rfl

@[simp] theorem read_matchedCount (n : ℤ) :
    (Iter.initFind (updateReply .int64 n : Doc β) "matchedCount").int64 = some n := by
  simp [Iter.initFind, Iter.init, updateReply, Iter.int64]

theorem exists_matchedCount (count : ℤ → Scalar) (n : ℤ) :
    ∃ v, (Iter.initFind (updateReply count n : Doc β) "matchedCount").int64 = some v := by
  simp only [Iter.initFind, Iter.init, updateReply, Iter.find_cons, ↓reduceIte, Iter.int64]
  split <;> simp_all

theorem decryptData_encrypt (hP : P.Ideal) (iv data : List β) :
    decryptData P (P.encryptAesgcm iv data) = .pure data := by
  unfold decryptData
  rw [hP.decrypt_encrypt]

theorem readKeys_members (hP : P.Ideal) {g : List β} : ∀ {array : Doc β} {ms : List (Member β)},
    array.map Prod.snd = ms.map (fun m => entryValue (m.entry P g)) →
    (∀ m ∈ ms, m.key.length = keySize) →
    ∃ ks, (∀ it, readKeys P it array = .pure ks) ∧
      ks.map List.Vector.toList = ms.map Member.key
  | [], [], _, _ => ⟨[], fun _ => rfl, rfl⟩
  | (_, _) :: array, m :: ms, h, hk => by
      obtain ⟨rfl, htail⟩ := List.cons.inj h
      obtain ⟨ks, hks, hmap⟩ := readKeys_members hP htail
        fun n hn => hk n (List.mem_cons_of_mem _ hn)
      have hm := hk m (List.mem_cons_self ..)
      refine ⟨⟨m.key, hm⟩ :: ks, fun it => ?_, ?_⟩
      · simp [readKeys, Iter.recurse, entryValue, Iter.init, Iter.binary, Member.entry,
          decryptData_encrypt hP, hm, hks]
      · exact congrArg (m.key :: ·) hmap

@[simp] theorem throwCursorError_findWithOpts {coll : Collection} {sel : Selector β}
    {opts : Option (Doc β)} {rp : Option ReadMode} :
    (throwCursorError (findWithOpts coll sel opts rp) : Enclave β Unit) = .pure () := rfl

@[simp] theorem docId_toDoc : docId (G.toDoc P) = some G.id := rfl

@[simp] theorem docId_account : docId (a.toDoc P) = some a.id := rfl

end Reads

variable [DecidableEq β]

theorem mem_firstAnswer {sel : Selector β} {ds : List (Doc β)} {id : ℕ} :
    id ∈ firstAnswer sel ds ↔ ∃ d ∈ ds, sel.Matches d ∧ docId d = some id := by
  simp [firstAnswer, and_assoc]

variable {count : ℤ → Scalar} {P : Primitives β} {V : Vault β} {w' : World β}

section Find

variable {sel : Selector β} {opts : Option (Doc β)} {rp : Option ReadMode}

theorem CursorNext.first {coll : Collection} {ds : List (Doc β)} {r : Option (Doc β) × Cursor β}
    (hid : ∀ d ∈ ds, (docId d).isSome) (h : CursorNext ds (findWithOpts coll sel opts rp) r) :
    r.2.error = none ∧ ((∃ d ∈ ds, sel.Matches d ∧ r.1 = some (project opts d)) ∨
      (∀ d ∈ ds, ¬ sel.Matches d) ∧ r.1 = none) := by
  rcases h with ⟨d, id, hd, hm, -, -, rfl⟩ | ⟨hp, rfl⟩
  · exact ⟨rfl, .inl ⟨d, hd, hm, rfl⟩⟩
  · refine ⟨rfl, .inr ⟨fun d hd hm => hp ?_, rfl⟩⟩
    obtain ⟨id, hdid⟩ := Option.isSome_iff_exists.mp (hid d hd)
    exact ⟨d, hd, hm, id, mem_firstAnswer.mpr ⟨d, hd, hm, hdid⟩, hdid⟩

theorem honest_findGroup {r : Option (Doc β) × Cursor β}
    (h : Honest count (.cursorNext (findWithOpts .groups sel opts rp)) (V.toWorld P) r w') :
    w' = V.toWorld P ∧ r.2.error = none ∧
      ((∃ G ∈ V.groups, sel.Matches (G.toDoc P) ∧ r.1 = some (project opts (G.toDoc P))) ∨
        (∀ G ∈ V.groups, ¬ sel.Matches (G.toDoc P)) ∧ r.1 = none) := by
  obtain ⟨rfl, h⟩ := h
  obtain ⟨herr, h⟩ := h.first fun d hd => by
    obtain ⟨G, -, rfl⟩ := List.mem_map.mp hd
    rfl
  refine ⟨rfl, herr, ?_⟩
  rcases h with ⟨_, hd, hm, hr⟩ | ⟨hno, hr⟩
  · obtain ⟨G, hG, rfl⟩ := List.mem_map.mp hd
    exact .inl ⟨G, hG, hm, hr⟩
  · exact .inr ⟨fun G hG => hno _ (List.mem_map_of_mem hG), hr⟩

omit [DecidableEq β] in
theorem matches_account (hP : P.Ideal) {a : Account β} {u : List β} :
    (nameSelector (hashName P u none)).Matches (a.toDoc P) ↔ a.user = u := by
  rw [← hashName_none_inj hP, ← List.Vector.toList_injective.eq_iff]
  simp [nameSelector, Account.toDoc, Value.resolve, Value.field, Value.leaves, Doc.get?,
    List.lookup_cons, eq_comm]

theorem honest_findAccount (hP : P.Ideal) {u : List β} {r : Option (Doc β) × Cursor β}
    (h : Honest count (.cursorNext (findWithOpts .users (nameSelector (hashName P u none)) none rp))
      (V.toWorld P) r w') :
    w' = V.toWorld P ∧ r.2.error = none ∧
      ((∃ a ∈ V.accounts, a.user = u ∧ r.1 = some (a.toDoc P)) ∨
        u ∉ V.accounts.keys ∧ r.1 = none) := by
  obtain ⟨rfl, h⟩ := h
  obtain ⟨herr, h⟩ := h.first fun d hd => by
    obtain ⟨a, -, rfl⟩ := List.mem_map.mp hd
    rfl
  refine ⟨rfl, herr, ?_⟩
  rcases h with ⟨_, hd, hm, hr⟩ | ⟨hno, hr⟩
  · obtain ⟨a, ha, rfl⟩ := List.mem_map.mp hd
    exact .inl ⟨a, ha, (matches_account hP).mp hm, hr⟩
  · refine .inr ⟨fun hk => ?_, hr⟩
    obtain ⟨a, ha, hu⟩ := Keyed.mem_keys.mp hk
    exact hno _ (List.mem_map_of_mem ha) ((matches_account hP).mpr hu)

end Find

section Insert

theorem honest_insertAccount (hP : P.Ideal) {u key iv : List β} {r : Except BsonError Unit}
    (h : Honest count (.insertOne .users [("name", .binary (hashName P u none).toList),
      ("key", .binary (P.encryptAesgcm iv key)), ("signature", .binary (computeUserSignature P
        (hashName P u none).toList (P.encryptAesgcm iv key)).toList)]) (V.toWorld P) r w') :
    (u ∈ V.accounts.keys ∧ w' = V.toWorld P ∧
      ∃ e : BsonError, e.code = mongocErrorDuplicateKey ∧ r = .error e) ∨
    (u ∉ V.accounts.keys ∧ r = .ok () ∧ w' = (V.register u key iv).toWorld P) := by
  have htaken : (∃ d ∈ (V.toWorld P).docs .users, Doc.get? d "name" =
      some (.binary (hashName P u none).toList)) ↔ u ∈ V.accounts.keys := by
    rw [Keyed.mem_keys]
    simp only [World.docs, Vault.toWorld, List.mem_map, exists_exists_and_eq_and]
    refine exists_congr fun a => and_congr_right fun _ => ?_
    rw [← hashName_none_inj hP, ← List.Vector.toList_injective.eq_iff]
    simp [Account.toDoc, Doc.get?, List.lookup_cons]
  rcases h with ⟨ht, hw, he⟩ | ⟨ht, hr, hw⟩
  · exact .inl ⟨htaken.mp ht, hw, he⟩
  · have hu : u ∉ V.accounts.keys := fun hk => ht (htaken.mpr hk)
    refine .inr ⟨hu, hr, hw.trans ?_⟩
    change World.mk _ _ _ = World.mk _ _ _
    rw [Vault.accounts_register hu, List.map_append]
    rfl

theorem honest_insertGroup (hP : P.Ideal) {g iv : List β} {m : Member β} {s : Hashed β}
    {r : Except BsonError Unit}
    (h : Honest count (.insertOne .groups (signedFields (hashName P g none).toList
      (P.encryptAesgcm iv g) [m.entry P g] ++ [("signature", .binary s.toList)]))
      (V.toWorld P) r w') :
    (g ∈ V.groups.keys ∧ w' = V.toWorld P ∧
      ∃ e : BsonError, e.code = mongocErrorDuplicateKey ∧ r = .error e) ∨
    (g ∉ V.groups.keys ∧ r = .ok () ∧ w' = (V.found g iv m s).toWorld P) := by
  have htaken : (∃ d ∈ (V.toWorld P).docs .groups, Doc.get? d "name" =
      some (.binary (hashName P g none).toList)) ↔ g ∈ V.groups.keys := by
    rw [Keyed.mem_keys]
    simp only [World.docs, Vault.toWorld, List.mem_map, exists_exists_and_eq_and]
    refine exists_congr fun G => and_congr_right fun _ => ?_
    rw [← hashName_none_inj hP, ← List.Vector.toList_injective.eq_iff]
    simp [Group.toDoc, Doc.get?, List.lookup_cons]
  rcases h with ⟨ht, hw, he⟩ | ⟨ht, hr, hw⟩
  · exact .inl ⟨htaken.mp ht, hw, he⟩
  · have hg : g ∉ V.groups.keys := fun hk => ht (htaken.mpr hk)
    refine .inr ⟨hg, hr, hw.trans ?_⟩
    change World.mk _ _ _ = World.mk _ _ _
    rw [Vault.groups_found hg, List.map_append]
    rfl

end Insert

section Update

theorem updateOne_groups {sel : Selector β} {upd : Update β} {n : ℤ} {ds : List (Doc β)}
    (h : UpdateOne sel upd (V.toWorld P).groups n ds) :
    (n = 0 ∧ (V.toWorld P).setDocs .groups ds = V.toWorld P ∧
      ∀ G ∈ V.groups, ¬ sel.Matches (G.toDoc P)) ∨
    (n = 1 ∧ ∃ G ∈ V.groups, sel.Matches (G.toDoc P) ∧ ∀ c s,
      upd.apply (G.toDoc P) = some ((G.change c s).toDoc P) →
        (V.toWorld P).setDocs .groups ds = (V.modify G.name c s).toWorld P) := by
  generalize hds : (V.toWorld P).groups = gs at h
  cases h with
  | none h =>
    subst hds
    exact .inl ⟨rfl, rfl, fun G hG => h _ (List.mem_map_of_mem hG)⟩
  | @one l l' d d' hm hd =>
    obtain ⟨l₁, l₂, hl, rfl, hl₂⟩ := List.map_eq_append_iff.mp hds
    obtain ⟨G, l₃, rfl, rfl, rfl⟩ := List.map_eq_cons_iff.mp hl₂
    have hG : G ∈ V.groups := by
      rw [Keyed.mem_def, hl]
      exact List.mem_append_right _ (List.mem_cons_self ..)
    refine .inr ⟨rfl, G, hG, hm, fun c s hc => ?_⟩
    obtain rfl : d' = (G.change c s).toDoc P := Option.some.inj (hd.symm.trans hc)
    change World.mk _ _ _ = World.mk _ _ _
    congr 1
    rw [Vault.groups_modify hl, List.map_append, List.map_cons]

theorem honest_edit (hP : P.Ideal) {g σ : List β} {c : Change β} {s : Hashed β}
    {r : Except BsonError (Doc β)}
    (h : Honest count (.updateOne .groups ((c.groupEdit P g).selector ++
      [(["signature"], .eq (.binary σ))]) ((c.groupEdit P g).update s)) (V.toWorld P) r w') :
    (r = .ok (updateReply count 0) ∧ w' = V.toWorld P ∧
      ∀ G ∈ V.groups, G.name = g → c.Applies G → G.signature.toList ≠ σ) ∨
    (r = .ok (updateReply count 1) ∧ w' = (V.modify g c s).toWorld P ∧
      ∃ G ∈ V.groups, G.name = g ∧ c.Applies G ∧ G.signature.toList = σ) := by
  have hmatch : ∀ G : Group β, Selector.Matches ((c.groupEdit P g).selector ++
      [(["signature"], .eq (.binary σ))]) (G.toDoc P) ↔
      (G.name = g ∧ c.Applies G) ∧ G.signature.toList = σ := fun G => by
    rw [Selector.matches_append, matches_groupEdit hP, matches_signature]
  rcases h with ⟨n, ds, hu, rfl, rfl⟩ | ⟨⟨_, hd, hm, hnone⟩, -⟩
  · rcases updateOne_groups hu with ⟨rfl, hw, hno⟩ | ⟨rfl, G, hG, hm, hw⟩
    · refine .inl ⟨rfl, hw, fun G hG hg hc hσ => hno G hG ?_⟩
      exact (hmatch G).mpr ⟨⟨hg, hc⟩, hσ⟩
    · obtain ⟨⟨rfl, hc⟩, hσ⟩ := (hmatch G).mp hm
      exact .inr ⟨rfl, hw c s (groupEdit_apply hP hc), G, hG, rfl, hc, hσ⟩
  · obtain ⟨G, -, rfl⟩ := List.mem_map.mp hd
    obtain ⟨⟨rfl, hc⟩, -⟩ := (hmatch G).mp hm
    rw [groupEdit_apply hP hc] at hnone
    cases hnone

/-- The bulk update of a group as it was read drops a member from the group, if the group is
still as it was read. -/
theorem honest_bulkEdit (hP : P.Ideal) {G : Group β} {u : List β} {s : Hashed β}
    {r : Except BsonError Unit}
    (h : Honest count (.bulkUpdateOne .groups (Selector.ofDoc (G.toDoc P))
      (pullUpdate (hashName P u (some G.name)) s)) (V.toWorld P) r w') :
    r = .ok () ∧
    ((w' = V.toWorld P ∧ ∀ H ∈ V.groups, H.toDoc P ≠ G.toDoc P) ∨
      (w' = (V.modify G.name (.leave u) s).toWorld P ∧ ∃ H ∈ V.groups, H.toDoc P = G.toDoc P)) := by
  have hname : ∀ {H : Group β}, H.toDoc P = G.toDoc P → H.name = G.name :=
    fun he => (Group.eq_of_toDoc_eq hP he).2.1
  have happly : ∀ {H : Group β}, H.toDoc P = G.toDoc P →
      Update.apply (pullUpdate (hashName P u (some G.name)) s) (H.toDoc P) =
        some ((H.change (.leave u) s).toDoc P) := fun he => by
    rw [← hname he]
    exact pullUpdate_apply hP
  rcases h with ⟨n, ds, hu, rfl, rfl⟩ | ⟨⟨_, hd, hm, hnone⟩, -⟩
  · rcases updateOne_groups hu with ⟨rfl, hw, hno⟩ | ⟨rfl, H, hH, hm, hw⟩
    · exact ⟨rfl, .inl ⟨hw, fun H hH he => hno H hH (matches_ofDoc.mpr he)⟩⟩
    · have he := matches_ofDoc.mp hm
      refine ⟨rfl, .inr ⟨?_, H, hH, he⟩⟩
      rw [← hname he]
      exact hw _ s (happly he)
  · obtain ⟨H, -, rfl⟩ := List.mem_map.mp hd
    rw [happly (matches_ofDoc.mp hm)] at hnone
    cases hnone

end Update

section Sweep

/-- The queued update that drops a user from a group as it was read. -/
def sweepOp (P : Primitives β) (u : List β) (G : Group β) : Selector β × Update β :=
  (Selector.ofDoc (G.toDoc P), pullUpdate (hashName P u (some G.name)) (G.nextSignature P (.leave u)))

def finishDeletion (P : Primitives β) (u : List β) (bulkOperation : Bulk β) : Enclave β Unit := do
  let status ← bulkExecute .groups bulkOperation
  throwUnless status
  create .selector
  let status ← deleteOne .users (nameSelector (hashName P u none))
  destroy .selector
  throwUnless status

theorem deleteUser_eq {u : List β} : deleteUser P u = (do
    create .nullSelector
    create .readPrefs
    create .cursor
    destroy .readPrefs
    destroy .nullSelector
    create .bulkOperation
    Prog.loop (sweepRound P u) (findWithOpts .groups [] none (some .primaryPreferred), [])
      (finishDeletion P u)) := by
  simp only [deleteUser, removeUserFromAllGroups, create, destroy, Prog.bind_eq, Prog.request_bind,
    Prog.call_bind, Prog.loop_bind, Prog.pure_bind, Prog.bind_assoc]
  rfl

omit [DecidableEq β] in
def due (V : Vault β) (cur : Cursor β) : List ℕ := cur.todo.getD (V.groups.elems.map Group.id)

def OverGroups (cur : Cursor β) : Prop :=
  cur.collection = .groups ∧ cur.filter = [] ∧ cur.opts = none

theorem honest_nextGroup {cur : Cursor β} (hcur : OverGroups cur)
    {r : Option (Doc β) × Cursor β} {w' : World β}
    (h : Honest count (.cursorNext cur) (V.toWorld P) r w') :
    w' = V.toWorld P ∧
    ((∃ G ∈ V.groups, (G.id ∈ due V cur ∨ G.id ∉ cur.seen) ∧ r.1 = some (G.toDoc P) ∧
        OverGroups r.2 ∧ r.2.todo = some ((due V cur).erase G.id) ∧ r.2.seen = G.id :: cur.seen) ∨
      (∀ G ∈ V.groups, G.id ∉ due V cur) ∧ r.1 = none) := by
  obtain ⟨hcoll, hfilter, hopts⟩ := hcur
  have hfirst : firstAnswer [] (V.toWorld P).groups = V.groups.elems.map Group.id := by
    simp [firstAnswer, Vault.toWorld, List.filterMap_map, Function.comp_def]
  obtain ⟨rfl, h⟩ := h
  refine ⟨rfl, ?_⟩
  simp only [CursorNext, hcoll, hfilter, World.docs, hfirst] at h
  rcases h with ⟨_, _, hd, -, hid, hnew, rfl⟩ | ⟨hp, rfl⟩
  · obtain ⟨G, hG, rfl⟩ := List.mem_map.mp hd
    obtain rfl := Option.some.inj (docId_toDoc.symm.trans hid)
    refine .inl ⟨G, hG, hnew, ?_, ⟨rfl, rfl, hopts⟩, rfl, rfl⟩
    simp [project, hopts]
  · refine .inr ⟨fun G hG hid => hp ?_, rfl⟩
    exact ⟨_, List.mem_map_of_mem hG, Selector.matches_nil _, G.id, hid, rfl⟩

end Sweep

section Delete

theorem honest_forget (hP : P.Ideal) {u : List β} {r : Except BsonError Unit}
    (h : Honest count (.deleteOne .users (nameSelector (hashName P u none))) (V.toWorld P) r w') :
    r = .ok () ∧ w' = (V.forget u).toWorld P := by
  obtain ⟨rfl, ⟨rfl, hno⟩ | ⟨l, d, l', hl, hm, rfl⟩⟩ := h
  · refine ⟨rfl, ?_⟩
    have hfilter : V.accounts.elems.filter (fun a => a.user ≠ u) = V.accounts.elems :=
      List.filter_eq_self.mpr fun a ha => by
        simpa using fun hu => hno _ (List.mem_map_of_mem ha) ((matches_account hP).mpr hu)
    change World.mk _ _ _ = World.mk _ _ _
    congr 1
    exact congrArg _ hfilter.symm
  · refine ⟨rfl, ?_⟩
    obtain ⟨l₁, l₂, hl₁, rfl, hl₂⟩ := List.map_eq_append_iff.mp hl
    obtain ⟨a, l₃, rfl, rfl, rfl⟩ := List.map_eq_cons_iff.mp hl₂
    obtain rfl := (matches_account hP).mp hm
    change World.mk _ _ _ = World.mk _ _ _
    congr 1
    change _ = (V.accounts.erase a.user).elems.map _
    rw [Keyed.elems_erase hl₁, List.map_append]

theorem honest_deleteNext {coll : Collection} {todo : Option (List ℕ)}
    {r : Except BsonError (Option (List ℕ))}
    (h : Honest count (.deleteNext coll [] todo) (V.toWorld P) r w') :
    ∃ as gs has hgs, w' = (V.sub as gs has hgs).toWorld P := by
  have key : ∀ {α : Type} (f : α → Doc β) {as : List α} {l d l'}, as.map f = l ++ d :: l' →
      ∃ bs : List α, bs.Sublist as ∧ l ++ l' = bs.map f := by
    intro α f as l d l' hl
    obtain ⟨l₁, l₂, rfl, rfl, hl₂⟩ := List.map_eq_append_iff.mp hl
    obtain ⟨a, l₃, rfl, rfl, rfl⟩ := List.map_eq_cons_iff.mp hl₂
    exact ⟨l₁ ++ l₃, (List.Sublist.refl l₁).append (List.sublist_cons_self a l₃), by simp⟩
  have hself :
      V.toWorld P = (V.sub _ _ (List.Sublist.refl _) (List.Sublist.refl _)).toWorld P := rfl
  rcases h with ⟨l, d, l', id, hl, -, -, -, rfl⟩ | ⟨-, -, rfl⟩
  · cases coll with
    | users =>
      obtain ⟨as, has, he⟩ := key _ hl
      refine ⟨as, V.groups.elems, has, List.Sublist.refl _, ?_⟩
      rw [he]
      rfl
    | groups =>
      obtain ⟨gs, hgs, he⟩ := key _ hl
      refine ⟨V.accounts.elems, gs, List.Sublist.refl _, hgs, ?_⟩
      rw [he]
      rfl
  · exact ⟨_, _, _, _, hself⟩

end Delete

end MongoSgx
