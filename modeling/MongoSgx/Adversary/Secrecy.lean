import MongoSgx.Adversary.Twins

/-! # What the diagnostics give away

Two sequences of requests that differ in names and keys cannot be told apart,
exactly when nothing that differs is printed: the deletion loop prints the name
of every group it meets, and a wrong user record prints the name it was read for.
-/

namespace MongoSgx

open Bson Interaction

variable {β : Type} [DecidableEq β] {P P' : Primitives β} {Secret : List β → List β → Prop}
  {answers : Collection → Doc β → Prop} {q q' : Request β} {qs qs' : List (Request β)}
  {l : Log β}

section Runs

/-- Every request can end: the store has nothing to read, or takes what it is given. -/
theorem canEnd_prog (P : Primitives β) (q : Request β) (l : Log β) :
    CanEnd (Answering answers) (fun _ _ => True) (q.prog P) l := by
  have hthrow : ∀ {e : Stop} {l : Log β}, CanEnd (Answering answers) (fun _ _ => True)
      (.throw e : Enclave β (Answer β)) l := fun {e l} => ⟨.error e, l, .refl _ _, trivial⟩
  have hnone : ∀ {cursor : Cursor β}, Answering answers ⟨.cursorNext cursor, (none, cursor)⟩ :=
    ⟨nofun, rfl⟩
  cases q with
  | op o =>
    cases o with
    | createUser u key =>
      exact .call [] trivial (.call () trivial (.call (.ok ()) trivial (.call () trivial
        (.pure trivial))))
    | createGroup g u =>
      exact .call () trivial (.call () trivial (.call () trivial (.call () trivial (.call () trivial
        (.call (none, _) hnone hthrow)))))
    | addUserToGroup g u =>
      exact .call () trivial (.call () trivial (.call () trivial (.call () trivial (.call () trivial
        (.call (none, _) hnone hthrow)))))
    | removeUserFromGroup g u =>
      exact .call () trivial (.call () trivial (.call (none, _) hnone (.call () trivial
        (.call () trivial (.pure trivial)))))
    | deleteUser u =>
      exact .call () trivial (.call () trivial (.call () trivial (.call () trivial (.call () trivial
        (.call () trivial (.unroll (.call (none, _) hnone hthrow)))))))
    | deleteAllData =>
      exact .call () trivial (.unroll (.call (.ok none) trivial (.unroll (.call (.ok none) trivial
        (.call () trivial (.pure trivial))))))
  | getKeysOfGroup g =>
    exact .call () trivial (.call () trivial (.call () trivial (.call () trivial
      (.call (none, _) hnone (.call () trivial (.call () trivial hthrow))))))
  | isUserPartOfGroup g u =>
    exact .call () trivial (.call () trivial (.call () trivial (.call () trivial (.call () trivial
      (.call () trivial (.call () trivial (.call (none, _) hnone (.call () trivial
        (.pure trivial)))))))))

omit [DecidableEq β] in
theorem decryptData_some {c g : List β} (h : P.decryptAesgcm c = some g) :
    decryptData P c = .pure g := by
  simp only [decryptData, h]

omit [DecidableEq β] in
theorem answering_document {cursor : Cursor β} {d : Doc β} (hd : answers cursor.collection d) :
    Answering answers ⟨.cursorNext cursor, (some d, cursor)⟩ := by
  refine ⟨?_, rfl⟩
  rintro _ ⟨⟩
  exact hd

def groupRead (d : Doc β) : Log β :=
  let cursor := findWithOpts .groups [] none (some .primaryPreferred)
  [⟨.create .nullSelector, ()⟩, ⟨.create .readPrefs, ()⟩, ⟨.create .cursor, ()⟩,
    ⟨.destroy .readPrefs, ()⟩, ⟨.destroy .nullSelector, ()⟩, ⟨.create .bulkOperation, ()⟩,
    ⟨.cursorNext cursor, (some d, cursor)⟩]

theorem emits_group_name {d : Doc β} {u c g : List β} {ps : List (Enclave β (Answer β))}
    (hd : answers .groups d) (hc : (Iter.initFind d "encname").binary = some c)
    (hg : P.decryptAesgcm c = some g) :
    Emits (Answering answers) ((Request.op (.deleteUser u)).prog P :: ps) l (l ++ groupRead d)
      (.printf "Iterating over %s\n" g) := by
  refine .call trivial (.call trivial (.call trivial (.call trivial (.call trivial (.call trivial
    (.unroll (.call (answering_document hd) ?_)))))))
  simp only [hc, decryptData_some hg, read_some, Prog.bind_eq, Prog.pure_bind]
  exact .now

def recordRead (hashed : Hashed β) (d : Doc β) : Log β :=
  let cursor := findWithOpts .users (nameSelector hashed) none (some .primaryPreferred)
  [⟨.create .query, ()⟩, ⟨.create .readPrefs, ()⟩, ⟨.create .cursor, ()⟩,
    ⟨.destroy .query, ()⟩, ⟨.destroy .readPrefs, ()⟩, ⟨.cursorNext cursor, (some d, cursor)⟩]

theorem emits_user_name {d : Doc β} {u name c signature : List β}
    {f : List β → Enclave β (Answer β)} {ps : List (Enclave β (Answer β))}
    (hd : answers .users d) (hname : (Iter.initFind d "name").binary = some name)
    (hc : (Iter.initFind d "key").binary = some c)
    (hs : (Iter.initFind d "signature").binary = some signature)
    (hwrong : (computeUserSignature P name c).toList ≠ signature) :
    Emits (Answering answers) ((reencryptUserKey P u).bind f :: ps) l
      (l ++ recordRead (hashName P u none) d) (.printf "Invalid user signature for %s\n" u) := by
  refine .call trivial (.call trivial (.call trivial (.call trivial (.call trivial
    (.call (answering_document hd) ?_)))))
  simp only [hname, hc, hs, hwrong, read_some, Prog.bind_eq, Prog.pure_bind, ↓reduceIte]
  exact .now

end Runs

section Leaks

variable {ps ps' : List (Enclave β (Answer β))}

theorem sameNames_of_indistinct (ht : Twins P P' Secret answers) {u u' : List β}
    (h : Indistinct (Answering answers) ((Request.op (.deleteUser u)).prog P :: ps)
      ((Request.op (.deleteUser u')).prog P' :: ps') l) : SameNames P P' answers := by
  intro d hd c hc
  have hrel := ht.decrypt_rel c
  cases hg : P.decryptAesgcm c with
  | none =>
    rw [hg] at hrel
    generalize P'.decryptAesgcm c = o at hrel
    cases hrel
    rfl
  | some g =>
    cases hg' : P'.decryptAesgcm c with
    | none =>
      rw [hg, hg'] at hrel
      cases hrel
    | some g' =>
      -- both runs print the name after the same exchanges
      have hp := (h _ _).mp (emits_group_name hd hc hg)
      obtain ⟨-, rfl⟩ := Call.printf.inj (hp.unique (emits_group_name hd hc hg'))
      rfl

theorem users_of_indistinct (ht : Twins P P' Secret answers) {u u' : List β} (hu : Secret u u')
    {f f' : List β → Enclave β (Answer β)}
    (h : Indistinct (Answering answers) ((reencryptUserKey P u).bind f :: ps)
      ((reencryptUserKey P' u').bind f' :: ps') l) : u = u' ∨ Genuine P answers := by
  by_contra! hno
  obtain ⟨hne, hg⟩ := hno
  unfold Genuine at hg
  push Not at hg
  obtain ⟨d, hd, name, c, signature, hname, hc, hs, hwrong⟩ := hg
  have hp := (h _ _).mp (emits_user_name hd hname hc hs hwrong)
  rw [ht.hashName_eq hu] at hp
  rw [ht.user_eq hd hname hc] at hwrong
  exact hne (Call.printf.inj (hp.unique (emits_user_name hd hname hc hs hwrong))).2

theorem unprinted_of_indistinct (ht : Twins P P' Secret answers) (hq : q.Twin Secret q')
    (h : Indistinct (Answering answers) (q.prog P :: ps) (q'.prog P' :: ps') l) :
    Unprinted P P' answers q q' := by
  cases hq with
  | deleteUser hu => exact ⟨fun _ => sameNames_of_indistinct ht h, .inl rfl⟩
  | createGroup hg hu =>
    simp only [Request.prog, Op.prog, createGroup, Prog.bind_eq, Prog.bind_assoc] at h
    exact ⟨False.elim, (users_of_indistinct ht hu h).imp_left (congrArg some)⟩
  | addUserToGroup hg hu =>
    simp only [Request.prog, Op.prog, addUserToGroup, Prog.bind_eq, Prog.bind_assoc] at h
    exact ⟨False.elim, (users_of_indistinct ht hu h).imp_left (congrArg some)⟩
  | _ => exact ⟨False.elim, .inl rfl⟩

/-- The first requests can be ended alike, so what holds of the first pair holds of every pair. -/
theorem forall_unprinted (ht : Twins P P' Secret answers)
    (hqs : List.Forall₂ (Request.Twin Secret) qs qs')
    (h : Indistinct (Answering answers) (qs.map (Request.prog P)) (qs'.map (Request.prog P')) l) :
    List.Forall₂ (Unprinted P P' answers) qs qs' := by
  induction hqs generalizing l with
  | nil => exact .nil
  | @cons q q' qs qs' hq _ ih =>
    have hp := unprinted_of_indistinct ht hq h
    obtain ⟨A, halike⟩ := ht.alike_prog hq hp
    obtain ⟨r, l', hr, -⟩ : CanEnd (Answering answers) (fun _ _ => True) (q.prog P) l :=
      canEnd_prog P q l
    obtain ⟨r', hr'⟩ := halike.evals hr
    exact .cons hp (ih (h.tail hr hr'))

end Leaks

section Renaming

namespace Primitives

/-- The primitives of a run in which every letter of a secret stands for another one. -/
def renamed (P : Primitives β) (σ : β → β) : Primitives β where
  hmac x := P.hmac (x.map σ)
  encryptAesgcm iv data := P.encryptAesgcm iv (data.map σ)
  decryptAesgcm c := (P.decryptAesgcm c).map (List.map σ)

def doubled (P : Primitives ℕ) : Primitives ℕ where
  hmac x := (P.hmac x).map (2 * ·)
  encryptAesgcm iv data := (P.encryptAesgcm iv data).map (2 * ·)
  decryptAesgcm c :=
    if (c.map (· / 2)).map (2 * ·) = c then P.decryptAesgcm (c.map (· / 2)) else none

omit [DecidableEq β] in
theorem Ideal.renamed (hP : P.Ideal) {σ : β → β} (hσ : Function.Involutive σ) :
    (P.renamed σ).Ideal where
  hmac_injective x y h := hσ.injective.list_map (hP.hmac_injective h)
  decrypt_encrypt iv data := by
    simp [Primitives.renamed, hP.decrypt_encrypt, hσ.comp_self]

theorem Ideal.doubled {P : Primitives ℕ} (hP : P.Ideal) : P.doubled.Ideal where
  hmac_injective x y h := by
    have h := congrArg List.Vector.toList h
    simp only [Primitives.doubled, List.Vector.toList_map] at h
    refine hP.hmac_injective (List.Vector.toList_injective (List.map_injective_iff.mpr ?_ h))
    intro m n hmn
    have hmn : 2 * m = 2 * n := hmn
    omega
  decrypt_encrypt iv data := by
    have hhalf : ∀ c : List ℕ, (c.map (2 * ·)).map (· / 2) = c := by
      intro c
      simp [Function.comp_def]
    simp only [Primitives.doubled, hhalf, hP.decrypt_encrypt, ↓reduceIte]

end Primitives

variable {σ : β → β}

omit [DecidableEq β] in
theorem stream_map {fs : List (Feed β)} (h : ∀ f ∈ fs, f.bytes.map σ = f.bytes) :
    (stream fs).map σ = stream fs := by
  unfold stream
  rw [List.map_flatMap]
  exact List.flatMap_congr h

theorem computeGroupSignature_renamed {d : Doc β} {name : Option (Hashed β)}
    {key : Option (List β)} {isAdd : Bool} (hname : ∀ h, name = some h → h.toList.map σ = h.toList)
    (hkey : ∀ c, key = some c → c.map σ = c)
    (hd : ∀ dropped fs, feedDocument dropped d = some fs → ∀ f ∈ fs, f.bytes.map σ = f.bytes) :
    computeGroupSignature P d name key isAdd =
      computeGroupSignature (P.renamed σ) d name key isAdd := by
  unfold computeGroupSignature
  cases hfs : feedDocument (isDropped name isAdd) d with
  | none => rfl
  | some fs =>
    have hfixed : ∀ f ∈ fs ++ feedAdditional name key isAdd, f.bytes.map σ = f.bytes := by
      intro f hf
      rcases List.mem_append.mp hf with hf | hf
      · exact hd _ fs hfs f hf
      · unfold feedAdditional at hf
        split at hf
        · simp only [List.mem_cons, List.not_mem_nil, or_false] at hf
          rcases hf with rfl | rfl
          · exact hname _ rfl
          · exact hkey _ rfl
        · cases hf
    simp only [Option.bind_eq_bind, Option.bind_some, Primitives.renamed, stream_map hfixed]

def holding (P : Primitives β) (accounts : List (Account β)) (groups : List (Group β)) :
    Collection → Doc β → Prop
  | .users, d => ∃ a ∈ accounts, d = a.toDoc P
  | .groups, d => ∃ G ∈ groups, d = G.toDoc P

/-- Renaming letters that no hash and no ciphertext contains gives two runs to be compared. -/
theorem twins_renamed (hσ : Function.Involutive σ)
    (hhmac : ∀ x, (P.hmac x).toList.map σ = (P.hmac x).toList)
    (henc : ∀ iv data, (P.encryptAesgcm iv data).map σ = P.encryptAesgcm iv data)
    (accounts : List (Account β)) (groups : List (Group β)) :
    Twins P (P.renamed σ) (fun x x' => x' = x.map σ) (holding P accounts groups) where
  length_eq := by
    rintro x _ rfl
    simp
  hashName_eq := by
    rintro x _ rfl
    simp [hashName, Primitives.renamed, hσ.comp_self]
  hashName_salted_eq := by
    rintro u _ g _ rfl rfl
    simp [hashName, Primitives.renamed, hσ.comp_self]
  encrypt_eq := by
    rintro x _ rfl iv
    simp [Primitives.renamed, hσ.comp_self]
  decrypt_rel c := by
    simp only [Primitives.renamed]
    cases P.decryptAesgcm c with
    | none => exact .none
    | some x => exact .some rfl
  newUser_eq := by
    rintro u _ key _ rfl rfl iv
    simp [computeUserSignature, computeHmac2, Primitives.renamed, hashName, hhmac, henc]
  newGroup_eq := by
    rintro g _ u _ c rfl rfl ⟨iv', x, _, rfl, rfl⟩ iv
    unfold newGroup
    rw [groupSignature_signedFields, groupSignature_signedFields]
    simp [Primitives.renamed, hashName, hhmac, henc, Bytes.concat]
  user_eq := by
    rintro _ ⟨a, -, rfl⟩ name c hname hc
    obtain rfl := Option.some.inj (read_account_name.symm.trans hname)
    obtain rfl := Option.some.inj (read_account_key.symm.trans hc)
    simp [computeUserSignature, computeHmac2, Primitives.renamed, hashName, hhmac, henc]
  group_eq := by
    rintro _ ⟨G, -, rfl⟩ name key isAdd hname hkey
    apply computeGroupSignature_renamed
    · intro h hh
      obtain ⟨u, _, g, _, -, -, rfl⟩ := hname h hh
      exact hhmac _
    · intro c hc
      obtain ⟨iv, x, _, -, rfl⟩ := hkey c hc
      exact henc iv x
    · intro dropped fs hfs f hf
      rw [feedDocument_toDoc] at hfs
      obtain rfl := Option.some.inj hfs
      simp only [Group.entries, entryFeeds, List.mem_cons, List.mem_flatMap, List.mem_filter,
        List.mem_map, List.not_mem_nil, or_false] at hf
      rcases hf with rfl | rfl | ⟨_, ⟨⟨m, -, rfl⟩, -⟩, rfl | rfl⟩
      · exact hhmac _
      · exact henc _ _
      · exact hhmac _
      · exact henc _ _

omit [DecidableEq β] in
theorem sameNames_holding (hP : P.Ideal) {accounts : List (Account β)} {groups : List (Group β)}
    (h : ∀ G ∈ groups, G.name.map σ = G.name) :
    SameNames P (P.renamed σ) (holding P accounts groups) := by
  rintro _ ⟨G, hG, rfl⟩ c hc
  obtain rfl := Option.some.inj (read_group_encname.symm.trans hc)
  simp [Primitives.renamed, hP.decrypt_encrypt, h G hG]

omit [DecidableEq β] in
theorem genuine_holding {accounts : List (Account β)} {groups : List (Group β)} :
    Genuine P (holding P accounts groups) := by
  rintro _ ⟨a, -, rfl⟩ name c signature hname hc hs
  obtain rfl := Option.some.inj (read_account_name.symm.trans hname)
  obtain rfl := Option.some.inj (read_account_key.symm.trans hc)
  exact Option.some.inj (read_account_signature.symm.trans hs)

def swapOdd : ℕ → ℕ := Equiv.swap 1 3

theorem swapOdd_involutive : Function.Involutive swapOdd := Equiv.swap_apply_self 1 3

theorem map_swapOdd_even (c : List ℕ) : (c.map (2 * ·)).map swapOdd = c.map (2 * ·) := by
  rw [List.map_map]
  apply List.map_congr_left
  intro n _
  have h : 2 * n ≠ 1 ∧ 2 * n ≠ 3 := by omega
  exact Equiv.swap_apply_of_ne_of_ne h.1 h.2

theorem twins_swapOdd (accounts : List (Account ℕ)) (groups : List (Group ℕ)) :
    Twins Primitives.nat.doubled (Primitives.nat.doubled.renamed swapOdd)
      (fun x x' => x' = x.map swapOdd) (holding Primitives.nat.doubled accounts groups) := by
  apply twins_renamed swapOdd_involutive
  · intro x
    simp only [Primitives.doubled, List.Vector.toList_map, map_swapOdd_even]
  · intro iv data
    exact map_swapOdd_even _

def singleMember (P : Primitives ℕ) (g u : List ℕ) : Group ℕ :=
  ⟨1, g, [], [⟨u, List.replicate keySize 7, []⟩], List.nodup_singleton _,
    Vault.foundingSignature P g [] ⟨u, List.replicate keySize 7, []⟩⟩

end Renaming

/-- The untrusted side sees the same in both runs exactly when every deletion meets the same group
names in both, and every user whose record may be wrong has the same name in both. -/
theorem indistinguishable_iff (ht : Twins P P' Secret answers)
    (hqs : List.Forall₂ (Request.Twin Secret) qs qs') :
    Indistinguishable P P' answers qs qs' ↔ List.Forall₂ (Unprinted P P' answers) qs qs' := by
  constructor
  · exact forall_unprinted ht hqs
  · intro h
    apply indistinct_of_alike
    induction hqs with
    | nil => exact .nil
    | cons hq _ ih =>
      cases h with
      | cons hp hps => exact .cons (ht.alike_prog hq hp) (ih hps)

/-- The users `[1]` and `[3]` cannot be told apart by a store that holds the group `[5]`. -/
theorem indistinguishable_iff_sample :
    Indistinguishable Primitives.nat.doubled (Primitives.nat.doubled.renamed swapOdd)
      (holding Primitives.nat.doubled [⟨0, [1], List.replicate keySize 1, []⟩]
        [singleMember Primitives.nat.doubled [5] [1]])
      [.op (.createUser [1] (List.replicate keySize 1)), .op (.createGroup [1, 5] [1]),
        .op (.addUserToGroup [5] [1]), .isUserPartOfGroup [5] [1],
        .op (.removeUserFromGroup [5] [1]), .getKeysOfGroup [5], .op (.deleteUser [1]),
        .op .deleteAllData]
      [.op (.createUser [3] (List.replicate keySize 3)), .op (.createGroup [3, 5] [3]),
        .op (.addUserToGroup [5] [3]), .isUserPartOfGroup [5] [3],
        .op (.removeUserFromGroup [5] [3]), .getKeysOfGroup [5], .op (.deleteUser [3]),
        .op .deleteAllData] := by
  have hp : ∀ q q' : Request ℕ, Unprinted Primitives.nat.doubled
      (Primitives.nat.doubled.renamed swapOdd) (holding Primitives.nat.doubled
        [⟨0, [1], List.replicate keySize 1, []⟩] [singleMember Primitives.nat.doubled [5] [1]])
      q q' := by
    intro q q'
    constructor
    · intro _
      apply sameNames_holding Primitives.nat_ideal.doubled
      intro G hG
      obtain rfl := List.mem_singleton.mp hG
      rfl
    · exact .inr genuine_holding
  apply (indistinguishable_iff (twins_swapOdd _ _) ?_).mpr
  · exact .cons (hp _ _) (.cons (hp _ _) (.cons (hp _ _) (.cons (hp _ _) (.cons (hp _ _)
      (.cons (hp _ _) (.cons (hp _ _) (.cons (hp _ _) .nil)))))))
  · exact .cons (.createUser rfl rfl) (.cons (.createGroup rfl rfl) (.cons (.addUserToGroup rfl rfl)
      (.cons (.isUserPartOfGroup rfl rfl) (.cons (.removeUserFromGroup rfl rfl)
      (.cons (.getKeysOfGroup rfl) (.cons (.deleteUser rfl) (.cons .deleteAllData .nil)))))))

/-- The deletion of the user `[7]` tells a store of the group `[1]` from one of the group `[3]`. -/
theorem deletion_tells_groups_apart :
    Primitives.nat.doubled.Ideal ∧ (Primitives.nat.doubled.renamed swapOdd).Ideal ∧
    Twins Primitives.nat.doubled (Primitives.nat.doubled.renamed swapOdd)
      (fun x x' => x' = x.map swapOdd)
      (holding Primitives.nat.doubled [] [singleMember Primitives.nat.doubled [1] [7]]) ∧
    List.Forall₂ (Request.Twin fun x x' => x' = x.map swapOdd) [.op (.deleteUser [7])]
      [.op (.deleteUser [7])] ∧
    ¬ Indistinguishable Primitives.nat.doubled (Primitives.nat.doubled.renamed swapOdd)
      (holding Primitives.nat.doubled [] [singleMember Primitives.nat.doubled [1] [7]])
      [.op (.deleteUser [7])] [.op (.deleteUser [7])] := by
  have hP := Primitives.nat_ideal.doubled
  refine ⟨hP, hP.renamed swapOdd_involutive, twins_swapOdd _ _, .cons (.deleteUser rfl) .nil, ?_⟩
  intro h
  have hn := sameNames_of_indistinct (twins_swapOdd _ _) h
  let G := singleMember Primitives.nat.doubled [1] [7]
  have hname := hn (G.toDoc Primitives.nat.doubled) ⟨G, List.mem_singleton.mpr rfl, rfl⟩
    (G.encname Primitives.nat.doubled) rfl
  simp only [Primitives.renamed, Group.encname, hP.decrypt_encrypt, Option.map_some,
    Option.some.injEq] at hname
  revert hname
  decide

end MongoSgx
