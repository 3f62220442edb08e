import MongoSgx.Interaction.Alike
import MongoSgx.Transcript.Calls

/-! # Two runs that differ in the secrets

The operations are run twice, with different names and keys of the same lengths.
Pseudonyms, ciphertexts and signatures come out the same in both runs, and
decryption gives each run its own plaintext. What the driver is handed is then the
same in both, as long as nothing that differs is printed.
-/

namespace MongoSgx

open Bson Interaction

variable {β : Type}

/-- Reads of the store are answered with the given documents, and the cursor stays where it was
opened. Every other reply is free. -/
def Answering (answers : Collection → Doc β → Prop) : Line β → Prop
  | ⟨.cursorNext cursor, r⟩ =>
    (∀ d, r.1 = some d → answers cursor.collection d) ∧ r.2.collection = cursor.collection
  | _ => True

section Definitions

variable (P P' : Primitives β) (Secret : List β → List β → Prop)

def Pseudonym (h : Hashed β) : Prop :=
  ∃ u u' g g', Secret u u' ∧ Secret g g' ∧ h = hashName P u (some g)

def Sealed (c : List β) : Prop := ∃ iv x x', Secret x x' ∧ c = P.encryptAesgcm iv x

/-- Primitives of two runs that give the same values where one run has a secret and the other its
counterpart. Signatures agree on what the operations sign: the records and groups they make, and
the answered documents, also with a member added or dropped. -/
structure Twins [DecidableEq β] (answers : Collection → Doc β → Prop) : Prop where
  length_eq : ∀ {x x'}, Secret x x' → x.length = x'.length
  hashName_eq : ∀ {x x'}, Secret x x' → hashName P x none = hashName P' x' none
  hashName_salted_eq : ∀ {u u' g g'}, Secret u u' → Secret g g' →
    hashName P u (some g) = hashName P' u' (some g')
  encrypt_eq : ∀ {x x'}, Secret x x' → ∀ iv, P.encryptAesgcm iv x = P'.encryptAesgcm iv x'
  decrypt_rel : ∀ c, Option.Rel Secret (P.decryptAesgcm c) (P'.decryptAesgcm c)
  newUser_eq : ∀ {u u' key key'}, Secret u u' → Secret key key' → ∀ iv,
    computeUserSignature P (hashName P u none).toList (P.encryptAesgcm iv key) =
      computeUserSignature P' (hashName P u none).toList (P.encryptAesgcm iv key)
  newGroup_eq : ∀ {g g' u u' c}, Secret g g' → Secret u u' → Sealed P Secret c → ∀ iv,
    groupSignature P (newGroup P g u c iv) = groupSignature P' (newGroup P g u c iv)
  user_eq : ∀ {d}, answers .users d → ∀ {name c}, (Iter.initFind d "name").binary = some name →
    (Iter.initFind d "key").binary = some c →
    computeUserSignature P name c = computeUserSignature P' name c
  group_eq : ∀ {d}, answers .groups d → ∀ {name key isAdd},
    (∀ h, name = some h → Pseudonym P Secret h) → (∀ c, key = some c → Sealed P Secret c) →
    computeGroupSignature P d name key isAdd = computeGroupSignature P' d name key isAdd

inductive Request.Twin : Request β → Request β → Prop
  | createUser {u u' key key' : List β} (hu : Secret u u') (hkey : Secret key key') :
      Twin (.op (.createUser u key)) (.op (.createUser u' key'))
  | createGroup {g g' u u' : List β} (hg : Secret g g') (hu : Secret u u') :
      Twin (.op (.createGroup g u)) (.op (.createGroup g' u'))
  | addUserToGroup {g g' u u' : List β} (hg : Secret g g') (hu : Secret u u') :
      Twin (.op (.addUserToGroup g u)) (.op (.addUserToGroup g' u'))
  | removeUserFromGroup {g g' u u' : List β} (hg : Secret g g') (hu : Secret u u') :
      Twin (.op (.removeUserFromGroup g u)) (.op (.removeUserFromGroup g' u'))
  | deleteUser {u u' : List β} (hu : Secret u u') :
      Twin (.op (.deleteUser u)) (.op (.deleteUser u'))
  | deleteAllData : Twin (.op .deleteAllData) (.op .deleteAllData)
  | getKeysOfGroup {g g' : List β} (hg : Secret g g') :
      Twin (.getKeysOfGroup g) (.getKeysOfGroup g')
  | isUserPartOfGroup {g g' u u' : List β} (hg : Secret g g') (hu : Secret u u') :
      Twin (.isUserPartOfGroup g u) (.isUserPartOfGroup g' u')

/-- Nothing handed to the untrusted side tells the two sequences of requests apart: after the same
exchanges with the store, both hand over the same call next. -/
def Indistinguishable [DecidableEq β] (answers : Collection → Doc β → Prop)
    (qs qs' : List (Request β)) : Prop :=
  Indistinct (Answering answers) (qs.map (Request.prog P)) (qs'.map (Request.prog P')) []

def SameNames (answers : Collection → Doc β → Prop) : Prop :=
  ∀ d, answers .groups d → ∀ c, (Iter.initFind d "encname").binary = some c →
    P.decryptAesgcm c = P'.decryptAesgcm c

def Genuine (answers : Collection → Doc β → Prop) : Prop :=
  ∀ d, answers .users d → ∀ name c signature, (Iter.initFind d "name").binary = some name →
    (Iter.initFind d "key").binary = some c →
    (Iter.initFind d "signature").binary = some signature →
    (computeUserSignature P name c).toList = signature

end Definitions

def Request.Sweeps : Request β → Prop
  | .op (.deleteUser _) => True
  | _ => False

def Request.reencrypted : Request β → Option (List β)
  | .op (.createGroup _ userName) | .op (.addUserToGroup _ userName) => some userName
  | _ => none

/-- Nothing that differs is printed: a deletion meets the same group names in both runs, and a user
whose record is wrong has the same name in both. -/
structure Unprinted (P P' : Primitives β) (answers : Collection → Doc β → Prop)
    (q q' : Request β) : Prop where
  groups : q.Sweeps → SameNames P P' answers
  users : q.reencrypted = q'.reencrypted ∨ Genuine P answers

namespace Twins

variable [DecidableEq β] {P P' : Primitives β} {Secret : List β → List β → Prop}
  {answers : Collection → Doc β → Prop} {g g' u u' key key' c : List β} {d : Doc β}

theorem encryptData_eq (ht : Twins P P' Secret answers) {x x' : List β} (hx : Secret x x') :
    encryptData P x = encryptData P' x' := by
  simp only [encryptData, ht.encrypt_eq hx]

theorem alike_decryptData (ht : Twins P P' Secret answers) :
    Alike (Answering answers) Secret (decryptData P c) (decryptData P' c) := by
  unfold decryptData
  have h := ht.decrypt_rel c
  generalize P.decryptAesgcm c = o, P'.decryptAesgcm c = o' at h
  cases h with
  | some h => exact .pure h
  | none => exact .throw _

theorem validate_eq (ht : Twins P P' Secret answers) (hd : answers .groups d) :
    validateGroupSignature P d = validateGroupSignature P' d := by
  have h : groupSignature P d = groupSignature P' d := ht.group_eq hd nofun nofun
  simp only [validateGroupSignature, h]

omit [DecidableEq β] in
theorem pseudonym (hu : Secret u u') (hg : Secret g g') :
    ∀ h, some (hashName P u (some g)) = some h → Pseudonym P Secret h := by
  rintro h ⟨⟩
  exact ⟨u, u', g, g', hu, hg, rfl⟩

/-- Fetching a key tells nothing, unless it prints a name that differs. -/
theorem alike_reencryptUserKey (ht : Twins P P' Secret answers) (hu : Secret u u')
    (hp : u = u' ∨ Genuine P answers) :
    Alike (Answering answers) (fun c c' => c = c' ∧ Sealed P Secret c) (reencryptUserKey P u)
      (reencryptUserKey P' u') := by
  unfold reencryptUserKey
  rw [ht.hashName_eq hu]
  simp only [create, destroy, cursorNext, Prog.bind_eq, Prog.request_bind]
  refine .call fun _ _ => .call fun _ _ => .call fun _ _ => .call fun _ _ => .call fun _ _ =>
    .call ?_
  rintro ⟨_ | d, cur⟩ hr
  · exact .throw _
  · have hd : answers .users d := hr.1 d rfl
    apply Alike.bind_same
    intro _
    cases hname : (Iter.initFind d "name").binary with
    | none => exact .throw _
    | some name =>
      cases hc : (Iter.initFind d "key").binary with
      | none => exact .throw _
      | some c =>
        cases hs : (Iter.initFind d "signature").binary with
        | none => exact .throw _
        | some signature =>
          simp only [read_some, Prog.pure_bind, ← ht.user_eq hd hname hc]
          split
          · apply ht.alike_decryptData.bind
            intro key key' hkey
            rw [← ht.encryptData_eq hkey]
            refine .call fun iv _ => .call fun _ _ => .pure ⟨rfl, iv, key, key', hkey, rfl⟩
          · rename_i hwrong
            obtain rfl := hp.resolve_right fun hg => hwrong (hg d hd _ _ _ hname hc hs)
            exact .call fun _ _ => .call fun _ _ => .throw _

theorem alike_editAttempts (ht : Twins P P' Secret answers) {edit : GroupEdit β}
    {sign' : Doc β → Option (Hashed β)} (hsign : ∀ d, answers .groups d → edit.sign d = sign' d)
    (n : ℕ) : Alike (Answering answers) Eq (editAttempts P edit n)
      (editAttempts P' { edit with sign := sign' } n) := by
  induction n with
  | zero => exact .throw _
  | succ n ih =>
    simp only [editAttempts, create, destroy, cursorNext, updateOne, Prog.bind_eq,
      Prog.request_bind]
    refine .call fun _ _ => .call fun _ _ => .call ?_
    rintro ⟨_ | d, cur⟩ hr
    · exact .refl _
    · have hd : answers .groups d := hr.1 d rfl
      dsimp only
      rw [← ht.validate_eq hd, ← hsign d hd]
      apply Alike.bind_same
      rintro (_ | _)
      · exact .refl _
      · apply Alike.bind_same
        intro signature
        apply Alike.bind_same
        intro newSignature
        refine .call fun _ _ => .call fun _ _ => .call fun status _ => .call fun _ _ =>
          .call fun _ _ => .call fun _ _ => ?_
        -- whatever the answer to the update, both stop or both try again
        cases status with
        | ok reply =>
          apply Alike.bind_same
          intro matchedCount
          refine .call fun _ _ => ?_
          split
          · exact .refl _
          · exact ih
        | error e =>
          refine .call fun _ _ => ?_
          apply Alike.bind_same
          intro _
          exact .call fun _ _ => ih

theorem alike_addUserToGroupWithKey (ht : Twins P P' Secret answers) (hg : Secret g g')
    (hu : Secret u u') (hc : Sealed P Secret c) : Alike (Answering answers) Eq
      (addUserToGroupWithKey P g u c) (addUserToGroupWithKey P' g' u' c) := by
  have hedit : addEdit P' g' u' c =
      { addEdit P g u c with sign := (addEdit P' g' u' c).sign } := by
    simp only [addEdit, ht.hashName_eq hg, ht.hashName_salted_eq hu hg]
  unfold addUserToGroupWithKey
  rw [hedit]
  apply ht.alike_editAttempts
  intro d hd
  simp only [addEdit, ← ht.hashName_salted_eq hu hg]
  apply ht.group_eq hd (pseudonym hu hg)
  rintro c ⟨⟩
  exact hc

theorem alike_removeUserFromGroup (ht : Twins P P' Secret answers) (hg : Secret g g')
    (hu : Secret u u') : Alike (Answering answers) Eq
      (removeUserFromGroup P g u) (removeUserFromGroup P' g' u') := by
  have hedit : removeEdit P' g' u' =
      { removeEdit P g u with sign := (removeEdit P' g' u').sign } := by
    simp only [removeEdit, ht.hashName_eq hg, ht.hashName_salted_eq hu hg]
  unfold removeUserFromGroup
  rw [hedit]
  apply ht.alike_editAttempts
  intro d hd
  simp only [removeEdit, ← ht.hashName_salted_eq hu hg]
  exact ht.group_eq hd (pseudonym hu hg) nofun

theorem alike_addUserToGroup (ht : Twins P P' Secret answers) (hg : Secret g g')
    (hu : Secret u u') (hp : u = u' ∨ Genuine P answers) : Alike (Answering answers) Eq
      (addUserToGroup P g u) (addUserToGroup P' g' u') := by
  apply (ht.alike_reencryptUserKey hu hp).bind
  rintro c _ ⟨rfl, hc⟩
  exact ht.alike_addUserToGroupWithKey hg hu hc

theorem alike_createGroup (ht : Twins P P' Secret answers) (hg : Secret g g')
    (hu : Secret u u') (hp : u = u' ∨ Genuine P answers) : Alike (Answering answers) Eq
      (createGroup P g u) (createGroup P' g' u') := by
  apply (ht.alike_reencryptUserKey hu hp).bind
  rintro c _ ⟨rfl, hc⟩
  rw [← ht.encryptData_eq hg, ← ht.hashName_eq hg, ← ht.hashName_salted_eq hu hg]
  refine .call fun iv _ => .call fun _ _ => ?_
  have hsign := ht.newGroup_eq hg hu hc iv
  simp only [newGroup, signedFields, List.map_cons, List.map_nil, entryValue] at hsign
  rw [← hsign]
  apply Alike.bind_same
  intro signature
  refine .call fun status _ => .call fun _ _ => ?_
  cases status with
  | ok _ => exact .refl _
  | error e =>
    dsimp only
    split
    · exact ht.alike_addUserToGroupWithKey hg hu hc
    · exact .refl _

theorem alike_createUser (ht : Twins P P' Secret answers) (hu : Secret u u')
    (hkey : Secret key key') : Alike (Answering answers) Eq (createUser P u key)
      (createUser P' u' key') := by
  unfold createUser
  rw [← ht.encryptData_eq hkey, ← ht.hashName_eq hu]
  simp only [encryptData, Prog.bind_eq, Prog.request_bind, Prog.call_bind, Prog.pure_eq,
    Prog.pure_bind]
  refine .call fun iv _ => ?_
  rw [← ht.newUser_eq hu hkey iv]
  exact .refl _

theorem alike_sweepRound (ht : Twins P P' Secret answers) (hn : SameNames P P' answers)
    (hu : Secret u u') {cursor : Cursor β} {bulk : Bulk β} (hcursor : cursor.collection = .groups) :
    Alike (Answering answers)
      (Sum.LiftRel (fun s s' => s = s' ∧ s.1.collection = .groups) Eq)
      (sweepRound P u (cursor, bulk)) (sweepRound P' u' (cursor, bulk)) := by
  simp only [sweepRound, cursorNext, printf, create, destroy, Prog.bind_eq, Prog.request_bind,
    Prog.pure_eq]
  refine .call ?_
  rintro ⟨_ | d, cur⟩ ⟨hd, hcur⟩
  · exact .pure (.inr rfl)
  · have hd : answers .groups d := hcursor ▸ hd d rfl
    dsimp only
    cases hc : (Iter.initFind d "encname").binary with
    | none => exact .throw _
    | some c =>
      have hrel := ht.decrypt_rel c
      simp only [read_some, Prog.pure_bind, decryptData, ← hn d hd c hc] at hrel ⊢
      cases hg : P.decryptAesgcm c with
      | none => exact .throw _
      | some g =>
        have hgg : Secret g g := by
          rw [hg] at hrel
          cases hrel with
          | some h => exact h
        simp only [Prog.pure_bind, ← ht.hashName_salted_eq hu hgg, ← ht.validate_eq hd]
        refine .call fun _ _ => ?_
        apply Alike.bind_same
        rintro (_ | _)
        · exact .throw _
        · have hsign : computeGroupSignature P d (some (hashName P u (some g))) none false =
              computeGroupSignature P' d (some (hashName P u (some g))) none false :=
            ht.group_eq hd (pseudonym hu hgg) (by simp)
          simp only [Bool.not_true, Bool.false_eq_true, ↓reduceIte, ← hsign]
          apply Alike.bind_same
          intro newSignature
          exact .call fun _ _ => .call fun _ _ => .pure (.inl ⟨rfl, hcur.trans hcursor⟩)

theorem alike_deleteUser (ht : Twins P P' Secret answers) (hn : SameNames P P' answers)
    (hu : Secret u u') : Alike (Answering answers) Eq (deleteUser P u) (deleteUser P' u') := by
  have hloop : ∀ s s' : Cursor β × Bulk β, s = s' ∧ s.1.collection = .groups →
      Alike (Answering answers) (Sum.LiftRel (fun s s' => s = s' ∧ s.1.collection = .groups) Eq)
        (sweepRound P u s) (sweepRound P' u' s') := by
    rintro ⟨cursor, bulk⟩ _ ⟨rfl, hcursor⟩
    exact ht.alike_sweepRound hn hu hcursor
  have hsweep : Alike (Answering answers) Eq (removeUserFromAllGroups P u)
      (removeUserFromAllGroups P' u') := by
    refine .call fun _ _ => .call fun _ _ => .call fun _ _ => .call fun _ _ => .call fun _ _ =>
      .call fun _ _ => .loop _ _ ⟨rfl, rfl⟩ hloop ?_
    rintro bulk _ rfl
    exact .refl _
  apply hsweep.bind
  rintro _ _ -
  rw [ht.hashName_eq hu]
  exact .refl _

theorem alike_readKeys (ht : Twins P P' Secret answers) (it : Option (Iter β)) (array : Doc β) :
    Alike (Answering answers) (fun _ _ => True) (readKeys P it array) (readKeys P' it array) := by
  induction array generalizing it with
  | nil => exact .pure trivial
  | cons entry array ih =>
    simp only [readKeys, Prog.bind_eq]
    apply Alike.bind_same
    intro userDocumentIter
    apply Alike.bind_same
    intro keyBinary
    apply ht.alike_decryptData.bind
    intro key key' hkey
    have hlen := ht.length_eq hkey
    by_cases h : key.length = keySize
    · rw [dif_pos h, dif_pos (hlen.symm.trans h)]
      exact (ih _).bind fun _ _ _ => .pure trivial
    · rw [dif_neg h, dif_neg fun h' => h (hlen.trans h')]
      exact .throw _

theorem alike_getKeysOfGroup (ht : Twins P P' Secret answers) (hg : Secret g g') :
    Alike (Answering answers) (fun _ _ => True) (getKeysOfGroup P g) (getKeysOfGroup P' g') := by
  unfold getKeysOfGroup
  rw [ht.hashName_eq hg]
  refine .call fun _ _ => .call fun _ _ => .call fun _ _ => .call fun _ _ => .call ?_
  rintro ⟨_ | d, cur⟩ hr
  · exact .call fun _ _ => .call fun _ _ => .throw _
  · have hd : answers .groups d := hr.1 d rfl
    simp only [Prog.bind_eq, Prog.pure_bind, ← ht.validate_eq hd]
    apply Alike.bind_same
    rintro (_ | _)
    · exact .call fun _ _ => .throw _
    · apply Alike.bind_same
      intro arrayIter
      exact (ht.alike_readKeys none arrayIter.rest).bind fun _ _ _ => .call fun _ _ => .pure trivial

theorem alike_isUserPartOfGroup (ht : Twins P P' Secret answers) (hg : Secret g g')
    (hu : Secret u u') : Alike (Answering answers) Eq (isUserPartOfGroup P g u)
      (isUserPartOfGroup P' g' u') := by
  unfold isUserPartOfGroup
  rw [ht.hashName_eq hg, ht.hashName_salted_eq hu hg]
  exact .refl _

theorem alike_prog (ht : Twins P P' Secret answers) {q q' : Request β} (hq : q.Twin Secret q')
    (hp : Unprinted P P' answers q q') :
    ∃ A, Alike (Answering answers) A (q.prog P) (q'.prog P') := by
  have hop : ∀ {p p' : Enclave β Unit}, Alike (Answering answers) Eq p p' →
      Alike (Answering answers) Eq (p.bind fun _ => (.pure .done : Enclave β (Answer β)))
        (p'.bind fun _ => .pure .done) :=
    fun h => h.bind fun _ _ _ => .refl _
  cases hq with
  | createUser hu hkey => exact ⟨Eq, hop (ht.alike_createUser hu hkey)⟩
  | createGroup hg hu =>
    exact ⟨Eq, hop (ht.alike_createGroup hg hu (hp.users.imp_left Option.some.inj))⟩
  | addUserToGroup hg hu =>
    exact ⟨Eq, hop (ht.alike_addUserToGroup hg hu (hp.users.imp_left Option.some.inj))⟩
  | removeUserFromGroup hg hu => exact ⟨Eq, hop (ht.alike_removeUserFromGroup hg hu)⟩
  | deleteUser hu => exact ⟨Eq, hop (ht.alike_deleteUser (hp.groups trivial) hu)⟩
  | deleteAllData => exact ⟨Eq, hop (.refl _)⟩
  | getKeysOfGroup hg =>
    exact ⟨fun _ _ => True, (ht.alike_getKeysOfGroup hg).bind fun _ _ _ => .pure trivial⟩
  | isUserPartOfGroup hg hu =>
    exact ⟨Eq, (ht.alike_isUserPartOfGroup hg hu).bind fun _ _ h => .pure (congrArg _ h)⟩

end Twins

end MongoSgx
