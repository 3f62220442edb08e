import MongoSgx.Signature.Agreement
import MongoSgx.Store.Steps

/-! # What the operations make of documents

Between two calls an operation looks at the document it has got, and stops there or
goes on with what it has found. The documents that it accepts, and those that it
sends, do not depend on who answers the calls. The documents of an honest store are
accepted as soon as they are signed.
-/

namespace MongoSgx

open Bson Interaction

variable {β α : Type}

section Contents

variable (P : Primitives β)

def keyHeld (c : List β) : Option (Key β) := do
  let key ← P.decryptAesgcm c
  if h : key.length = keySize then some ⟨key, h⟩ else none

def keysHeld (d : Doc β) : Option (List (Key β)) := do
  let cs ← keysRead d
  cs.mapM (keyHeld P)

/-- The key in a user record, if the signature of the record is right. -/
def recordKey [DecidableEq β] (d : Doc β) : Option (List β) := do
  let name ← (Iter.initFind d "name").binary
  let c ← (Iter.initFind d "key").binary
  let signature ← (Iter.initFind d "signature").binary
  if (computeUserSignature P name c).toList = signature then P.decryptAesgcm c else none

end Contents

variable {P : Primitives β}

theorem mem_of_mapM {γ : Type} {f : α → Option γ} {l : List α} {ys : List γ} {y : γ}
    (h : l.mapM f = some ys) (hy : y ∈ ys) : ∃ a ∈ l, f a = some y := by
  induction l generalizing ys with
  | nil =>
    obtain rfl := Option.some.inj h
    cases hy
  | cons a l ih =>
    rw [List.mapM_cons] at h
    obtain ⟨x, hx, h⟩ := Option.bind_eq_some_iff.mp h
    obtain ⟨xs, hxs, h⟩ := Option.bind_eq_some_iff.mp h
    obtain rfl := Option.some.inj h
    rcases List.mem_cons.mp hy with rfl | hy
    · exact ⟨a, List.mem_cons_self .., hx⟩
    · obtain ⟨b, hb, hy⟩ := ih hxs hy
      exact ⟨b, List.mem_cons_of_mem _ hb, hy⟩

theorem decryptKeys_cases (P : Primitives β) (cs : List (List β)) :
    (∃ ks, cs.mapM (keyHeld P) = some ks ∧ decryptKeys P cs = .pure ks) ∨
      (cs.mapM (keyHeld P) = none ∧ ∃ e, decryptKeys P cs = .throw e) := by
  induction cs with
  | nil => exact .inl ⟨[], rfl, rfl⟩
  | cons c cs ih =>
    rw [decryptKeys, List.mapM_cons]
    cases hk : P.decryptAesgcm c with
    | none =>
      refine .inr ⟨by simp [keyHeld, hk], ?_⟩
      simp [decryptData, hk, throw]
    | some key =>
      by_cases hlen : key.length = keySize
      · have hheld : keyHeld P c = some ⟨key, hlen⟩ := by simp [keyHeld, hk, hlen]
        rcases ih with ⟨ks, hks, hr⟩ | ⟨hks, e, hr⟩
        · refine .inl ⟨⟨key, hlen⟩ :: ks, ?_, by simp [decryptData, hk, hlen, hr]⟩
          rw [hheld, hks]
          rfl
        · exact .inr ⟨by simp [hheld, hks], e, by simp [decryptData, hk, hlen, hr]⟩
      · refine .inr ⟨by simp [keyHeld, hk, hlen], ?_⟩
        simp [decryptData, hk, hlen, throw]

theorem readKeys_of_none {it : Option (Iter β)} {array : Doc β}
    (h : Rounds.run keyRead it array = none) : ∃ e, readKeys P it array = .throw e := by
  induction array generalizing it with
  | nil => cases h
  | cons entry array ih =>
    rcases keyRead_cases it entry with ⟨hnone, -⟩ | ⟨jt, c, hsome, -⟩
    · exact ⟨_, readKeys_of_keyRead_none hnone array⟩
    · rw [readKeys_of_keyRead hsome]
      have hrest : Rounds.run keyRead jt array = none := by
        simpa [Rounds.run_cons, hsome] using h
      obtain ⟨e, he⟩ := ih hrest
      cases hk : P.decryptAesgcm c with
      | none => simp [decryptData, hk, throw]
      | some key =>
        by_cases hlen : key.length = keySize
        · exact ⟨e, by simp [decryptData, hk, hlen, he]⟩
        · simp [decryptData, hk, hlen, throw]

/-- The loop over the entries returns the keys in them, or ends without returning. -/
theorem readKeys_cases (P : Primitives β) (it : Option (Iter β)) (array : Doc β) :
    (∃ ks, (((Rounds.run keyRead it array).map Prod.snd).bind fun cs => cs.mapM (keyHeld P)) =
        some ks ∧ readKeys P it array = .pure ks) ∨
      ((((Rounds.run keyRead it array).map Prod.snd).bind fun cs => cs.mapM (keyHeld P)) = none ∧
        ∃ e, readKeys P it array = .throw e) := by
  cases hrun : Rounds.run keyRead it array with
  | none => exact .inr ⟨rfl, readKeys_of_none hrun⟩
  | some x =>
    rw [readKeys_eq_decryptKeys P hrun]
    exact decryptKeys_cases P x.2

section Accepted

variable [DecidableEq β]

def EditOf (P : Primitives β) (edit : GroupEdit β) (d : Doc β) (sel : Selector β)
    (upd : Update β) : Prop :=
  validateGroupSignature P d = some true ∧ ∃ signature newSignature,
    (Iter.initFind d "signature").binary = some signature ∧ edit.sign d = some newSignature ∧
    sel = edit.selector ++ [(["signature"], .eq (.binary signature))] ∧
    upd = edit.update newSignature

def EditStop (P : Primitives β) (edit : GroupEdit β) (d : Doc β) (e : Stop) : Prop :=
  (e = .fault ∨ e = .thrown edit.invalid) ∧ ∀ sel upd, ¬ EditOf P edit d sel upd

/-- How fetching a key stops at a user record. -/
def RecordStop (P : Primitives β) (d : Doc β) (cur : Cursor β) (e : Stop) : Prop :=
  (∃ e' : BsonError, cur.error = some e' ∧ e'.code ≠ 0 ∧ e = .thrown e') ∨
    recordKey P d = none ∧ (e = .fault ∨
      e = .thrown (bsonError "Error in signature validation" 569) ∨
      e = .thrown (bsonError "Error decrypting data" 603))

def SweepOf (P : Primitives β) (u : List β) (d : Doc β) (op : Selector β × Update β) : Prop :=
  validateGroupSignature P d = some true ∧ ∃ c g s, (Iter.initFind d "encname").binary = some c ∧
    P.decryptAesgcm c = some g ∧
    computeGroupSignature P d (some (hashName P u (some g))) none false = some s ∧
    op = (Selector.ofDoc d, pullUpdate (hashName P u (some g)) s)

def SweepStop (P : Primitives β) (u : List β) (d : Doc β) (e : Stop) : Prop :=
  (e = .fault ∨ e = .thrown (bsonError "Error decrypting data" 603) ∨
    e = .thrown (bsonError "Error in signature validation" 349)) ∧ ∀ op, ¬ SweepOf P u d op

def KeysOf (P : Primitives β) (d : Doc β) (ks : List (Key β)) : Prop :=
  validateGroupSignature P d = some true ∧ keysHeld P d = some ks

/-- How fetching the keys stops at a document that is not accepted, or at its entries. -/
inductive KeysStop (P : Primitives β) (d : Doc β) : Stop → Prop
  | malformed (h : validateGroupSignature P d = none) : KeysStop P d .fault
  | invalid (h : validateGroupSignature P d = some false) :
      KeysStop P d (.thrown (bsonError "Error in signature validation" 491))
  | noArray (h : (Iter.initFind d "users").recurse none = none) : KeysStop P d .fault
  | entries {it : Iter β} {e : Stop} (h : (Iter.initFind d "users").recurse none = some it)
      (hread : readKeys P none it.rest = .throw e) : KeysStop P d e

theorem KeysStop.not_keysOf {d : Doc β} {e : Stop} (h : KeysStop P d e) (ks : List (Key β)) :
    ¬ KeysOf P d ks := by
  rintro ⟨hvalid, hks⟩
  cases h with
  | malformed h => cases hvalid.symm.trans h
  | invalid h => cases hvalid.symm.trans h
  | noArray h => simp [keysHeld, keysRead, h] at hks
  | @entries it _ h hread =>
    rcases readKeys_cases P none it.rest with ⟨ks', -, hr⟩ | ⟨hno, -⟩
    · cases hread.symm.trans hr
    · simp only [keysHeld, keysRead, h] at hks
      cases hks.symm.trans hno

end Accepted

def matchedCount (reply : Doc β) : Option ℤ := (Iter.initFind reply "matchedCount").int64

section Sent

variable {g u : List β}

def newGroup (P : Primitives β) (g u c iv : List β) : Doc β :=
  signedFields (hashName P g none).toList (P.encryptAesgcm iv g)
    [((hashName P u (some g)).toList, c)]

def newGroupDoc (P : Primitives β) (g u c iv : List β) : Doc β :=
  newGroup P g u c iv ++ [("signature", .binary (P.hmac ((hashName P g none).toList ++
    P.encryptAesgcm iv g ++ Bytes.concat [((hashName P u (some g)).toList, c)])).toList)]

theorem groupSignature_newGroup [DecidableEq β] (c iv : List β) : groupSignature P (newGroup P g u c iv) =
    some (P.hmac ((hashName P g none).toList ++ P.encryptAesgcm iv g ++
      Bytes.concat [((hashName P u (some g)).toList, c)])) := groupSignature_signedFields _ _ _

/-- The rest of `create_group` after the key of the user has been fetched. -/
def createGroupWithKey [DecidableEq β] (P : Primitives β) (groupName userName
    userKeyReencrypted : List β) : Enclave β Unit := do
  let encryptedGroupName ← encryptData P groupName
  let document := [("name", .binary (hashName P groupName none).toList),
    ("encname", .binary encryptedGroupName),
    ("users", .array [.document
      [("name", .binary (hashName P userName (some groupName)).toList),
        ("key", .binary userKeyReencrypted)]])]
  create .document
  let signature ← read (groupSignature P document)
  let status ← insertOne .groups (document ++ [("signature", .binary signature.toList)])
  destroy .document
  match status with
  | .ok () => return ()
  | .error e =>
    if e.code = mongocErrorDuplicateKey then
      addUserToGroupWithKey P groupName userName userKeyReencrypted
    else throwPotentialError e

theorem createGroup_eq [DecidableEq β] : createGroup P g u =
    (reencryptUserKey P u).bind (createGroupWithKey P g u) := rfl

def newUserDoc (P : Primitives β) (u key iv : List β) : Doc β :=
  [("name", .binary (hashName P u none).toList), ("key", .binary (P.encryptAesgcm iv key)),
    ("signature", .binary (computeUserSignature P (hashName P u none).toList
      (P.encryptAesgcm iv key)).toList)]

end Sent

section Genuine

variable [DecidableEq β] {G : Group β} {c : Change β} {u : List β}

omit [DecidableEq β] in
theorem keysHeld_toDoc (hP : P.Ideal) {G : Group β} (hG : G.KeySized) :
    ∃ ks, keysHeld P (G.toDoc P) = some ks ∧
      ks.map List.Vector.toList = G.members.map Member.key := by
  obtain ⟨arrayIter, harray, hsnd⟩ := read_group_users (P := P) (G := G)
  obtain ⟨ks, hks, hmap⟩ := readKeys_members hP hsnd hG
  refine ⟨ks, ?_, hmap⟩
  rcases readKeys_cases P none arrayIter.rest with ⟨ks', hks', hr⟩ | ⟨-, e, hr⟩
  · obtain rfl := Prog.pure.inj ((hks none).symm.trans hr)
    unfold keysHeld keysRead
    rw [harray]
    exact hks'
  · cases (hks none).symm.trans hr

theorem recordKey_toDoc (hP : P.Ideal) (a : Account β) : recordKey P (a.toDoc P) = some a.key := by
  simp [recordKey, hP.decrypt_encrypt]

theorem exists_editOf_toDoc {G : Group β} (hG : G.Signed P) (edit : GroupEdit β)
    (hedit : ∃ s, edit.sign (G.toDoc P) = some s) :
    ∃ sel upd, EditOf P edit (G.toDoc P) sel upd := by
  obtain ⟨s, hs⟩ := hedit
  refine ⟨_, _, ?_, _, s, read_group_signature, hs, rfl, rfl⟩
  rw [validateGroupSignature_toDoc, decide_eq_true hG]

theorem exists_sign_toDoc {G : Group β} {name : Option (Hashed β)} {key : Option (List β)}
    {isAdd : Bool} : ∃ s, computeGroupSignature P (G.toDoc P) name key isAdd = some s := by
  simp [computeGroupSignature, feedDocument_toDoc]

theorem editOf_toDoc (hP : P.Ideal) (hc : c.Applies G) {sel : Selector β} {upd : Update β} :
    EditOf P (c.groupEdit P G.name) (G.toDoc P) sel upd ↔ G.Signed P ∧
      sel = (c.groupEdit P G.name).selector ++
        [(["signature"], .eq (.binary G.signature.toList))] ∧
      upd = (c.groupEdit P G.name).update (G.nextSignature P c) := by
  simp [EditOf, validateGroupSignature_toDoc, groupEdit_sign hP hc]

theorem not_editStop_toDoc (hP : P.Ideal) (hG : G.Signed P) (hc : c.Applies G) {e : Stop} :
    ¬ EditStop P (c.groupEdit P G.name) (G.toDoc P) e :=
  fun h => h.2 _ _ ((editOf_toDoc hP hc).mpr ⟨hG, rfl, rfl⟩)

theorem not_recordStop_toDoc (hP : P.Ideal) {a : Account β} {cur : Cursor β} {e : Stop}
    (hcur : cur.error = none) : ¬ RecordStop P (a.toDoc P) cur e := by
  rintro (⟨e', he, -⟩ | ⟨hnone, -⟩)
  · cases hcur.symm.trans he
  · cases hnone.symm.trans (recordKey_toDoc hP a)

theorem sweepOf_toDoc (hP : P.Ideal) {op : Selector β × Update β} :
    SweepOf P u (G.toDoc P) op ↔ G.Signed P ∧ op = sweepOp P u G := by
  simp [SweepOf, validateGroupSignature_toDoc, hP.decrypt_encrypt,
    computeGroupSignature_drop hP G u G.signature, sweepOp, Group.nextSignature, Group.change]

theorem not_sweepStop_toDoc (hP : P.Ideal) (hG : G.Signed P) {e : Stop} :
    ¬ SweepStop P u (G.toDoc P) e :=
  fun h => h.2 _ ((sweepOf_toDoc hP).mpr ⟨hG, rfl⟩)

end Genuine

end MongoSgx
