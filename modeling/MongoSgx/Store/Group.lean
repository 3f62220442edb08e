import MongoSgx.Bytes.Framing
import MongoSgx.Database.Operations

/-! # Documents with known contents

The typed counterparts of user records and group documents hold the plaintext
names and keys behind them, and the initialisation vectors of their ciphertexts.
`toDoc` gives the document that the store holds. On such documents the walks of
the enclave, the selectors and the updates have closed forms.
-/

namespace MongoSgx

open Bson Interaction

variable {β : Type}

structure Account (β : Type) where
  id : ℕ
  user : List β
  key : List β
  iv : List β

/-- An entry of a `users` array. -/
structure Member (β : Type) where
  user : List β
  key : List β
  iv : List β

/-- A group document whose members are pairwise distinct. -/
structure Group (β : Type) where
  id : ℕ
  name : List β
  iv : List β
  members : List (Member β)
  nodup : (members.map Member.user).Nodup
  signature : Hashed β

variable (P : Primitives β)

def Account.encryptedKey (a : Account β) : List β := P.encryptAesgcm a.iv a.key

def Account.toDoc (a : Account β) : Doc β :=
  [("_id", .scalar (.oid a.id)), ("name", .binary (hashName P a.user none).toList),
    ("key", .binary (a.encryptedKey P)), ("signature", .binary
      (computeUserSignature P (hashName P a.user none).toList (a.encryptedKey P)).toList)]

/-- The pseudonym and the encrypted key of a member of the group named `g`. -/
def Member.entry (g : List β) (m : Member β) : List β × List β :=
  ((hashName P m.user (some g)).toList, P.encryptAesgcm m.iv m.key)

def entryValue (e : List β × List β) : Value β :=
  .document [("name", .binary e.1), ("key", .binary e.2)]

namespace Group

def users (G : Group β) : List (List β) := G.members.map Member.user

def encname (G : Group β) : List β := P.encryptAesgcm G.iv G.name

def entries (G : Group β) : List (List β × List β) := G.members.map (Member.entry P G.name)

def toDoc (G : Group β) : Doc β :=
  [("_id", .scalar (.oid G.id)), ("name", .binary (hashName P G.name none).toList),
    ("encname", .binary (G.encname P)), ("users", .array ((G.entries P).map entryValue)),
    ("signature", .binary G.signature.toList)]

def stream (G : Group β) : List β :=
  (hashName P G.name none).toList ++ G.encname P ++ Bytes.concat (G.entries P)

def Signed (G : Group β) : Prop := G.signature = P.hmac (G.stream P)

variable [DecidableEq β]

/-- Whether a name is among others is found by comparing them. -/
instance decidableMemNames (u : List β) (us : List (List β)) : Decidable (u ∈ us) :=
  inferInstance

instance (G : Group β) : Decidable (G.Signed P) :=
  inferInstanceAs (Decidable (G.signature = P.hmac (G.stream P)))

def insert (m : Member β) (s : Hashed β) (G : Group β) : Group β :=
  if h : m.user ∈ G.users then G
  else { G with
    members := G.members ++ [m]
    nodup := by
      rw [List.map_append, List.map_singleton, ← List.concat_eq_append, List.nodup_concat]
      exact ⟨h, G.nodup⟩
    signature := s }

def drop (u : List β) (s : Hashed β) (G : Group β) : Group β :=
  { G with
    members := G.members.filter fun m => m.user ≠ u
    nodup := G.nodup.sublist (List.Sublist.map _ List.filter_sublist)
    signature := s }

end Group

variable {P}

section Hash

theorem hashName_none_inj (hP : P.Ideal) {a b : List β} :
    hashName P a none = hashName P b none ↔ a = b := by
  simp [hashName, hP.hmac_inj]

theorem hashName_some_inj (hP : P.Ideal) {u v g : List β} :
    hashName P u (some g) = hashName P v (some g) ↔ u = v := by
  simp [hashName, hP.hmac_inj]

theorem hashName_toList_inj (hP : P.Ideal) {u v g : List β} :
    (hashName P u (some g)).toList = (hashName P v (some g)).toList ↔ u = v := by
  rw [List.Vector.toList_injective.eq_iff, hashName_some_inj hP]

theorem entry_fst_eq (hP : P.Ideal) {g u : List β} {m : Member β} :
    (m.entry P g).1 = (hashName P u (some g)).toList ↔ m.user = u :=
  hashName_toList_inj hP

end Hash

section Walk

def entryFeeds (e : List β × List β) : List (Feed β) := [⟨.userName, e.1⟩, ⟨.userKey, e.2⟩]

@[simp] theorem feedUser_entryValue (dropped : List β → Bool) (it : Option (Iter β)) (key : String)
    (e : List β × List β) :
    (feedUser dropped it (key, entryValue e)).map Prod.snd =
      some (if dropped e.1 then [] else entryFeeds e) := by
  cases h : dropped e.1 <;>
    simp [feedUser, entryValue, Iter.recurse, Iter.init, Iter.binary, entryFeeds, h]

theorem run_feedUser (dropped : List β → Bool) (it : Option (Iter β)) :
    ∀ {array : Doc β} {es : List (List β × List β)}, array.map Prod.snd = es.map entryValue →
      (Rounds.run (feedUser dropped) it array).map Prod.snd =
        some ((es.filter fun e => !dropped e.1).flatMap entryFeeds)
  | [], [], _ => rfl
  | (key, _) :: array, e :: es, h => by
      obtain ⟨rfl, htail⟩ := List.cons.inj h
      obtain ⟨⟨it', fs⟩, hfeed, rfl⟩ :=
        Option.map_eq_some_iff.mp (feedUser_entryValue dropped it key e)
      have ih := run_feedUser dropped it' htail
      rw [Rounds.run_cons, hfeed, Option.bind_some, Option.map_map]
      change (Rounds.run (feedUser dropped) it' array).map (fun y => _ ++ y.2) = _
      rw [← Function.comp_def (fun gs => _ ++ gs) Prod.snd, ← Option.map_map, ih]
      cases hd : dropped e.1 <;> simp [hd]

theorem feedField_users (dropped : List β → Bool) (iters : WalkIters β)
    (es : List (List β × List β)) :
    (feedField dropped iters ("users", .array (es.map entryValue))).map Prod.snd =
      some ((es.filter fun e => !dropped e.1).flatMap entryFeeds) := by
  have hsnd : ((es.map entryValue).zipIdx.map fun v => (toString v.2, v.1)).map Prod.snd =
      es.map entryValue := by
    rw [List.map_map, Function.comp_def, List.zipIdx_map_fst]
  obtain ⟨⟨it, fs⟩, hrun, rfl⟩ :=
    Option.map_eq_some_iff.mp (run_feedUser dropped iters.userDocument hsnd)
  simp only [feedField, Iter.recurse, ↓reduceIte, String.reduceEq, Option.bind_eq_bind,
    Option.bind_some, Iter.init]
  rw [hrun]
  rfl

theorem stream_entryFeeds (name encname : List β) (es : List (List β × List β)) :
    stream (⟨.name, name⟩ :: ⟨.encname, encname⟩ :: es.flatMap entryFeeds) =
      name ++ encname ++ Bytes.concat es := by
  induction es with
  | nil => simp [stream]
  | cons e es ih =>
    simp only [stream, List.flatMap_cons, List.flatMap_append, entryFeeds,
      Bytes.concat_cons] at ih ⊢
    simp_all

/-- The document that `create_group` signs: the signed fields without any other. -/
def signedFields (name encname : List β) (es : List (List β × List β)) : Doc β :=
  [("name", .binary name), ("encname", .binary encname), ("users", .array (es.map entryValue))]

theorem run_feedField (dropped : List β → Bool) (iters : WalkIters β) (name encname : List β)
    (es : List (List β × List β)) (rest : Doc β)
    (hrest : ∀ iters, (Rounds.run (feedField dropped) iters rest).map Prod.snd = some []) :
    (Rounds.run (feedField dropped) iters (signedFields name encname es ++ rest)).map Prod.snd =
      some (⟨.name, name⟩ :: ⟨.encname, encname⟩ ::
        (es.filter fun e => !dropped e.1).flatMap entryFeeds) := by
  have hname (iters : WalkIters β) : feedField dropped iters ("name", .binary name) =
      some (iters, [⟨.name, name⟩]) := rfl
  have hencname (iters : WalkIters β) : feedField dropped iters ("encname", .binary encname) =
      some (iters, [⟨.encname, encname⟩]) := rfl
  obtain ⟨⟨iters', fs⟩, husers, rfl⟩ :=
    Option.map_eq_some_iff.mp (feedField_users dropped iters es)
  obtain ⟨⟨iters'', gs⟩, hrun, rfl⟩ := Option.map_eq_some_iff.mp (hrest iters')
  simp only [signedFields, List.cons_append, List.nil_append, Rounds.run_cons, hname, hencname,
    husers, hrun, Option.bind_some, Option.map_some, List.append_nil]

theorem feedDocument_signedFields (dropped : List β → Bool) (name encname : List β)
    (es : List (List β × List β)) :
    feedDocument dropped (signedFields name encname es) =
    some (⟨.name, name⟩ :: ⟨.encname, encname⟩ ::
      (es.filter fun e => !dropped e.1).flatMap entryFeeds) := by
  rw [feedDocument, ← List.append_nil (signedFields name encname es)]
  exact run_feedField dropped _ name encname es [] fun _ => rfl

theorem feedDocument_toDoc (dropped : List β → Bool) (G : Group β) :
    feedDocument dropped (G.toDoc P) =
    some (⟨.name, (hashName P G.name none).toList⟩ :: ⟨.encname, G.encname P⟩ ::
      ((G.entries P).filter fun e => !dropped e.1).flatMap entryFeeds) := by
  have hid (iters : WalkIters β) :
      feedField dropped iters ("_id", .scalar (.oid G.id)) = some (iters, []) := rfl
  have hrun := run_feedField dropped ⟨none, none⟩ (hashName P G.name none).toList (G.encname P)
    (G.entries P) [("signature", .binary G.signature.toList)] fun _ => rfl
  have hdoc : G.toDoc P = ("_id", .scalar (.oid G.id)) ::
      (signedFields (hashName P G.name none).toList (G.encname P) (G.entries P) ++
        [("signature", .binary G.signature.toList)]) := rfl
  rw [feedDocument, ← hrun, hdoc, Rounds.run_cons, hid, Option.bind_some, Option.map_map]
  rfl

end Walk

section Signature

variable [DecidableEq β]

theorem groupSignature_signedFields (name encname : List β) (es : List (List β × List β)) :
    groupSignature P (signedFields name encname es) =
      some (P.hmac (name ++ encname ++ Bytes.concat es)) := by
  simp [groupSignature, computeGroupSignature, feedDocument_signedFields, isDropped,
    feedAdditional, stream_entryFeeds]

theorem groupSignature_toDoc (G : Group β) :
    groupSignature P (G.toDoc P) = some (P.hmac (G.stream P)) := by
  simp [groupSignature, computeGroupSignature, feedDocument_toDoc, isDropped, feedAdditional,
    stream_entryFeeds, Group.stream]

theorem validateGroupSignature_toDoc (G : Group β) :
    validateGroupSignature P (G.toDoc P) = some (decide (G.Signed P)) := by
  have hsig : (Iter.initFind (G.toDoc P) "signature").binary = some G.signature.toList := by
    simp [Iter.initFind, Iter.init, Group.toDoc, Iter.binary]
  simp only [validateGroupSignature, hsig, groupSignature_toDoc,
    Option.bind_eq_bind, Option.bind_some, Option.pure_def, Option.some.injEq]
  rw [Bool.eq_iff_iff, beq_iff_eq, decide_eq_true_iff, List.Vector.toList_injective.eq_iff]
  exact eq_comm

theorem computeGroupSignature_insert {G : Group β} {m : Member β} (hm : m.user ∉ G.users)
    (s : Hashed β) :
    computeGroupSignature P (G.toDoc P) (some (hashName P m.user (some G.name)))
      (some (P.encryptAesgcm m.iv m.key)) true = some (P.hmac ((G.insert m s).stream P)) := by
  have hs : ∀ fs : List (Feed β), stream (fs ++ [⟨.additionalUserName,
      (hashName P m.user (some G.name)).toList⟩, ⟨.additionalUserKey,
      P.encryptAesgcm m.iv m.key⟩]) = stream fs ++ ((hashName P m.user (some G.name)).toList ++
      P.encryptAesgcm m.iv m.key) := by
    simp [stream]
  simp only [computeGroupSignature, feedDocument_toDoc, isDropped, feedAdditional]
  simp only [Bool.not_true, Bool.false_and, Bool.not_false, List.filter_true, Option.bind_eq_bind,
    Option.bind_some, Option.pure_def, hs, stream_entryFeeds]
  simp [Group.insert, hm, Group.stream, Group.encname, Group.entries, Member.entry]

theorem computeGroupSignature_drop (hP : P.Ideal) (G : Group β) (u : List β) (s : Hashed β) :
    computeGroupSignature P (G.toDoc P) (some (hashName P u (some G.name))) none false =
      some (P.hmac ((G.drop u s).stream P)) := by
  have hfilter : ((G.entries P).filter fun e =>
      !isDropped (some (hashName P u (some G.name))) false e.1) = (G.drop u s).entries P := by
    simp only [Group.entries, Group.drop, List.filter_map]
    congr 1
    apply List.filter_congr
    intro m _
    rw [Bool.eq_iff_iff]
    simp [isDropped, Member.entry, hashName_toList_inj hP, eq_comm (a := u)]
  simp only [computeGroupSignature, feedDocument_toDoc, hfilter, feedAdditional, List.append_nil,
    Option.bind_eq_bind, Option.bind_some, Option.pure_def, stream_entryFeeds]
  rfl

end Signature

section Entries

def usersArray (d : Doc β) : List (Value β) :=
  match Doc.get? d "users" with
  | some (.array vs) => vs
  | _ => []

def entryName : Value β → Option (Value β)
  | .document fs => Doc.get? fs "name"
  | _ => none

def entryKey : Value β → Option (Value β)
  | .document fs => Doc.get? fs "key"
  | _ => none

/-- The pseudonym a user has in a group document, salted with the decrypted group name. -/
def pseudonymIn (P : Primitives β) (u : List β) (d : Doc β) : Option (Value β) :=
  match Doc.get? d "encname" with
  | some (.binary c) => (P.decryptAesgcm c).map fun g => .binary (hashName P u (some g)).toList
  | _ => none

variable {G : Group β} {u : List β}

theorem usersArray_toDoc : usersArray (G.toDoc P) = (G.entries P).map entryValue := by
  simp [usersArray, Group.toDoc, Doc.get?, List.lookup_cons]

@[simp] theorem entryName_entryValue (e : List β × List β) :
    entryName (entryValue e) = some (.binary e.1) := by
  simp [entryValue, entryName, Doc.get?]

theorem entryKey_entryValue (e : List β × List β) :
    entryKey (entryValue e) = some (.binary e.2) := by
  simp [entryValue, entryKey, Doc.get?, List.lookup_cons]

theorem Account.get?_name (a : Account β) :
    Doc.get? (a.toDoc P) "name" = some (.binary (hashName P a.user none).toList) := by
  simp [toDoc, Doc.get?, List.lookup_cons]

theorem Account.get?_key (a : Account β) :
    Doc.get? (a.toDoc P) "key" = some (.binary (P.encryptAesgcm a.iv a.key)) := by
  simp [toDoc, Doc.get?, List.lookup_cons, encryptedKey]

theorem pseudonymIn_toDoc (hP : P.Ideal) :
    pseudonymIn P u (G.toDoc P) = some (.binary (hashName P u (some G.name)).toList) := by
  simp [pseudonymIn, Group.toDoc, Doc.get?, List.lookup_cons, Group.encname, hP.decrypt_encrypt]

theorem mem_usersArray_toDoc {v : Value β} :
    v ∈ usersArray (G.toDoc P) ↔ ∃ m ∈ G.members, entryValue (m.entry P G.name) = v := by
  simp [usersArray_toDoc, Group.entries]

theorem entryName_eq_pseudonymIn (hP : P.Ideal) {m : Member β} :
    entryName (entryValue (m.entry P G.name)) = pseudonymIn P u (G.toDoc P) ↔ m.user = u := by
  rw [pseudonymIn_toDoc hP, entryName_entryValue, Option.some.injEq, Value.binary.injEq,
    entry_fst_eq hP]

theorem exists_entry_iff (hP : P.Ideal) :
    (∃ v ∈ usersArray (G.toDoc P), entryName v = pseudonymIn P u (G.toDoc P)) ↔ u ∈ G.users := by
  simp only [mem_usersArray_toDoc, exists_exists_and_eq_and, entryName_eq_pseudonymIn hP,
    Group.users, List.mem_map]

theorem entryValue_injective : Function.Injective (entryValue (β := β)) := by
  rintro ⟨a, b⟩ ⟨c, d⟩ h
  simpa [entryValue] using h

theorem Group.eq_of_toDoc_eq (hP : P.Ideal) {H : Group β} (h : G.toDoc P = H.toDoc P) :
    G.id = H.id ∧ G.name = H.name ∧ G.entries P = H.entries P ∧ G.signature = H.signature := by
  simp only [toDoc, List.cons.injEq, Prod.mk.injEq, true_and, Value.binary.injEq,
    Value.scalar.injEq, Scalar.oid.injEq, Value.array.injEq, List.Vector.toList_injective.eq_iff,
    hashName_none_inj hP, entryValue_injective.list_map.eq_iff, and_true] at h
  exact ⟨h.1, h.2.1, h.2.2.2.1, h.2.2.2.2⟩

theorem nodup_pseudonyms (hP : P.Ideal) (G : Group β) :
    ((usersArray (G.toDoc P)).map entryName).Nodup := by
  have hinj : Function.Injective fun u =>
      some (Value.binary (hashName P u (some G.name)).toList) := fun u v h =>
    (hashName_toList_inj hP).mp (Value.binary.inj (Option.some.inj h))
  have h := G.nodup.map hinj
  rw [List.map_map] at h
  rw [usersArray_toDoc, Group.entries, List.map_map, List.map_map]
  simpa [Function.comp_def, Member.entry] using h

end Entries

end MongoSgx
