import MongoSgx.Database.Driver
import MongoSgx.Signature.Compute

/-! # The operations of `MongoDatabase`

Each public operation, with its private helpers, as a program over the driver
calls it makes. Adding and removing one member share their loop: read the group,
check its signature, predict the next one and write it under the condition that
the old one is still there, for at most ten attempts.
-/

namespace MongoSgx

open Bson Interaction

variable {β : Type} (P : Primitives β)

def encryptData (data : List β) : Enclave β (List β) := do
  let iv ← Prog.request Call.randomIv
  return P.encryptAesgcm iv data

def decryptData (data : List β) : Enclave β (List β) :=
  match P.decryptAesgcm data with
  | some result => .pure result
  | none => throw (bsonError "Error decrypting data" 603)

def nameSelector (hashed : Hashed β) : Selector β := [(["name"], .eq (.binary hashed.toList))]

def pushUpdate (hashedUserName : Hashed β) (userKey : List β) (signature : Hashed β) : Update β :=
  [.push "users" (.document [("name", .binary hashedUserName.toList), ("key", .binary userKey)]),
    .set "signature" (.binary signature.toList)]

def pullUpdate (hashedUserName : Hashed β) (signature : Hashed β) : Update β :=
  [.pull "users" [(["name"], .eq (.binary hashedUserName.toList))],
    .set "signature" (.binary signature.toList)]

/-- What sets one conditional edit of a group document apart from another. -/
structure GroupEdit (β : Type) where
  selector : Selector β
  sign : Doc β → Option (Hashed β)
  update : Hashed β → Update β
  invalid : BsonError
  exhausted : BsonError

variable [DecidableEq β]

/-- The retry loop of `add_user_to_group` and `remove_user_from_group`, with the number of
attempts that are left. -/
def editAttempts (edit : GroupEdit β) : ℕ → Enclave β Unit
  | 0 => throw edit.exhausted
  | attempts + 1 => do
    create .selector
    create .cursor
    match ← cursorNext (findWithOpts .groups edit.selector none none) with
    | (none, _) =>
      destroy .selector
      destroy .cursor
    | (some existingDocument, _) =>
      if !(← read (validateGroupSignature P existingDocument)) then
        destroy .selector
        destroy .cursor
        throw edit.invalid
      else
        -- the old signature joins the selector to guarantee consistency
        let signature ← read (Iter.initFind existingDocument "signature").binary
        let selector := edit.selector ++ [(["signature"], .eq (.binary signature))]
        let newSignature ← read (edit.sign existingDocument)
        destroy .cursor
        create .update
        let status ← updateOne .groups selector (edit.update newSignature)
        create .reply
        destroy .selector
        destroy .update
        match status with
        | .ok reply =>
          let matchedCount ← read (Iter.initFind reply "matchedCount").int64
          destroy .reply
          if 1 ≤ matchedCount then return () else editAttempts edit attempts
        | .error e =>
          destroy .reply
          throwPotentialError e
          -- a failure with code zero falls through to the end of the loop body
          destroy .reply
          editAttempts edit attempts

def reencryptUserKey (userName : List β) : Enclave β (List β) := do
  create .query
  create .readPrefs
  create .cursor
  destroy .query
  destroy .readPrefs
  match ← cursorNext (findWithOpts .users (nameSelector (hashName P userName none)) none
      (some .primaryPreferred)) with
  | (none, _) => throw (bsonError "User does not exist" 539)
  | (some document, cursor) =>
    throwCursorError cursor
    let hashedName ← read (Iter.initFind document "name").binary
    let encryptedKey ← read (Iter.initFind document "key").binary
    let signature ← read (Iter.initFind document "signature").binary
    if (computeUserSignature P hashedName encryptedKey).toList = signature then
      let key ← decryptData P encryptedKey
      let userKeyReencrypted ← encryptData P key
      destroy .cursor
      return userKeyReencrypted
    else
      printf "Invalid user signature for %s\n" userName
      destroy .cursor
      throw (bsonError "Error in signature validation" 569)

/-- The edit of `add_user_to_group`: the member must not be there yet. -/
def addEdit (groupName userName userKeyReencrypted : List β) : GroupEdit β where
  selector := nameSelector (hashName P groupName none) ++
    [(["users", "name"], .ne (.binary (hashName P userName (some groupName)).toList))]
  sign d := computeGroupSignature P d (some (hashName P userName (some groupName)))
    (some userKeyReencrypted) true
  update := pushUpdate (hashName P userName (some groupName)) userKeyReencrypted
  invalid := bsonError "Error in signature validation at line" 194
  exhausted := bsonError "Unable to add user to group after multiple attempts" 247

/-- The edit of `remove_user_from_group`: the member must be there. -/
def removeEdit (groupName userName : List β) : GroupEdit β where
  selector := nameSelector (hashName P groupName none) ++
    [(["users", "name"], .eq (.binary (hashName P userName (some groupName)).toList))]
  sign d := computeGroupSignature P d (some (hashName P userName (some groupName))) none false
  update := pullUpdate (hashName P userName (some groupName))
  invalid := bsonError "Error in signature validation" 274
  exhausted := bsonError "Unable to remove user from group after multiple attempts" 322

/-- The private overload of `add_user_to_group`, which is given the encrypted key. -/
def addUserToGroupWithKey (groupName userName userKeyReencrypted : List β) : Enclave β Unit :=
  editAttempts P (addEdit P groupName userName userKeyReencrypted) 10

def addUserToGroup (groupName userName : List β) : Enclave β Unit := do
  let userKeyReencrypted ← reencryptUserKey P userName
  addUserToGroupWithKey P groupName userName userKeyReencrypted

def removeUserFromGroup (groupName userName : List β) : Enclave β Unit :=
  editAttempts P (removeEdit P groupName userName) 10

/-- One round of the cursor loop of `remove_user_from_all_groups`. -/
def sweepRound (userName : List β) :
    Cursor β × Bulk β → Enclave β ((Cursor β × Bulk β) ⊕ Bulk β)
  | (cursor, bulkOperation) => do
    match ← cursorNext cursor with
    | (none, _) => return .inr bulkOperation
    | (some groupDocument, cursor) =>
      let encryptedGroupName ← read (Iter.initFind groupDocument "encname").binary
      let groupName ← decryptData P encryptedGroupName
      printf "Iterating over %s\n" groupName
      let hashedUserName := hashName P userName (some groupName)
      if !(← read (validateGroupSignature P groupDocument)) then
        throw (bsonError "Error in signature validation" 349)
      else
        let newSignature ← read
          (computeGroupSignature P groupDocument (some hashedUserName) none false)
        create .update
        destroy .update
        -- the whole document, as it was read, selects the document to update
        return .inl (cursor, bulkOperation ++
          [(Selector.ofDoc groupDocument, pullUpdate hashedUserName newSignature)])

def removeUserFromAllGroups (userName : List β) : Enclave β Unit := do
  create .nullSelector
  create .readPrefs
  create .cursor
  destroy .readPrefs
  destroy .nullSelector
  create .bulkOperation
  let bulkOperation ← Prog.loop (sweepRound P userName)
    (findWithOpts .groups [] none (some .primaryPreferred), []) .pure
  let status ← bulkExecute .groups bulkOperation
  throwUnless status

def deleteUser (userName : List β) : Enclave β Unit := do
  removeUserFromAllGroups P userName
  create .selector
  let status ← deleteOne .users (nameSelector (hashName P userName none))
  destroy .selector
  throwUnless status

def deleteAllData : Enclave β Unit := do
  create .selector
  let status ← deleteMany .users []
  throwUnless status
  let status ← deleteMany .groups []
  throwUnless status
  destroy .selector

def isUserPartOfGroup (groupName userName : List β) : Enclave β Bool := do
  create .query
  create .opts
  create .readPrefs
  create .cursor
  destroy .query
  destroy .opts
  destroy .readPrefs
  let (document, cursor) ← cursorNext (findWithOpts .groups
    (nameSelector (hashName P groupName none) ++
      [(["users", "name"], .eq (.binary (hashName P userName (some groupName)).toList))])
    (some [("limit", .scalar (.int32 1)),
      ("projection", .document [("_id", .scalar (.bool true))])])
    (some .primaryPreferred))
  throwCursorError cursor
  destroy .cursor
  return document.isSome

def createGroup (groupName userName : List β) : Enclave β Unit := do
  let userKeyReencrypted ← reencryptUserKey P userName
  let encryptedGroupName ← encryptData P groupName
  let document := [("name", .binary (hashName P groupName none).toList),
    ("encname", .binary encryptedGroupName),
    ("users", .array [.document
      [("name", .binary (hashName P userName (some groupName)).toList),
        ("key", .binary userKeyReencrypted)]])]
  create .document
  let signature ← read (groupSignature P document)
  let status ← insertOne .groups (document ++ [("signature", .binary signature.toList)])
  destroy .document
  match status with
  | .ok () => return ()
  | .error e =>
    if e.code = mongocErrorDuplicateKey then
      addUserToGroupWithKey P groupName userName userKeyReencrypted
    else throwPotentialError e

def createUser (userName key : List β) : Enclave β Unit := do
  let hashedUserName := hashName P userName none
  let encryptedKey ← encryptData P key
  let signature := computeUserSignature P hashedUserName.toList encryptedKey
  create .document
  let status ← insertOne .users [("name", .binary hashedUserName.toList),
    ("key", .binary encryptedKey), ("signature", .binary signature.toList)]
  destroy .document
  throwUnless status

/-- `std::array<uint8_t, KEY_SIZE>`. -/
abbrev Key (β : Type) := List.Vector β keySize

/-- The loop over the `users` array in `get_keys_of_group`, with the iterator that the round before
has left. -/
def readKeys (userDocumentIter : Option (Iter β)) : Doc β → Enclave β (List (Key β))
  | [] => return []
  | entry :: entries => do
    let userDocumentIter ← read ((Iter.mk (some entry) []).recurse userDocumentIter)
    -- the search for "key" starts at the first field of the entry
    let userDocumentIter := userDocumentIter.find "key"
    let keyBinary ← read userDocumentIter.binary
    let decryptedKey ← decryptData P keyBinary
    if h : decryptedKey.length = keySize then
      let list ← readKeys (some userDocumentIter) entries
      return ⟨decryptedKey, h⟩ :: list
    else throw (bsonError "Key size is wrong" 513)

def getKeysOfGroup (groupName : List β) : Enclave β (List (Key β)) := do
  create .selector
  create .readPrefs
  create .cursor
  destroy .readPrefs
  let cursor := findWithOpts .groups (nameSelector (hashName P groupName none)) none
    (some .secondaryPreferred)
  throwCursorError cursor
  match ← cursorNext cursor with
  | (none, _) =>
    destroy .selector
    destroy .cursor
    throw (bsonError "No matching group to validate" 487)
  | (some groupDocument, _) =>
    if !(← read (validateGroupSignature P groupDocument)) then
      destroy .cursor
      throw (bsonError "Error in signature validation" 491)
    else
      let arrayIter ← read ((Iter.initFind groupDocument "users").recurse none)
      let list ← readKeys P none arrayIter.rest
      destroy .cursor
      return list

inductive Op (β : Type) where
  | createUser (userName key : List β)
  | createGroup (groupName userName : List β)
  | addUserToGroup (groupName userName : List β)
  | removeUserFromGroup (groupName userName : List β)
  | deleteUser (userName : List β)
  | deleteAllData

def Op.prog : Op β → Enclave β Unit
  | .createUser userName key => MongoSgx.createUser P userName key
  | .createGroup groupName userName => MongoSgx.createGroup P groupName userName
  | .addUserToGroup groupName userName => MongoSgx.addUserToGroup P groupName userName
  | .removeUserFromGroup groupName userName => MongoSgx.removeUserFromGroup P groupName userName
  | .deleteUser userName => MongoSgx.deleteUser P userName
  | .deleteAllData => MongoSgx.deleteAllData

inductive Request (β : Type) where
  | op (o : Op β)
  | getKeysOfGroup (groupName : List β)
  | isUserPartOfGroup (groupName userName : List β)

inductive Answer (β : Type) where
  | done
  | keys (list : List (Key β))
  | member (documentExists : Bool)

def Request.prog : Request β → Enclave β (Answer β)
  | .op o => do
    o.prog P
    return .done
  | .getKeysOfGroup groupName => do
    let list ← MongoSgx.getKeysOfGroup P groupName
    return .keys list
  | .isUserPartOfGroup groupName userName => do
    let documentExists ← MongoSgx.isUserPartOfGroup P groupName userName
    return .member documentExists

end MongoSgx
