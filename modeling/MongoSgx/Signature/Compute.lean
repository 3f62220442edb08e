import MongoSgx.Bson.Value
import MongoSgx.Crypto.Primitives
import MongoSgx.Rounds.Basic

/-! # Pseudonyms and signatures

Names, user records and group documents are all authenticated with one HMAC over
the plain concatenation of their parts. The group signature is computed in one
walk over the document; it can be computed for the document as it will be after
one member has been added or dropped.
-/

namespace MongoSgx

open Bson

variable {β : Type} (P : Primitives β)

def hashName (name : List β) (optionalSalt : Option (List β)) : Hashed β :=
  P.hmac (name ++ optionalSalt.getD [])

def computeHmac2 (element₁ element₂ : List β) : Hashed β := P.hmac (element₁ ++ element₂)

def computeUserSignature (hashedUserName encryptedUserKey : List β) : Hashed β :=
  computeHmac2 P hashedUserName encryptedUserKey

/-- The places in `compute_group_signature` that feed the HMAC. -/
inductive Site where
  | name
  | encname
  | userName
  | userKey
  | additionalUserName
  | additionalUserKey
  deriving DecidableEq

/-- One `sgx_hmac256_update`. -/
structure Feed (β : Type) where
  site : Site
  bytes : List β

/-- One round over the `users` array. The iterator of the round before is where it was left if the
element is no container. `none` when the walk reads an iterator that stands on no element. -/
def feedUser (dropped : List β → Bool) (userDocumentIter : Option (Iter β))
    (entry : String × Value β) : Option (Option (Iter β) × List (Feed β)) := do
  let userDocumentIter ← (Iter.mk (some entry) []).recurse userDocumentIter
  let userDocumentIter := userDocumentIter.find "name"
  let name ← userDocumentIter.binary
  if dropped name then
    return (some userDocumentIter, [])
  else
    -- the search goes on from "name", it does not start again
    let userDocumentIter := userDocumentIter.find "key"
    let key ← userDocumentIter.binary
    return (some userDocumentIter, [⟨.userName, name⟩, ⟨.userKey, key⟩])

/-- The iterators that the walk carries from field to field; `none` before they are set. -/
structure WalkIters (β : Type) where
  array : Option (Iter β)
  userDocument : Option (Iter β)

/-- One round over the fields of the document. -/
def feedField (dropped : List β → Bool) (iters : WalkIters β) (f : String × Value β) :
    Option (WalkIters β × List (Feed β)) :=
  if f.1 = "name" then do
    let content ← (Iter.mk (some f) []).binary
    return (iters, [⟨.name, content⟩])
  else if f.1 = "encname" then do
    let content ← (Iter.mk (some f) []).binary
    return (iters, [⟨.encname, content⟩])
  else if f.1 = "users" then do
    let arrayIter ← (Iter.mk (some f) []).recurse iters.array
    let (userDocumentIter, feeds) ← Rounds.run (feedUser dropped) iters.userDocument arrayIter.rest
    -- the loop over the array ends behind its last element
    return (⟨some ⟨none, []⟩, userDocumentIter⟩, feeds)
  else
    return (iters, [])

def feedDocument (dropped : List β → Bool) (groupDocument : Doc β) : Option (List (Feed β)) :=
  (Rounds.run (feedField dropped) ⟨none, none⟩ groupDocument).map Prod.snd

def feedAdditional (additionalUserName : Option (Hashed β)) (additionalUserKey : Option (List β))
    (additionalIsAdd : Bool) : List (Feed β) :=
  match additionalIsAdd, additionalUserName, additionalUserKey with
  | true, some name, some key => [⟨.additionalUserName, name.toList⟩, ⟨.additionalUserKey, key⟩]
  | _, _, _ => []

/-- The bytes of the updates, as the HMAC sees them. -/
def stream (feeds : List (Feed β)) : List β := feeds.flatMap Feed.bytes

variable [DecidableEq β]

/-- Whether the walk passes over an entry: a member to be dropped. -/
def isDropped (additionalUserName : Option (Hashed β)) (additionalIsAdd : Bool)
    (content : List β) : Bool :=
  !additionalIsAdd && additionalUserName.any fun name => name.toList == content

def computeGroupSignature (groupDocument : Doc β) (additionalUserName : Option (Hashed β))
    (additionalUserKey : Option (List β)) (additionalIsAdd : Bool) : Option (Hashed β) := do
  let feeds ← feedDocument (isDropped additionalUserName additionalIsAdd) groupDocument
  return P.hmac (stream (feeds ++
    feedAdditional additionalUserName additionalUserKey additionalIsAdd))

/-- `compute_group_signature` with its default arguments. -/
def groupSignature (groupDocument : Doc β) : Option (Hashed β) :=
  computeGroupSignature P groupDocument none none true

def validateGroupSignature (groupDocument : Doc β) : Option Bool := do
  let signature ← (Iter.initFind groupDocument "signature").binary
  let existingSignature ← groupSignature P groupDocument
  return existingSignature.toList == signature

end MongoSgx
