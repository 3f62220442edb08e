import MongoSgx.Bson.Query
import MongoSgx.Crypto.Primitives
import MongoSgx.Interaction.Prog

/-! # The driver interface of the enclave

Everything the enclave hands to the untrusted side is a call: reads and writes
through libmongoc, output through `printf`, the random bytes of an encryption,
and the creation and destruction of driver handles. Operations are programs over
these calls; they stop early with an exception of their own or of the driver, or
with a fault where the C++ has undefined behaviour.
-/

namespace MongoSgx

open Bson Interaction

variable {β : Type}

/-- `bson_error_t`. -/
structure BsonError where
  domain : ℕ
  code : ℕ
  message : String
  deriving DecidableEq

/-- The macro `BSON_ERROR`, with the line it is used on. -/
def bsonError (message : String) (line : ℕ) : BsonError :=
  ⟨0, 1, message ++ "; line: " ++ toString line⟩

/-- `MONGOC_ERROR_DUPLICATE_KEY`. -/
def mongocErrorDuplicateKey : ℕ := 11000

/-- `MONGOC_ERROR_COMMAND`. -/
def mongocErrorCommand : ℕ := 11

/-- `MONGOC_ERROR_COMMAND_INVALID_ARG`. -/
def mongocErrorCommandInvalidArg : ℕ := 22

inductive Stop where
  | thrown (e : BsonError)
  | fault
  deriving DecidableEq

inductive Collection where
  | users
  | groups
  deriving DecidableEq

/-- The read preferences in use; `nullptr` leaves the default, the primary. -/
inductive ReadMode where
  | primaryPreferred
  | secondaryPreferred
  deriving DecidableEq

/-- The handles an operation holds, by the variable that holds them. -/
inductive Handle where
  | selector
  | nullSelector
  | query
  | opts
  | readPrefs
  | cursor
  | bulkOperation
  | update
  | document
  | reply
  deriving DecidableEq

/-- `mongoc_cursor_t`: the query it was opened with, and what the driver keeps while it is
read. `todo` lists the documents of the first answer that have not been returned. -/
structure Cursor (β : Type) where
  collection : Collection
  filter : Selector β
  opts : Option (Doc β)
  readPrefs : Option ReadMode
  todo : Option (List ℕ)
  seen : List ℕ
  error : Option BsonError

/-- `mongoc_collection_find_with_opts`. The server is first asked when the cursor is read. -/
def findWithOpts (collection : Collection) (filter : Selector β) (opts : Option (Doc β))
    (readPrefs : Option ReadMode) : Cursor β :=
  ⟨collection, filter, opts, readPrefs, none, [], none⟩

inductive Call (β : Type) where
  | create (h : Handle)
  | destroy (h : Handle)
  | randomIv
  | printf (format : String) (arg : List β)
  | cursorNext (cursor : Cursor β)
  | insertOne (collection : Collection) (document : Doc β)
  | updateOne (collection : Collection) (selector : Selector β) (update : Update β)
  | bulkUpdateOne (collection : Collection) (selector : Selector β) (update : Update β)
  | deleteOne (collection : Collection) (selector : Selector β)
  | deleteNext (collection : Collection) (selector : Selector β) (todo : Option (List ℕ))

@[reducible] def Reply : Call β → Type
  | .create _ | .destroy _ | .printf _ _ => Unit
  | .randomIv => List β
  | .cursorNext _ => Option (Doc β) × Cursor β
  | .insertOne _ _ | .bulkUpdateOne _ _ _ | .deleteOne _ _ => Except BsonError Unit
  | .updateOne _ _ _ => Except BsonError (Doc β)
  | .deleteNext _ _ _ => Except BsonError (Option (List ℕ))

def Call.Silent : Call β → Prop
  | .create _ | .destroy _ | .randomIv | .printf _ _ => True
  | _ => False

/-- A function of the enclave. -/
abbrev Enclave (β α : Type) := Prog (Call β) Reply Stop α

def create (h : Handle) : Enclave β Unit := Prog.request (Call.create h)

def destroy (h : Handle) : Enclave β Unit := Prog.request (Call.destroy h)

def printf (format : String) (arg : List β) : Enclave β Unit :=
  Prog.request (Call.printf format arg)

def cursorNext (cursor : Cursor β) : Enclave β (Option (Doc β) × Cursor β) :=
  Prog.request (Call.cursorNext cursor)

def insertOne (collection : Collection) (document : Doc β) :
    Enclave β (Except BsonError Unit) := Prog.request (Call.insertOne collection document)

def updateOne (collection : Collection) (selector : Selector β) (update : Update β) :
    Enclave β (Except BsonError (Doc β)) :=
  Prog.request (Call.updateOne collection selector update)

def bulkUpdateOne (collection : Collection) (selector : Selector β) (update : Update β) :
    Enclave β (Except BsonError Unit) :=
  Prog.request (Call.bulkUpdateOne collection selector update)

def deleteOne (collection : Collection) (selector : Selector β) :
    Enclave β (Except BsonError Unit) := Prog.request (Call.deleteOne collection selector)

def deleteNext (collection : Collection) (selector : Selector β) (todo : Option (List ℕ)) :
    Enclave β (Except BsonError (Option (List ℕ))) :=
  Prog.request (Call.deleteNext collection selector todo)

def throw (e : BsonError) {α : Type} : Enclave β α := Prog.throw (.thrown e)

def read {α : Type} : Option α → Enclave β α
  | some a => .pure a
  | none => .throw .fault

/-- `throw_potential_error`: a zero code is not thrown. -/
def throwPotentialError (e : BsonError) : Enclave β Unit :=
  if e.code ≠ 0 then throw e else .pure ()

/-- `if (!status) throw_potential_error(error)`. -/
def throwUnless : Except BsonError Unit → Enclave β Unit
  | .ok () => .pure ()
  | .error e => throwPotentialError e

def throwCursorError (cursor : Cursor β) : Enclave β Unit :=
  match cursor.error with
  | some e => do
    destroy .cursor
    throwPotentialError e
  | none => .pure ()

/-- The server deletes the matching documents one after the other. -/
def deleteMany (collection : Collection) (selector : Selector β) :
    Enclave β (Except BsonError Unit) :=
  .loop (fun todo => do
    match ← deleteNext collection selector todo with
    | .error e => return .inr (.error e)
    | .ok none => return .inr (.ok ())
    | .ok (some todo) => return .inl (some todo))
    none .pure

/-- The operations queued by `mongoc_bulk_operation_update_one`. -/
abbrev Bulk (β : Type) := List (Selector β × Update β)

def bulkRun (collection : Collection) : Bulk β → Enclave β (Except BsonError Unit)
  | [] => return .ok ()
  | (selector, update) :: ops => do
    match ← bulkUpdateOne collection selector update with
    | .error e => return .error e
    | .ok () => bulkRun collection ops

def emptyBulkError : BsonError :=
  ⟨mongocErrorCommand, mongocErrorCommandInvalidArg, "Cannot do an empty bulk write"⟩

/-- `mongoc_bulk_operation_execute`: the operations run in order, and the first failure ends
the bulk. -/
def bulkExecute (collection : Collection) (bulk : Bulk β) : Enclave β (Except BsonError Unit) :=
  if bulk.isEmpty then return .error emptyBulkError else bulkRun collection bulk

@[simp] theorem read_some {α : Type} (a : α) : (read (some a) : Enclave β α) = .pure a := rfl

@[simp] theorem read_none {α : Type} : (read none : Enclave β α) = .throw .fault := rfl

@[simp] theorem throwPotentialError_of_code {e : BsonError} (h : e.code ≠ 0) :
    (throwPotentialError e : Enclave β Unit) = throw e := if_pos h

end MongoSgx
