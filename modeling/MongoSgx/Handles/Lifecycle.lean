import MongoSgx.Database.Operations
import MongoSgx.Ledger.Programs

/-! # The life of a database object

The constructor, `init`, `init_indexes`, `ping` and the destructor, as programs over
the driver calls they make, and the whole life of an object: it is constructed,
its functions are called in any order, with any outcome, and it may be destroyed.
Every exchange with the driver enters in a ledger what it creates, uses and
destroys. A handle is named by the variable or member that holds it, so to set one
that still holds a live handle is to lose that handle.
-/

namespace MongoSgx

open Bson Interaction Ledger

variable {β : Type}

inductive Resource where
  | uri
  | client
  | collection (c : Collection)
  | database
  | command
  | handle (h : Handle)
  deriving DecidableEq

inductive Pointer where
  | uninitialized
  | null
  | handle
  deriving DecidableEq

structure Fields where
  client : Pointer
  usersCollection : Pointer
  groupsCollection : Pointer
  deriving DecidableEq

/-- The driver calls that are not part of an operation on the data. -/
inductive SetupCall where
  | mongocInit
  | logTraceDisable
  | uriNewWithError (connectionUrl : String)
  | uriDestroy
  | clientNewFromUri
  | clientDestroy (client : Pointer)
  | clientSetAppname (appname : String)
  | clientGetCollection (dbName : String) (collection : Collection)
  | collectionDestroy (collection : Collection) (pointer : Pointer)
  | clientGetDatabase (dbName : String)
  | databaseDestroy
  | commandNew (command : Doc Empty)
  | commandDestroy
  | writeCommandWithOpts (command : Doc Empty)
  | commandSimple (dbName : String) (command : Doc Empty)
  | replyAsJson
  | replyDestroy
  | printf (format arg : String)
  | cleanup

@[reducible] def SetupReply : SetupCall → Type
  | .uriNewWithError _ => Except String Unit
  | .clientNewFromUri => Bool
  | .writeCommandWithOpts _ | .commandSimple _ _ => Except BsonError Unit
  | .replyAsJson => String
  | _ => Unit

/-- A function of the object outside the operations. -/
abbrev Setup (α : Type) := Prog SetupCall SetupReply Stop α

def setup (c : SetupCall) : Setup (SetupReply c) := Prog.request c

/-- `if (!status) throw_potential_error(error)`. -/
def setupUnless : Except BsonError Unit → Setup Unit
  | .ok () => .pure ()
  | .error e => if e.code ≠ 0 then .throw (.thrown e) else .pure ()

def dbName : String := "newtest"

/-- `MongoDatabase::MongoDatabase`. It leaves the pointer members alone. -/
def construct (enableTracing : Bool) : Setup Fields := do
  setup .mongocInit
  if enableTracing then return ⟨.uninitialized, .uninitialized, .uninitialized⟩
  else
    setup .logTraceDisable
    return ⟨.uninitialized, .uninitialized, .uninitialized⟩

def init (connectionUrl : String) (m : Fields) : Setup (Bool × Fields) := do
  match ← setup (.uriNewWithError connectionUrl) with
  | .error message =>
    setup (.printf "failed to parse URI: %s\n" message)
    return (false, m)
  | .ok () =>
    if ← setup .clientNewFromUri then
      setup (.printf "Client OK\n" "")
      setup .uriDestroy
      setup (.clientSetAppname "sgx-anonymbe")
      setup (.clientGetCollection dbName .users)
      setup (.clientGetCollection dbName .groups)
      return (true, ⟨.handle, .handle, .handle⟩)
    else
      setup (.printf "Client failure\n" "")
      return (false, { m with client := .null })

/-- `MongoDatabase::~MongoDatabase`. -/
def destruct (m : Fields) : Setup Unit := do
  setup (.collectionDestroy .users m.usersCollection)
  setup (.collectionDestroy .groups m.groupsCollection)
  setup (.clientDestroy m.client)
  setup .cleanup

def usersIndexes : Doc Empty :=
  [("createIndexes", .scalar (.utf8 "users")),
    ("indexes", .array [
      .document [("key", .document [("name", .scalar (.int32 1))]),
        ("name", .scalar (.utf8 "user_name_unique")), ("unique", .scalar (.bool true))]])]

def groupsIndexes : Doc Empty :=
  [("createIndexes", .scalar (.utf8 "groups")),
    ("indexes", .array [
      .document [("key", .document [("name", .scalar (.int32 1))]),
        ("name", .scalar (.utf8 "group_name_unique")), ("unique", .scalar (.bool true))],
      .document [("key", .document [("name", .scalar (.int32 1)),
          ("users.name", .scalar (.int32 1))]),
        ("name", .scalar (.utf8 "groups_users"))]])]

def initIndexes : Setup Bool := do
  setup (.clientGetDatabase dbName)
  setup (.commandNew usersIndexes)
  let retval1 ← setup (.writeCommandWithOpts usersIndexes)
  let replyStr ← setup .replyAsJson
  setup (.printf "%s\n" replyStr)
  setup .replyDestroy
  setup .commandDestroy
  setupUnless retval1
  setup (.commandNew groupsIndexes)
  let retval2 ← setup (.writeCommandWithOpts groupsIndexes)
  let replyStr ← setup .replyAsJson
  setup (.printf "%s\n" replyStr)
  setup .replyDestroy
  setup .commandDestroy
  setup .databaseDestroy
  setupUnless retval2
  return retval1.isOk && retval2.isOk

def ping : Setup Bool := do
  let command : Doc Empty := [("ping", .scalar (.int32 1))]
  setup (.commandNew command)
  let retval ← setup (.commandSimple "admin" command)
  setup .commandDestroy
  setupUnless retval
  return retval.isOk

/-- What an exchange of an operation creates, uses and destroys. The collection of a cursor
is used where the cursor is read. -/
def callEntries (x : Exchange (Call β) Reply) : List (Entry Resource) :=
  match x.call with
  | .create .bulkOperation => [.use (.collection .groups), .acquire (.handle .bulkOperation)]
  | .create h => [.acquire (.handle h)]
  | .destroy h => [.release (.handle h)]
  | .randomIv | .printf _ _ => []
  | .cursorNext cursor => [.use (.collection cursor.collection), .use (.handle .cursor)]
  | .insertOne c _ => [.use (.collection c), .use (.handle .document)]
  | .updateOne c _ _ =>
    [.use (.collection c), .use (.handle .selector), .use (.handle .update)]
  | .bulkUpdateOne c _ _ => [.use (.collection c), .use (.handle .bulkOperation)]
  | .deleteOne c _ | .deleteNext c _ _ => [.use (.collection c), .use (.handle .selector)]

/-- Destroying a null pointer does nothing. -/
def releaseMember (r : Resource) : Pointer → List (Entry Resource)
  | .null => []
  | .uninitialized | .handle => [.release r]

def setupEntries : Exchange SetupCall SetupReply → List (Entry Resource)
  | ⟨.mongocInit, _⟩ | ⟨.logTraceDisable, _⟩ | ⟨.printf _ _, _⟩ | ⟨.cleanup, _⟩ => []
  | ⟨.uriNewWithError _, .ok ()⟩ => [.acquire .uri]
  | ⟨.uriNewWithError _, .error _⟩ => []
  | ⟨.uriDestroy, _⟩ => [.release .uri]
  | ⟨.clientNewFromUri, true⟩ => [.use .uri, .acquire .client]
  | ⟨.clientNewFromUri, false⟩ => [.use .uri]
  | ⟨.clientDestroy m, _⟩ => releaseMember .client m
  | ⟨.clientSetAppname _, _⟩ => [.use .client]
  | ⟨.clientGetCollection _ c, _⟩ => [.use .client, .acquire (.collection c)]
  | ⟨.collectionDestroy c m, _⟩ => releaseMember (.collection c) m
  | ⟨.clientGetDatabase _, _⟩ => [.use .client, .acquire .database]
  | ⟨.databaseDestroy, _⟩ => [.release .database]
  | ⟨.commandNew _, _⟩ => [.acquire .command]
  | ⟨.commandDestroy, _⟩ => [.release .command]
  | ⟨.writeCommandWithOpts _, _⟩ =>
    [.use .database, .use .command, .acquire (.handle .reply)]
  | ⟨.commandSimple _ _, _⟩ => [.use .client, .use .command]
  | ⟨.replyAsJson, _⟩ => [.use (.handle .reply)]
  | ⟨.replyDestroy, _⟩ => [.release (.handle .reply)]

variable [DecidableEq β] (P : Primitives β)

/-- `get_keys_of_group`, with the error, if any, that its cursor has from the start. -/
def getKeysOfGroupOpened (opened : Option BsonError) (groupName : List β) :
    Enclave β (List (Key β)) := do
  create .selector
  create .readPrefs
  create .cursor
  destroy .readPrefs
  let cursor := { findWithOpts .groups (nameSelector (hashName P groupName none)) none
    (some .secondaryPreferred) with error := opened }
  throwCursorError cursor
  match ← cursorNext cursor with
  | (none, _) =>
    destroy .selector
    destroy .cursor
    throw (bsonError "No matching group to validate" 487)
  | (some groupDocument, _) =>
    if !(← read (validateGroupSignature P groupDocument)) then
      destroy .cursor
      throw (bsonError "Error in signature validation" 491)
    else
      let arrayIter ← read ((Iter.initFind groupDocument "users").recurse none)
      let list ← readKeys P none arrayIter.rest
      destroy .cursor
      return list

theorem getKeysOfGroupOpened_none (groupName : List β) :
    getKeysOfGroupOpened P none groupName = getKeysOfGroup P groupName := rfl

inductive SetupMethod where
  | init (connectionUrl : String)
  | initIndexes
  | ping
  | destruct

/-- The members afterwards; a destroyed object has none. -/
def SetupMethod.prog (m : Fields) : SetupMethod → Setup (Option Fields)
  | .init connectionUrl => do
    let (_, m) ← MongoSgx.init connectionUrl m
    return some m
  | .initIndexes => do
    let _ ← MongoSgx.initIndexes
    return some m
  | .ping => do
    let _ ← MongoSgx.ping
    return some m
  | .destruct => do
    MongoSgx.destruct m
    return none

/-- The operations, with any outcome of opening a cursor that is looked at. -/
inductive Invocation (β : Type) where
  | op (o : Op β)
  | getKeysOfGroup (groupName : List β) (opened : Option BsonError)
  | isUserPartOfGroup (groupName userName : List β)

def Invocation.prog : Invocation β → Enclave β (Answer β)
  | .op o => do
    o.prog P
    return .done
  | .getKeysOfGroup groupName opened => do
    let list ← getKeysOfGroupOpened P opened groupName
    return .keys list
  | .isUserPartOfGroup groupName userName => do
    let documentExists ← MongoSgx.isUserPartOfGroup P groupName userName
    return .member documentExists

def Fields.live (m : Fields) : List Resource :=
  held (.collection .groups) m.groupsCollection ++
    (held (.collection .users) m.usersCollection ++ held .client m.client)
where
  held (r : Resource) : Pointer → List Resource
    | .handle => [r]
    | .uninitialized | .null => []

def liveHandles : Option Fields → List Resource
  | some m => m.live
  | none => []

/-- What is asked of a life: of the functions that are called, by the members the object has
then, and of the replies of the driver. -/
structure Conditions (β : Type) where
  setup : Fields → SetupMethod → Prop
  setupExchange : Fields → Exchange SetupCall SetupReply → Prop
  invocation : Fields → Invocation β → Prop
  exchange : Exchange (Call β) Reply → Prop

def anyLife : Conditions β := ⟨fun _ _ => True, fun _ _ => True, fun _ _ => True, fun _ => True⟩

/-- An exception leaves the members as they were. -/
def Fields.after (m : Fields) : Except Stop (Option Fields) → Option Fields
  | .ok m' => m'
  | .error _ => some m

/-- The members of an object between two functions, and its ledger so far. Nothing is known
of an object after a fault. -/
inductive Life (K : Conditions β) : Option Fields → List (Entry Resource) → Prop where

  | constructed {enableTracing : Bool} {m : Fields} {es : List (Entry Resource)}
      (hr : (construct enableTracing).Evals (Entering (fun _ => True) setupEntries) []
        (.ok m) es) : Life K (some m) es

  | setup {m : Fields} {f : SetupMethod} {r : Except Stop (Option Fields)}
      {es es' : List (Entry Resource)} (h : Life K (some m) es) (hf : K.setup m f)
      (hr : (f.prog m).Evals (Entering (K.setupExchange m) setupEntries) es r es') :
      Life K (m.after r) es'

  | invoked {m : Fields} {f : Invocation β} {r : Except Stop (Answer β)}
      {es es' : List (Entry Resource)} (h : Life K (some m) es) (hf : K.invocation m f)
      (hr : (f.prog P).Evals (Entering K.exchange callEntries) es r es')
      (hne : r ≠ .error .fault) : Life K (some m) es'

/-- The ledgers an object goes through, also inside its functions. -/
inductive Passes (K : Conditions β) : List (Entry Resource) → Prop where

  | constructing {enableTracing : Bool} {p : Setup Fields} {es : List (Entry Resource)}
      (hs : (construct enableTracing).Steps (Entering (fun _ => True) setupEntries) [] p es) :
      Passes K es

  | setup {m : Fields} {f : SetupMethod} {p : Setup (Option Fields)}
      {es es' : List (Entry Resource)} (h : Life P K (some m) es) (hf : K.setup m f)
      (hs : (f.prog m).Steps (Entering (K.setupExchange m) setupEntries) es p es') :
      Passes K es'

  | invoked {m : Fields} {f : Invocation β} {p : Enclave β (Answer β)}
      {es es' : List (Entry Resource)} (h : Life P K (some m) es) (hf : K.invocation m f)
      (hs : (f.prog P).Steps (Entering K.exchange callEntries) es p es') : Passes K es'

/-- Nothing is used or destroyed that is not held, and between two functions every handle has
been destroyed as often as it was created, except those that the members hold. -/
structure HandleDiscipline (K : Conditions β) : Prop where
  disciplined (es : List (Entry Resource)) : Passes P K es → Disciplined es
  settled (m : Option Fields) (es : List (Entry Resource)) : Life P K m es →
    ∀ r, es.count (.acquire r) = es.count (.release r) + (liveHandles m).count r

end MongoSgx
