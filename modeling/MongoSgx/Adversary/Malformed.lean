import MongoSgx.Bson.Reader
import MongoSgx.Database.Operations

/-! # Malformed documents

What each function reads of a document, with the reader of the iterators as a
parameter: with the one of libbson this is the code. With the checked reader a
function stops where the code would take a value from an iterator that stands on
no element or on one of another type. It never does so exactly for the documents
whose fields have the types that the function expects, and nothing in the code
checks them.
-/

namespace MongoSgx

open Bson Interaction

variable {β : Type}

section Functions

variable (R : Reader β) (P : Primitives β)

def feedUserWith (dropped : List β → Bool) (userDocumentIter : Option (Iter β))
    (entry : String × Value β) : Option (Option (Iter β) × List (Feed β)) := do
  let userDocumentIter ← R.document (Iter.mk (some entry) []) userDocumentIter
  let userDocumentIter := userDocumentIter.find "name"
  let name ← R.binary userDocumentIter
  if dropped name then
    return (some userDocumentIter, [])
  else
    let userDocumentIter := userDocumentIter.find "key"
    let key ← R.binary userDocumentIter
    return (some userDocumentIter, [⟨.userName, name⟩, ⟨.userKey, key⟩])

def feedFieldWith (dropped : List β → Bool) (iters : WalkIters β) (f : String × Value β) :
    Option (WalkIters β × List (Feed β)) :=
  if f.1 = "name" then do
    let content ← R.binary (Iter.mk (some f) [])
    return (iters, [⟨.name, content⟩])
  else if f.1 = "encname" then do
    let content ← R.binary (Iter.mk (some f) [])
    return (iters, [⟨.encname, content⟩])
  else if f.1 = "users" then do
    let arrayIter ← R.array (Iter.mk (some f) []) iters.array
    let (userDocumentIter, feeds) ←
      Rounds.run (feedUserWith R dropped) iters.userDocument arrayIter.rest
    return (⟨some ⟨none, []⟩, userDocumentIter⟩, feeds)
  else
    return (iters, [])

def feedDocumentWith (dropped : List β → Bool) (groupDocument : Doc β) :
    Option (List (Feed β)) :=
  (Rounds.run (feedFieldWith R dropped) ⟨none, none⟩ groupDocument).map Prod.snd

def take {α : Type} : Option α → Except Stop α
  | some a => .ok a
  | none => .error .fault

def decrypted (data : List β) : Except Stop (List β) :=
  match P.decryptAesgcm data with
  | some result => .ok result
  | none => .error (.thrown (bsonError "Error decrypting data" 603))

/-- The loop of `get_keys_of_group`. -/
def readKeysWith (userDocumentIter : Option (Iter β)) : Doc β → Except Stop (List (Key β))
  | [] => return []
  | entry :: entries => do
    let userDocumentIter ← take (R.document (Iter.mk (some entry) []) userDocumentIter)
    let userDocumentIter := userDocumentIter.find "key"
    let keyBinary ← take (R.binary userDocumentIter)
    let decryptedKey ← decrypted P keyBinary
    if h : decryptedKey.length = keySize then
      let list ← readKeysWith (some userDocumentIter) entries
      return ⟨decryptedKey, h⟩ :: list
    else .error (.thrown (bsonError "Key size is wrong" 513))

def userRecordWith (document : Doc β) : Except Stop (List β × List β × List β) := do
  let hashedName ← take (R.binary (Iter.initFind document "name"))
  let encryptedKey ← take (R.binary (Iter.initFind document "key"))
  let signature ← take (R.binary (Iter.initFind document "signature"))
  return (hashedName, encryptedKey, signature)

/-- The name that `remove_user_from_all_groups` reads first. -/
def groupNameWith (groupDocument : Doc β) : Except Stop (List β) := do
  let encryptedGroupName ← take (R.binary (Iter.initFind groupDocument "encname"))
  decrypted P encryptedGroupName

variable [DecidableEq β]

def computeGroupSignatureWith (groupDocument : Doc β) (additionalUserName : Option (Hashed β))
    (additionalUserKey : Option (List β)) (additionalIsAdd : Bool) : Option (Hashed β) := do
  let feeds ← feedDocumentWith R (isDropped additionalUserName additionalIsAdd) groupDocument
  return P.hmac (stream (feeds ++
    feedAdditional additionalUserName additionalUserKey additionalIsAdd))

def validateGroupSignatureWith (groupDocument : Doc β) : Option Bool := do
  let signature ← R.binary (Iter.initFind groupDocument "signature")
  let existingSignature ← computeGroupSignatureWith R P groupDocument none none true
  return existingSignature.toList == signature

/-- What an edit reads of a group document: the old signature, and the parts of the new one;
nothing if the old one is wrong. -/
def lookupWith (groupDocument : Doc β) (additionalUserName : Option (Hashed β))
    (additionalUserKey : Option (List β)) (additionalIsAdd : Bool) :
    Except Stop (Option (List β × Hashed β)) := do
  if !(← take (validateGroupSignatureWith R P groupDocument)) then return none
  else
    let signature ← take (R.binary (Iter.initFind groupDocument "signature"))
    let newSignature ← take (computeGroupSignatureWith R P groupDocument additionalUserName
      additionalUserKey additionalIsAdd)
    return some (signature, newSignature)

/-- What `remove_user_from_all_groups` reads behind the name. -/
def newSignatureWith (groupDocument : Doc β) (hashedUserName : Hashed β) :
    Except Stop (Option (Hashed β)) := do
  if !(← take (validateGroupSignatureWith R P groupDocument)) then return none
  else
    let newSignature ← take
      (computeGroupSignatureWith R P groupDocument (some hashedUserName) none false)
    return some newSignature

def groupKeysWith (groupDocument : Doc β) : Except Stop (Option (List (Key β))) := do
  if !(← take (validateGroupSignatureWith R P groupDocument)) then return none
  else
    let arrayIter ← take (R.array (Iter.initFind groupDocument "users") none)
    let list ← readKeysWith R P none arrayIter.rest
    return some list

end Functions

/-- The functions that read a document of the store, with their other arguments. -/
inductive Consumer (β : Type) where
  | computeGroupSignature (additionalUserName : Option (Hashed β))
    (additionalUserKey : Option (List β)) (additionalIsAdd : Bool)
  | validateGroupSignature
  | addUserToGroup (hashedUserName : Hashed β) (userKey : List β)
  | removeUserFromGroup (hashedUserName : Hashed β)
  | getKeysOfGroup
  | reencryptUserKey
  | removeUserFromAllGroups (userName : List β)

variable [DecidableEq β]

/-- The reads of a function on a document, up to an exception or an undefined read. -/
def Consumer.run (R : Reader β) (P : Primitives β) (d : Doc β) : Consumer β → Except Stop Unit
  | .computeGroupSignature additionalUserName additionalUserKey additionalIsAdd =>
    (take (computeGroupSignatureWith R P d additionalUserName additionalUserKey
      additionalIsAdd)).map fun _ => ()
  | .validateGroupSignature => (take (validateGroupSignatureWith R P d)).map fun _ => ()
  | .addUserToGroup hashedUserName userKey =>
    (lookupWith R P d (some hashedUserName) (some userKey) true).map fun _ => ()
  | .removeUserFromGroup hashedUserName =>
    (lookupWith R P d (some hashedUserName) none false).map fun _ => ()
  | .getKeysOfGroup => (groupKeysWith R P d).map fun _ => ()
  | .reencryptUserKey => (userRecordWith R d).map fun _ => ()
  | .removeUserFromAllGroups userName => do
    let groupName ← groupNameWith R P d
    let _ ← newSignatureWith R P d (hashName P userName (some groupName))
    return ()

/-- The function takes no value of `d` from an iterator that stands on no element or on one of
another type than it asks for: the reader that hands out no such value never stops it. -/
def Consumer.TakesChecked (P : Primitives β) (d : Doc β) (f : Consumer β) : Prop :=
  f.run .checked P d ≠ .error .fault

section Conditions

omit [DecidableEq β]

def HasBinary (key : String) (d : Doc β) : Prop := ∃ b rest, Doc.FirstBinary key b d rest

/-- An entry is a document whose first `name` holds bytes, and so does the first `key` behind it,
unless the walk passes over the entry. -/
def EntryReadable (dropped : List β → Bool) (v : Value β) : Prop :=
  ∃ fields name behind, v = .document fields ∧ Doc.FirstBinary "name" name fields behind ∧
    (dropped name = true ∨ HasBinary "key" behind)

/-- Every `name` and `encname` holds bytes, and every `users` is an array of readable entries. -/
structure GroupReadable (dropped : List β → Bool) (d : Doc β) : Prop where
  binary : ∀ f ∈ d, f.1 = "name" ∨ f.1 = "encname" → ∃ b, f.2 = .binary b
  users : ∀ f ∈ d, f.1 = "users" → ∃ vs, f.2 = .array vs ∧ ∀ v ∈ vs, EntryReadable dropped v

/-- The parts that the validation of a group document looks at. -/
structure ValidReadable (d : Doc β) : Prop where
  signature : HasBinary "signature" d
  group : GroupReadable (fun _ => false) d

/-- The first `key` of each entry holds bytes, up to the first key that is not read back. -/
def KeysReadable (P : Primitives β) : List (Value β) → Prop
  | [] => True
  | v :: vs => ∃ fields c rest, v = .document fields ∧ Doc.FirstBinary "key" c fields rest ∧
    ((∃ key, P.decryptAesgcm c = some key ∧ key.length = keySize) → KeysReadable P vs)

end Conditions

def Consumer.Readable (P : Primitives β) (d : Doc β) : Consumer β → Prop
  | .computeGroupSignature additionalUserName _ additionalIsAdd =>
    GroupReadable (isDropped additionalUserName additionalIsAdd) d
  | .validateGroupSignature | .addUserToGroup _ _ | .removeUserFromGroup _ => ValidReadable d
  | .getKeysOfGroup => ValidReadable d ∧ (MongoSgx.validateGroupSignature P d = some true →
      ∃ before vs rest, d = before ++ ("users", .array vs) :: rest ∧
        (∀ f ∈ before, f.1 ≠ "users") ∧ KeysReadable P vs)
  | .reencryptUserKey => HasBinary "name" d ∧ HasBinary "key" d ∧ HasBinary "signature" d
  | .removeUserFromAllGroups _ => ∃ c rest, Doc.FirstBinary "encname" c d rest ∧
      (P.decryptAesgcm c ≠ none → ValidReadable d)

section Reads

omit [DecidableEq β]

variable {P : Primitives β} {d : Doc β} {α γ : Type}

def Defined (x : Except Stop α) : Prop := x ≠ .error .fault

theorem defined_bind_iff {x : Except Stop α} {f : α → Except Stop γ} :
    Defined (x >>= f) ↔ Defined x ∧ ∀ a, x = .ok a → Defined (f a) := by
  cases x with
  | ok a =>
    change Defined (f a) ↔ _
    simp [Defined]
  | error e =>
    change Defined (.error e : Except Stop γ) ↔ _
    simp [Defined]

theorem defined_map_iff {x : Except Stop α} {f : α → γ} : Defined (x.map f) ↔ Defined x := by
  cases x <;> simp [Defined, Except.map]

@[simp] theorem defined_ok (a : α) : Defined (.ok a : Except Stop α) := nofun

theorem defined_take_iff {x : Option α} : Defined (take x) ↔ ∃ a, x = some a := by
  cases x <;> simp [Defined, take]

theorem take_eq_ok_iff {x : Option α} {a : α} : take x = .ok a ↔ x = some a := by
  cases x <;> simp [take]

theorem defined_decrypted (c : List β) : Defined (decrypted P c) := by
  unfold decrypted
  split
  · exact nofun
  · simp [Defined]

theorem decrypted_eq_ok_iff {c key : List β} :
    decrypted P c = .ok key ↔ P.decryptAesgcm c = some key := by
  unfold decrypted
  split <;> simp_all

theorem checked_binary_initFind_iff (d : Doc β) (key : String) :
    (∃ b, Reader.checked.binary (Iter.initFind d key) = some b) ↔ HasBinary key d :=
  exists_congr fun _ => checked_binary_find_iff

theorem checked_document_entry_iff {entry : String × Value β} {it : Option (Iter β)}
    {userDocumentIter : Iter β} :
    Reader.checked.document ⟨some entry, []⟩ it = some userDocumentIter ↔
      ∃ fields, entry.2 = .document fields ∧ userDocumentIter = Iter.init fields := by
  rw [Reader.checked_document_eq_some]
  constructor
  · rintro ⟨key, fields, hcur, rfl⟩
    exact ⟨fields, congrArg Prod.snd (Option.some.inj hcur), rfl⟩
  · rintro ⟨fields, hvalue, rfl⟩
    exact ⟨entry.1, fields, by rw [← hvalue], rfl⟩

end Reads

section Walk

omit [DecidableEq β]

variable {P : Primitives β} {d : Doc β} {dropped : List β → Bool}

theorem feedUserWith_checked (entry : String × Value β) (it : Option (Iter β)) :
    (∃ x, feedUserWith .checked dropped it entry = some x) ↔ EntryReadable dropped entry.2 := by
  simp only [feedUserWith, Option.bind_eq_bind, Option.bind_eq_some_iff]
  constructor
  · rintro ⟨x, userDocumentIter, hfields, name, hname, hkey⟩
    obtain ⟨fields, hvalue, rfl⟩ := checked_document_entry_iff.mp hfields
    obtain ⟨behind, hfirst⟩ : ∃ behind, Doc.FirstBinary "name" name fields behind :=
      checked_binary_find_iff.mp hname
    refine ⟨fields, name, behind, hvalue, hfirst, ?_⟩
    by_cases hdropped : dropped name = true
    · exact Or.inl hdropped
    · rw [if_neg hdropped] at hkey
      obtain ⟨c, hc, -⟩ := Option.bind_eq_some_iff.mp hkey
      obtain ⟨rest, hrest⟩ := checked_binary_find_iff.mp hc
      rw [rest_find hfirst] at hrest
      exact Or.inr ⟨c, rest, hrest⟩
  · rintro ⟨fields, name, behind, hvalue, hfirst, hbehind⟩
    have hfields : Reader.checked.document ⟨some entry, []⟩ it = some (Iter.init fields) :=
      checked_document_entry_iff.mpr ⟨fields, hvalue, rfl⟩
    have hname : Reader.checked.binary ((Iter.init fields).find "name") = some name :=
      checked_binary_find_iff.mpr ⟨behind, hfirst⟩
    by_cases hdropped : dropped name = true
    · exact ⟨_, _, hfields, name, hname, by rw [if_pos hdropped]; rfl⟩
    · obtain ⟨c, rest, hc⟩ := hbehind.resolve_left hdropped
      have hkey : Reader.checked.binary (((Iter.init fields).find "name").find "key") = some c :=
        checked_binary_find_iff.mpr ⟨rest, by rwa [rest_find hfirst]⟩
      exact ⟨_, _, hfields, name, hname, by rw [if_neg hdropped, hkey]; rfl⟩

theorem feedFieldWith_checked (f : String × Value β) (iters : WalkIters β) :
    (∃ x, feedFieldWith .checked dropped iters f = some x) ↔
      (f.1 = "name" ∨ f.1 = "encname" → ∃ b, f.2 = .binary b) ∧
      (f.1 = "users" → ∃ vs, f.2 = .array vs ∧ ∀ v ∈ vs, EntryReadable dropped v) := by
  obtain ⟨key, v⟩ := f
  have hbinary : (∃ c, Reader.checked.binary ⟨some (key, v), []⟩ = some c) ↔
      ∃ b, v = .binary b := by
    simp only [Reader.checked_binary_eq_some]
    constructor
    · rintro ⟨c, k, hk⟩
      cases hk
      exact ⟨c, rfl⟩
    · rintro ⟨b, rfl⟩
      exact ⟨b, key, rfl⟩
  have hfeed (g : List β → List (Feed β)) : (∃ x, (Reader.checked.binary
      ⟨some (key, v), []⟩).bind (fun c => some (iters, g c)) = some x) ↔
        ∃ b, v = .binary b := by
    rw [← hbinary]
    cases Reader.checked.binary ⟨some (key, v), []⟩ <;> simp
  have husers : (∃ x, (Reader.checked.array ⟨some (key, v), []⟩ iters.array).bind
      (fun arrayIter => (Rounds.run (feedUserWith .checked dropped) iters.userDocument
        arrayIter.rest).bind fun y => some ((⟨some ⟨none, []⟩, y.1⟩ : WalkIters β), y.2)) =
          some x) ↔ ∃ vs, v = .array vs ∧ ∀ w ∈ vs, EntryReadable dropped w := by
    have hentries (vs : List (Value β)) : (∃ y, Rounds.run (feedUserWith .checked dropped)
        iters.userDocument (Reader.elements vs) = some y) ↔
          ∀ w ∈ vs, EntryReadable dropped w := by
      rw [Rounds.exists_run_iff feedUserWith_checked, ← List.forall_mem_map (f := Prod.snd)
        (P := EntryReadable dropped), Reader.elements_map_snd]
    simp only [Option.bind_eq_some_iff, Reader.checked_array_eq_some, Option.some.injEq]
    constructor
    · rintro ⟨x, _, ⟨k, vs, hk, rfl⟩, y, hy, -⟩
      cases hk
      exact ⟨vs, rfl, (hentries vs).mp ⟨y, hy⟩⟩
    · rintro ⟨vs, rfl, hvs⟩
      obtain ⟨y, hy⟩ := (hentries vs).mpr hvs
      exact ⟨_, _, ⟨key, vs, rfl, rfl⟩, y, hy, rfl⟩
  by_cases hname : key = "name"
  · subst hname
    simpa [feedFieldWith] using hfeed fun c => [⟨.name, c⟩]
  by_cases hencname : key = "encname"
  · subst hencname
    simpa [feedFieldWith] using hfeed fun c => [⟨.encname, c⟩]
  by_cases hkey : key = "users"
  · subst hkey
    simpa [feedFieldWith] using husers
  · simp [feedFieldWith, hname, hencname, hkey]

theorem feedDocumentWith_checked :
    (∃ feeds, feedDocumentWith .checked dropped d = some feeds) ↔ GroupReadable dropped d := by
  have hmap : (∃ feeds, feedDocumentWith .checked dropped d = some feeds) ↔
      ∃ x, Rounds.run (feedFieldWith .checked dropped) ⟨none, none⟩ d = some x := by
    unfold feedDocumentWith
    cases Rounds.run (feedFieldWith .checked dropped) ⟨none, none⟩ d <;> simp
  rw [hmap, Rounds.exists_run_iff feedFieldWith_checked]
  exact ⟨fun h => ⟨fun f hf => (h f hf).1, fun f hf => (h f hf).2⟩,
    fun h f hf => ⟨h.binary f hf, h.users f hf⟩⟩

theorem GroupReadable.of_all (h : GroupReadable (fun _ => false) d) : GroupReadable dropped d where
  binary := h.binary
  users f hf hkey := by
    obtain ⟨vs, hvs, hentries⟩ := h.users f hf hkey
    refine ⟨vs, hvs, fun v hv => ?_⟩
    obtain ⟨fields, name, behind, hv, hname, hbehind⟩ := hentries v hv
    exact ⟨fields, name, behind, hv, hname, Or.inr (hbehind.resolve_left nofun)⟩

end Walk

section Group

variable {P : Primitives β} {d : Doc β}

theorem computeGroupSignatureWith_checked (P : Primitives β) (d : Doc β)
    (additionalUserName : Option (Hashed β)) (additionalUserKey : Option (List β))
    (additionalIsAdd : Bool) :
    (∃ signature, computeGroupSignatureWith .checked P d additionalUserName additionalUserKey
      additionalIsAdd = some signature) ↔
      GroupReadable (isDropped additionalUserName additionalIsAdd) d := by
  rw [← feedDocumentWith_checked, computeGroupSignatureWith]
  cases feedDocumentWith .checked (isDropped additionalUserName additionalIsAdd) d <;> simp

theorem validateGroupSignatureWith_checked :
    (∃ valid, validateGroupSignatureWith .checked P d = some valid) ↔ ValidReadable d := by
  have hcompute := computeGroupSignatureWith_checked P d none none true
  have hsignature := checked_binary_initFind_iff d "signature"
  simp only [validateGroupSignatureWith, Option.bind_eq_bind, Option.bind_eq_some_iff]
  constructor
  · rintro ⟨valid, signature, hs, existing, he, -⟩
    exact ⟨hsignature.mp ⟨signature, hs⟩, hcompute.mp ⟨existing, he⟩⟩
  · intro h
    obtain ⟨signature, hs⟩ := hsignature.mpr h.signature
    obtain ⟨existing, he⟩ := hcompute.mpr h.group
    exact ⟨_, signature, hs, existing, he, rfl⟩

theorem defined_lookupWith {additionalUserName : Option (Hashed β)}
    {additionalUserKey : Option (List β)} {additionalIsAdd : Bool} :
    Defined (lookupWith .checked P d additionalUserName additionalUserKey additionalIsAdd) ↔
      ValidReadable d := by
  rw [lookupWith, defined_bind_iff, defined_take_iff, validateGroupSignatureWith_checked,
    and_iff_left_iff_imp]
  intro h valid _
  obtain ⟨signature, hs⟩ := (checked_binary_initFind_iff d "signature").mpr h.signature
  obtain ⟨new, hn⟩ := (computeGroupSignatureWith_checked P d additionalUserName additionalUserKey
    additionalIsAdd).mpr h.group.of_all
  cases valid with
  | false => exact defined_ok _
  | true =>
    simp only [hs, hn, take]
    exact defined_ok _

theorem defined_newSignatureWith {hashedUserName : Hashed β} :
    Defined (newSignatureWith .checked P d hashedUserName) ↔ ValidReadable d := by
  rw [newSignatureWith, defined_bind_iff, defined_take_iff, validateGroupSignatureWith_checked,
    and_iff_left_iff_imp]
  intro h valid _
  obtain ⟨new, hn⟩ := (computeGroupSignatureWith_checked P d (some hashedUserName) none
    false).mpr h.group.of_all
  cases valid with
  | false => exact defined_ok _
  | true =>
    simp only [hn, take]
    exact defined_ok _

omit [DecidableEq β] in
theorem defined_readKeysWith (it : Option (Iter β)) (entries : Doc β) :
    Defined (readKeysWith .checked P it entries) ↔ KeysReadable P (entries.map Prod.snd) := by
  induction entries generalizing it with
  | nil => exact iff_of_true (defined_ok _) trivial
  | cons entry entries ih =>
    rw [readKeysWith, defined_bind_iff, defined_take_iff, List.map_cons, KeysReadable]
    constructor
    · rintro ⟨⟨userDocumentIter, hfields⟩, hrest⟩
      obtain ⟨fields, hvalue, rfl⟩ := checked_document_entry_iff.mp hfields
      have hrest := hrest _ (take_eq_ok_iff.mpr hfields)
      rw [defined_bind_iff, defined_take_iff] at hrest
      obtain ⟨⟨c, hc⟩, hrest⟩ := hrest
      obtain ⟨rest, hfirst⟩ : ∃ rest, Doc.FirstBinary "key" c fields rest :=
        checked_binary_find_iff.mp hc
      refine ⟨fields, c, rest, hvalue, hfirst, ?_⟩
      rintro ⟨key, hkey, hlen⟩
      have hrest := (defined_bind_iff.mp (hrest c (take_eq_ok_iff.mpr hc))).2 key
        (decrypted_eq_ok_iff.mpr hkey)
      rw [dif_pos hlen] at hrest
      exact (ih _).mp (defined_bind_iff.mp hrest).1
    · rintro ⟨fields, c, rest, hvalue, hfirst, hrest⟩
      have hfields : Reader.checked.document ⟨some entry, []⟩ it = some (Iter.init fields) :=
        checked_document_entry_iff.mpr ⟨fields, hvalue, rfl⟩
      have hc : Reader.checked.binary ((Iter.init fields).find "key") = some c :=
        checked_binary_find_iff.mpr ⟨rest, hfirst⟩
      rw [hfields]
      refine ⟨⟨_, rfl⟩, ?_⟩
      rintro _ ⟨⟩
      simp only [hc]
      rw [defined_bind_iff]
      refine ⟨defined_ok _, ?_⟩
      rintro _ ⟨⟩
      rw [defined_bind_iff]
      refine ⟨defined_decrypted c, fun key hkey => ?_⟩
      split
      case isTrue hlen =>
        rw [defined_bind_iff]
        exact ⟨(ih _).mpr (hrest ⟨key, decrypted_eq_ok_iff.mp hkey, hlen⟩),
          fun list _ => defined_ok _⟩
      case isFalse => exact nofun

end Group

section Code

omit [DecidableEq β] in
theorem feedDocumentWith_libbson :
    feedDocumentWith (.libbson : Reader β) = feedDocument := rfl

theorem computeGroupSignatureWith_libbson (P : Primitives β) :
    computeGroupSignatureWith .libbson P = computeGroupSignature P := rfl

theorem validateGroupSignatureWith_libbson (P : Primitives β) :
    validateGroupSignatureWith .libbson P = validateGroupSignature P := rfl

variable {P : Primitives β} {d : Doc β} {α γ : Type}

section Mono

omit [DecidableEq β]

variable {dropped : List β → Bool}

theorem feedUser_of_checked (it : Option (Iter β)) (entry : String × Value β)
    (x : Option (Iter β) × List (Feed β)) (h : feedUserWith .checked dropped it entry = some x) :
    feedUser dropped it entry = some x := by
  simp only [feedUserWith, Option.bind_eq_bind, Option.bind_eq_some_iff] at h
  obtain ⟨user, huser, name, hname, hkey⟩ := h
  simp only [feedUser, Option.bind_eq_bind, Option.bind_eq_some_iff]
  refine ⟨user, Reader.libbson_document huser, name, Reader.libbson_binary hname, ?_⟩
  by_cases hdropped : dropped name = true
  · rwa [if_pos hdropped] at hkey ⊢
  · rw [if_neg hdropped, Option.bind_eq_some_iff] at hkey ⊢
    obtain ⟨key, hkey, hfeeds⟩ := hkey
    exact ⟨key, Reader.libbson_binary hkey, hfeeds⟩

theorem feedField_of_checked (iters : WalkIters β) (f : String × Value β)
    (x : WalkIters β × List (Feed β)) (h : feedFieldWith .checked dropped iters f = some x) :
    feedField dropped iters f = some x := by
  unfold feedFieldWith at h
  unfold feedField
  split at h
  case isTrue hname =>
    obtain ⟨content, hcontent, hfeeds⟩ := Option.bind_eq_some_iff.mp h
    rw [if_pos hname]
    exact Option.bind_eq_some_iff.mpr ⟨content, Reader.libbson_binary hcontent, hfeeds⟩
  case isFalse hname =>
    rw [if_neg hname]
    split at h
    case isTrue hencname =>
      obtain ⟨content, hcontent, hfeeds⟩ := Option.bind_eq_some_iff.mp h
      rw [if_pos hencname]
      exact Option.bind_eq_some_iff.mpr ⟨content, Reader.libbson_binary hcontent, hfeeds⟩
    case isFalse hencname =>
      rw [if_neg hencname]
      split at h
      case isTrue husers =>
        obtain ⟨arrayIter, harray, h⟩ := Option.bind_eq_some_iff.mp h
        obtain ⟨y, hrun, hfeeds⟩ := Option.bind_eq_some_iff.mp h
        rw [if_pos husers]
        exact Option.bind_eq_some_iff.mpr ⟨arrayIter, Reader.libbson_array harray,
          Option.bind_eq_some_iff.mpr ⟨y, Rounds.run_mono feedUser_of_checked hrun, hfeeds⟩⟩
      case isFalse husers =>
        rwa [if_neg husers]

end Mono

theorem computeGroupSignature_of_checked {additionalUserName : Option (Hashed β)}
    {additionalUserKey : Option (List β)} {additionalIsAdd : Bool} {signature : Hashed β}
    (h : computeGroupSignatureWith .checked P d additionalUserName additionalUserKey
      additionalIsAdd = some signature) :
    computeGroupSignature P d additionalUserName additionalUserKey additionalIsAdd =
      some signature := by
  obtain ⟨feeds, hfeeds, hsignature⟩ := Option.bind_eq_some_iff.mp h
  obtain ⟨x, hrun, rfl⟩ := Option.map_eq_some_iff.mp hfeeds
  have hwalk : feedDocument (isDropped additionalUserName additionalIsAdd) d = some x.2 :=
    Option.map_eq_some_iff.mpr ⟨x, Rounds.run_mono feedField_of_checked hrun, rfl⟩
  exact Option.bind_eq_some_iff.mpr ⟨_, hwalk, hsignature⟩

theorem validateGroupSignature_of_checked {valid : Bool}
    (h : validateGroupSignatureWith .checked P d = some valid) :
    validateGroupSignature P d = some valid := by
  obtain ⟨signature, hs, h⟩ := Option.bind_eq_some_iff.mp h
  obtain ⟨existing, he, hvalid⟩ := Option.bind_eq_some_iff.mp h
  exact Option.bind_eq_some_iff.mpr ⟨signature, Reader.libbson_binary hs,
    Option.bind_eq_some_iff.mpr ⟨existing, computeGroupSignature_of_checked he, hvalid⟩⟩

section Refines

omit [DecidableEq β]

def Refines (x y : Except Stop α) : Prop := Defined x → y = x

theorem Refines.bind {x y : Except Stop α} {f g : α → Except Stop γ} (hxy : Refines x y)
    (hfg : ∀ a, Refines (f a) (g a)) : Refines (x >>= f) (y >>= g) := by
  intro h
  rw [defined_bind_iff] at h
  rw [hxy h.1]
  cases x with
  | ok a => exact hfg a (h.2 a rfl)
  | error e => rfl

theorem Refines.map {x y : Except Stop α} {f : α → γ} (h : Refines x y) :
    Refines (x.map f) (y.map f) := fun hx => by rw [h (defined_map_iff.mp hx)]

theorem refines_refl (x : Except Stop α) : Refines x x := fun _ => rfl

theorem refines_take {x y : Option α} (h : ∀ a, x = some a → y = some a) :
    Refines (take x) (take y) := by
  intro hx
  obtain ⟨a, rfl⟩ := defined_take_iff.mp hx
  rw [h a rfl]

theorem refines_readKeysWith (it : Option (Iter β)) (entries : Doc β) :
    Refines (readKeysWith .checked P it entries) (readKeysWith .libbson P it entries) := by
  induction entries generalizing it with
  | nil => exact refines_refl _
  | cons entry entries ih =>
    apply (refines_take fun _ => Reader.libbson_document).bind
    intro userDocumentIter
    apply (refines_take fun _ => Reader.libbson_binary).bind
    intro keyBinary
    apply (refines_refl _).bind
    intro decryptedKey
    split
    · exact (ih _).bind fun _ => refines_refl _
    · exact refines_refl _

end Refines

theorem refines_lookupWith {additionalUserName : Option (Hashed β)}
    {additionalUserKey : Option (List β)} {additionalIsAdd : Bool} :
    Refines (lookupWith .checked P d additionalUserName additionalUserKey additionalIsAdd)
      (lookupWith .libbson P d additionalUserName additionalUserKey additionalIsAdd) := by
  apply (refines_take fun _ => validateGroupSignature_of_checked).bind
  intro valid
  cases valid with
  | false => exact refines_refl _
  | true =>
    apply (refines_take fun _ => Reader.libbson_binary).bind
    intro signature
    exact (refines_take fun _ => computeGroupSignature_of_checked).bind fun _ => refines_refl _

theorem refines_newSignatureWith {hashedUserName : Hashed β} :
    Refines (newSignatureWith .checked P d hashedUserName)
      (newSignatureWith .libbson P d hashedUserName) := by
  apply (refines_take fun _ => validateGroupSignature_of_checked).bind
  intro valid
  cases valid with
  | false => exact refines_refl _
  | true =>
    exact (refines_take fun _ => computeGroupSignature_of_checked).bind fun _ => refines_refl _

theorem refines_groupKeysWith :
    Refines (groupKeysWith .checked P d) (groupKeysWith .libbson P d) := by
  apply (refines_take fun _ => validateGroupSignature_of_checked).bind
  intro valid
  cases valid with
  | false => exact refines_refl _
  | true =>
    apply (refines_take fun _ => Reader.libbson_array).bind
    intro arrayIter
    exact (refines_readKeysWith none arrayIter.rest).bind fun _ => refines_refl _

omit [DecidableEq β] in
theorem refines_userRecordWith :
    Refines (userRecordWith .checked d) (userRecordWith .libbson d) := by
  apply (refines_take fun _ => Reader.libbson_binary).bind
  intro hashedName
  apply (refines_take fun _ => Reader.libbson_binary).bind
  intro encryptedKey
  exact (refines_take fun _ => Reader.libbson_binary).bind fun _ => refines_refl _

theorem Consumer.run_libbson {f : Consumer β} (h : f.TakesChecked P d) :
    f.run .libbson P d = f.run .checked P d := by
  cases f with
  | computeGroupSignature =>
    exact (refines_take fun _ => computeGroupSignature_of_checked).map h
  | validateGroupSignature => exact (refines_take fun _ => validateGroupSignature_of_checked).map h
  | addUserToGroup | removeUserFromGroup => exact refines_lookupWith.map h
  | getKeysOfGroup => exact refines_groupKeysWith.map h
  | reencryptUserKey => exact refines_userRecordWith.map h
  | removeUserFromAllGroups userName =>
    have hname : Refines (groupNameWith .checked P d) (groupNameWith .libbson P d) :=
      (refines_take fun _ => Reader.libbson_binary).bind fun _ => refines_refl _
    exact hname.bind (fun _ => refines_newSignatureWith.bind fun _ => refines_refl _) h

end Code

/-! ### The operations

Behind the call that returns a document, the operations use it as said above: what they go on
with is what these reads give. -/

section Operations

variable {P : Primitives β} {α γ : Type}

section Programs

omit [DecidableEq β]

theorem ofExcept_bind (x : Except Stop α) (f : α → Except Stop γ) :
    (Prog.ofExcept (x >>= f) : Enclave β γ) =
      (Prog.ofExcept x).bind fun a => Prog.ofExcept (f a) := by
  cases x <;> rfl

theorem ofExcept_take (x : Option α) : (Prog.ofExcept (take x) : Enclave β α) = read x := by
  cases x <;> rfl

theorem ofExcept_decrypted (c : List β) :
    (Prog.ofExcept (decrypted P c) : Enclave β (List β)) = decryptData P c := by
  unfold decrypted decryptData
  cases P.decryptAesgcm c <;> rfl

end Programs

theorem ofExcept_lookupWith {d : Doc β} {additionalUserName : Option (Hashed β)}
    {additionalUserKey : Option (List β)} {additionalIsAdd : Bool}
    (invalid : Enclave β γ) (rest : List β → Hashed β → Enclave β γ) :
    ((Prog.ofExcept (lookupWith .libbson P d additionalUserName additionalUserKey
        additionalIsAdd)).bind fun found => found.elim invalid fun x => rest x.1 x.2) =
      (read (validateGroupSignature P d)).bind fun valid => if !valid then invalid
        else (read (Iter.initFind d "signature").binary).bind fun signature =>
          (read (computeGroupSignature P d additionalUserName additionalUserKey
            additionalIsAdd)).bind fun newSignature => rest signature newSignature := by
  rw [lookupWith, ofExcept_bind, ofExcept_take, Prog.bind_assoc]
  congr 1
  funext valid
  cases valid with
  | false => rfl
  | true =>
    change (Prog.ofExcept (_ >>= fun _ => _ >>= fun _ => _)).bind _ = _
    simp only [ofExcept_bind, ofExcept_take, Prog.bind_assoc]
    rfl

theorem editAttempts_reads {edit : GroupEdit β} {additionalUserName : Option (Hashed β)}
    {additionalUserKey : Option (List β)} {additionalIsAdd : Bool}
    (hsign : ∀ d, edit.sign d =
      computeGroupSignature P d additionalUserName additionalUserKey additionalIsAdd) (n : ℕ) :
    ∃ rest : List β → Hashed β → Enclave β Unit, editAttempts P edit (n + 1) = (do
      create .selector
      create .cursor
      match ← cursorNext (findWithOpts .groups edit.selector none none) with
      | (none, _) =>
        destroy .selector
        destroy .cursor
      | (some d, _) =>
        let found ← Prog.ofExcept (lookupWith .libbson P d additionalUserName additionalUserKey
          additionalIsAdd)
        found.elim (do
          destroy .selector
          destroy .cursor
          throw edit.invalid) fun x => rest x.1 x.2) := by
  simp only [Prog.bind_eq, ofExcept_lookupWith, ← hsign]
  exact ⟨_, rfl⟩

omit [DecidableEq β] in
theorem ofExcept_readKeysWith (it : Option (Iter β)) (entries : Doc β) :
    (Prog.ofExcept (readKeysWith .libbson P it entries) : Enclave β (List (Key β))) =
      readKeys P it entries := by
  induction entries generalizing it with
  | nil => rfl
  | cons entry entries ih =>
    rw [readKeysWith, readKeys]
    simp only [ofExcept_bind, ofExcept_take, ofExcept_decrypted, Prog.bind_eq, ← ih]
    congr 1
    funext userDocumentIter
    congr 1
    funext keyBinary
    congr 1
    funext decryptedKey
    split
    · rw [ofExcept_bind]
      rfl
    · rfl

theorem getKeysOfGroup_reads (groupName : List β) : getKeysOfGroup P groupName = (do
    create .selector
    create .readPrefs
    create .cursor
    destroy .readPrefs
    let cursor := findWithOpts .groups (nameSelector (hashName P groupName none)) none
      (some .secondaryPreferred)
    throwCursorError cursor
    match ← cursorNext cursor with
    | (none, _) =>
      destroy .selector
      destroy .cursor
      throw (bsonError "No matching group to validate" 487)
    | (some d, _) =>
      let found ← Prog.ofExcept (groupKeysWith .libbson P d)
      destroy .cursor
      found.elim (throw (bsonError "Error in signature validation" 491)) .pure) := by
  have hreads (d : Doc β) : ((Prog.ofExcept (groupKeysWith .libbson P d)).bind fun found =>
      (destroy .cursor).bind fun _ =>
        found.elim (throw (bsonError "Error in signature validation" 491)) .pure) =
      (read (validateGroupSignature P d)).bind fun valid =>
        if !valid then (destroy .cursor).bind fun _ =>
          throw (bsonError "Error in signature validation" 491)
        else (read ((Iter.initFind d "users").recurse none)).bind fun arrayIter =>
          (readKeys P none arrayIter.rest).bind fun list => (destroy .cursor).bind fun _ => .pure list := by
    rw [groupKeysWith, ofExcept_bind, ofExcept_take, Prog.bind_assoc]
    congr 1
    funext valid
    cases valid with
    | false => rfl
    | true =>
      change (Prog.ofExcept (_ >>= fun _ => _ >>= fun _ => _)).bind _ = _
      simp only [ofExcept_bind, ofExcept_take, ofExcept_readKeysWith, Prog.bind_assoc]
      rfl
  simp only [Prog.bind_eq, hreads]
  rfl

theorem reencryptUserKey_reads (userName : List β) :
    ∃ rest : List β → List β → List β → Enclave β (List β), reencryptUserKey P userName = (do
      create .query
      create .readPrefs
      create .cursor
      destroy .query
      destroy .readPrefs
      match ← cursorNext (findWithOpts .users (nameSelector (hashName P userName none)) none
          (some .primaryPreferred)) with
      | (none, _) => throw (bsonError "User does not exist" 539)
      | (some document, cursor) =>
        throwCursorError cursor
        let found ← Prog.ofExcept (userRecordWith .libbson document)
        rest found.1 found.2.1 found.2.2) := by
  have hreads (document : Doc β) (rest : List β → List β → List β → Enclave β (List β)) :
      ((Prog.ofExcept (userRecordWith .libbson document)).bind fun found =>
        rest found.1 found.2.1 found.2.2) =
        (read (Iter.initFind document "name").binary).bind fun hashedName =>
          (read (Iter.initFind document "key").binary).bind fun encryptedKey =>
            (read (Iter.initFind document "signature").binary).bind fun signature =>
              rest hashedName encryptedKey signature := by
    simp only [userRecordWith, ofExcept_bind, ofExcept_take, Prog.bind_assoc]
    rfl
  simp only [Prog.bind_eq, hreads]
  exact ⟨_, rfl⟩

theorem sweepRound_reads (userName : List β) (cursor : Cursor β) (bulk : Bulk β) :
    sweepRound P userName (cursor, bulk) = (do
      match ← cursorNext cursor with
      | (none, _) => return .inr bulk
      | (some d, cursor) =>
        let groupName ← Prog.ofExcept (groupNameWith .libbson P d)
        printf "Iterating over %s\n" groupName
        let found ← Prog.ofExcept (newSignatureWith .libbson P d
          (hashName P userName (some groupName)))
        found.elim (throw (bsonError "Error in signature validation" 349)) fun newSignature => do
          create .update
          destroy .update
          return .inl (cursor, bulk ++ [(Selector.ofDoc d,
            pullUpdate (hashName P userName (some groupName)) newSignature)])) := by
  have hname (d : Doc β) (rest : List β → Enclave β ((Cursor β × Bulk β) ⊕ Bulk β)) :
      (Prog.ofExcept (groupNameWith .libbson P d)).bind rest =
        (read (Iter.initFind d "encname").binary).bind fun encryptedGroupName =>
          (decryptData P encryptedGroupName).bind rest := by
    simp only [groupNameWith, ofExcept_bind, ofExcept_take, ofExcept_decrypted, Prog.bind_assoc]
    rfl
  have hsignature (d : Doc β) (hashed : Hashed β)
      (rest : Hashed β → Enclave β ((Cursor β × Bulk β) ⊕ Bulk β)) :
      ((Prog.ofExcept (newSignatureWith .libbson P d hashed)).bind fun found =>
        found.elim (throw (bsonError "Error in signature validation" 349)) rest) =
        (read (validateGroupSignature P d)).bind fun valid =>
          if !valid then throw (bsonError "Error in signature validation" 349)
          else (read (computeGroupSignature P d (some hashed) none false)).bind rest := by
    rw [newSignatureWith, ofExcept_bind, ofExcept_take, Prog.bind_assoc]
    congr 1
    funext valid
    cases valid with
    | false => rfl
    | true =>
      change (Prog.ofExcept (_ >>= fun _ => _)).bind _ = _
      simp only [ofExcept_bind, ofExcept_take, Prog.bind_assoc]
      rfl
  simp only [Prog.bind_eq, hname, hsignature]
  rfl

end Operations

section Malformed

variable {P : Primitives β} {d : Doc β}

theorem defined_groupKeysWith : Defined (groupKeysWith .checked P d) ↔
    ValidReadable d ∧ (validateGroupSignature P d = some true →
      ∃ before vs rest, d = before ++ ("users", .array vs) :: rest ∧
        (∀ f ∈ before, f.1 ≠ "users") ∧ KeysReadable P vs) := by
  rw [groupKeysWith, defined_bind_iff, defined_take_iff, validateGroupSignatureWith_checked,
    and_congr_right_iff]
  intro h
  obtain ⟨valid, hvalid⟩ := validateGroupSignatureWith_checked.mpr h
  have hcode := validateGroupSignature_of_checked hvalid
  rw [hvalid, hcode]
  cases valid with
  | false => exact iff_of_true (by rintro _ ⟨⟩; exact defined_ok _) nofun
  | true =>
    constructor
    · intro hrest _
      have hrest := hrest true rfl
      rw [if_neg (by decide), defined_bind_iff, defined_take_iff] at hrest
      obtain ⟨⟨arrayIter, husers⟩, hloop⟩ := hrest
      have hkeys := (defined_bind_iff.mp (hloop arrayIter (take_eq_ok_iff.mpr husers))).1
      obtain ⟨before, vs, rest, hd, hbefore, rfl⟩ := checked_array_find_iff.mp husers
      rw [defined_readKeysWith, Iter.init, Reader.elements_map_snd] at hkeys
      exact ⟨before, vs, rest, hd, hbefore, hkeys⟩
    · intro hrest
      obtain ⟨before, vs, rest, hd, hbefore, hkeys⟩ := hrest rfl
      rintro _ ⟨⟩
      have husers : Reader.checked.array (Iter.initFind d "users") none =
          some (Iter.init (Reader.elements vs)) :=
        checked_array_find_iff.mpr ⟨before, vs, rest, hd, hbefore, rfl⟩
      rw [if_neg (by decide), husers, defined_bind_iff]
      refine ⟨defined_ok _, ?_⟩
      rintro _ ⟨⟩
      rw [defined_bind_iff, defined_readKeysWith, Iter.init, Reader.elements_map_snd]
      exact ⟨hkeys, fun _ _ => defined_ok _⟩

omit [DecidableEq β] in
theorem defined_userRecordWith : Defined (userRecordWith .checked d) ↔
    HasBinary "name" d ∧ HasBinary "key" d ∧ HasBinary "signature" d := by
  simp only [userRecordWith, defined_bind_iff, defined_take_iff, checked_binary_initFind_iff]
  constructor
  · rintro ⟨hname, h⟩
    obtain ⟨name, hn⟩ := (checked_binary_initFind_iff d "name").mpr hname
    obtain ⟨hkey, h⟩ := h name (take_eq_ok_iff.mpr hn)
    obtain ⟨key, hk⟩ := (checked_binary_initFind_iff d "key").mpr hkey
    exact ⟨hname, hkey, (h key (take_eq_ok_iff.mpr hk)).1⟩
  · rintro ⟨hname, hkey, hsignature⟩
    exact ⟨hname, fun _ _ => ⟨hkey, fun _ _ => ⟨hsignature, fun _ _ => defined_ok _⟩⟩⟩

theorem defined_removal {userName : List β} : Defined (Consumer.run .checked P d
    (.removeUserFromAllGroups userName)) ↔ ∃ c rest, Doc.FirstBinary "encname" c d rest ∧
      (P.decryptAesgcm c ≠ none → ValidReadable d) := by
  simp only [Consumer.run, groupNameWith, defined_bind_iff, defined_take_iff,
    defined_newSignatureWith]
  constructor
  · rintro ⟨⟨⟨c, hc⟩, -⟩, h⟩
    obtain ⟨rest, hfirst⟩ : ∃ rest, Doc.FirstBinary "encname" c d rest :=
      checked_binary_find_iff.mp hc
    refine ⟨c, rest, hfirst, fun hplain => ?_⟩
    obtain ⟨name, hname⟩ := Option.ne_none_iff_exists'.mp hplain
    refine (h name ?_).1
    rw [hc]
    exact decrypted_eq_ok_iff.mpr hname
  · rintro ⟨c, rest, hfirst, hvalid⟩
    have hc : Reader.checked.binary (Iter.initFind d "encname") = some c :=
      checked_binary_find_iff.mpr ⟨rest, hfirst⟩
    rw [hc]
    refine ⟨⟨⟨c, rfl⟩, fun _ _ => defined_decrypted _⟩, fun name hname => ?_⟩
    have hplain : P.decryptAesgcm c = some name := decrypted_eq_ok_iff.mp hname
    exact ⟨hvalid (by rw [hplain]; exact nofun), fun _ _ => defined_ok _⟩

/-- For every document, a function takes values only from valid iterators if and only if the
fields that it looks at have the types that it expects. On such a document the code ends with its
result or an exception. -/
theorem takesChecked_iff (P : Primitives β) (d : Doc β) (f : Consumer β) :
    (f.TakesChecked P d ↔ f.Readable P d) ∧
    (f.Readable P d → f.run .libbson P d = f.run .checked P d) := by
  have hiff : f.TakesChecked P d ↔ f.Readable P d := by
    cases f with
    | computeGroupSignature u k b =>
      exact defined_map_iff.trans
        (defined_take_iff.trans (computeGroupSignatureWith_checked P d u k b))
    | validateGroupSignature =>
      exact defined_map_iff.trans (defined_take_iff.trans validateGroupSignatureWith_checked)
    | addUserToGroup | removeUserFromGroup => exact defined_map_iff.trans defined_lookupWith
    | getKeysOfGroup => exact defined_map_iff.trans defined_groupKeysWith
    | reencryptUserKey => exact defined_map_iff.trans defined_userRecordWith
    | removeUserFromAllGroups userName => exact defined_removal
  exact ⟨hiff, fun h => Consumer.run_libbson (hiff.mpr h)⟩

end Malformed

section Samples

def typedGroup : Doc ℕ :=
  [("name", .binary [5]), ("encname", .binary [6]),
    ("users", .array [.document [("name", .binary [1]), ("key", .binary [2])]]),
    ("signature", .binary [0])]

theorem takesChecked_iff_sample :
    Consumer.run .libbson Primitives.nat typedGroup .validateGroupSignature = .ok () := by
  have hreadable : Consumer.Readable Primitives.nat typedGroup .validateGroupSignature := by
    constructor
    · exact ⟨[0], [], typedGroup.take 3, by decide, rfl⟩
    · constructor
      · simp [typedGroup]
      · intro f hf hkey
        have hmem : f = ("users", .array [.document [("name", .binary [1]),
            ("key", .binary [2])]]) := by
          simp only [typedGroup, List.mem_cons, List.not_mem_nil, or_false] at hf
          rcases hf with rfl | rfl | rfl | rfl <;> first | rfl | exact absurd hkey (by decide)
        refine ⟨_, congrArg Prod.snd hmem, ?_⟩
        intro v hv
        obtain rfl := List.mem_singleton.mp hv
        exact ⟨_, [1], [("key", .binary [2])], rfl, ⟨[], by simp, rfl⟩,
          Or.inr ⟨[2], [], [], by simp, rfl⟩⟩
  exact (takesChecked_iff Primitives.nat typedGroup .validateGroupSignature).2 hreadable

def stringName : Doc ℕ :=
  [("name", .scalar (.utf8 "x")), ("signature", .binary (Primitives.nat.hmac []).toList)]

def onlySignature : Doc ℕ := [("signature", .binary (Primitives.nat.hmac []).toList)]

/-- An empty document is read through in the search for its signature. The signatures of the other
two are accepted: the name is read as no bytes, and `get_keys_of_group` walks on from a search for
`users` that has failed. -/
theorem malformed_read_through :
    validateGroupSignature Primitives.nat [] = none ∧
    ¬ Consumer.TakesChecked Primitives.nat [] .validateGroupSignature ∧
    validateGroupSignature Primitives.nat stringName = some true ∧
    ¬ Consumer.TakesChecked Primitives.nat stringName .validateGroupSignature ∧
    validateGroupSignature Primitives.nat onlySignature = some true ∧
    Consumer.run .libbson Primitives.nat onlySignature .getKeysOfGroup = .error .fault ∧
    ¬ Consumer.TakesChecked Primitives.nat onlySignature .getKeysOfGroup :=
  ⟨rfl, fun h => h rfl, rfl, fun h => h rfl, rfl, rfl, fun h => h rfl⟩

end Samples

end MongoSgx
