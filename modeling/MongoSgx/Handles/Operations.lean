import MongoSgx.Handles.Lifecycle

/-! # Operations that destroy what they create

When the driver answers in an orderly way, every operation but `delete_user` ends
with the handles it began with, whether it returns or throws. The other answers
are those after which the code loses a handle, or destroys one twice.
-/

namespace MongoSgx

open Bson Interaction Ledger

variable {β : Type} (P : Primitives β)

/-- If the signature of the user record fits, its key can be decrypted. -/
def KeyOpens (d : Doc β) : Prop :=
  ∀ hashedName encryptedKey signature, (Iter.initFind d "name").binary = some hashedName →
    (Iter.initFind d "key").binary = some encryptedKey →
    (Iter.initFind d "signature").binary = some signature →
    (computeUserSignature P hashedName encryptedKey).toList = signature →
    P.decryptAesgcm encryptedKey ≠ none

/-- The reads after which the code that reads there destroys its cursor once, and its
selector: a user is found, a group is not, and a cursor error has a code. -/
def OrderlyRead (cursor : Cursor β) (document : Option (Doc β)) (error : Option BsonError) :
    Prop :=
  match cursor.collection, cursor.readPrefs with
  | .users, _ => ∃ d, document = some d ∧ (∀ e, error = some e → e.code ≠ 0) ∧
      (error = none → KeyOpens P d)
  | .groups, some .secondaryPreferred => document = none
  | .groups, some .primaryPreferred => ∀ e, error = some e → e.code ≠ 0
  | .groups, none => True

def Orderly : Exchange (Call β) Reply → Prop
  | ⟨.cursorNext cursor, (document, cursor')⟩ => OrderlyRead P cursor document cursor'.error
  | ⟨.updateOne _ _ _, .error e⟩ => e.code ≠ 0
  | ⟨.deleteNext _ _ _, .error e⟩ => e.code = 0
  | _ => True

def Fields.ready : Fields := ⟨.handle, .handle, .handle⟩

variable {P} {α γ : Type} {Q : Except Stop α → List Resource → Prop} {live live' : List Resource}

theorem keeps_create {h : Handle} {k : Unit → Enclave β α}
    (hl : run (callEntries (⟨.create h, ()⟩ : Exchange (Call β) Reply)) live = some live')
    (hk : Keeps (Orderly P) callEntries Q (k ()) live') :
    Keeps (Orderly P) callEntries Q (.call (.create h) k) live :=
  .call (fun _ _ => hl) fun _ _ => hk

theorem keeps_destroy {h : Handle} {k : Unit → Enclave β α}
    (hl : run (callEntries (⟨.destroy h, ()⟩ : Exchange (Call β) Reply)) live = some live')
    (hk : Keeps (Orderly P) callEntries Q (k ()) live') :
    Keeps (Orderly P) callEntries Q (.call (.destroy h) k) live :=
  .call (fun _ _ => hl) fun _ _ => hk

theorem keeps_read {a : Option γ} {k : γ → Enclave β α}
    (hQ : ∀ live, Q (.error .fault) live)
    (hk : ∀ b, a = some b → Keeps (Orderly P) callEntries Q (k b) live) :
    Keeps (Orderly P) callEntries Q ((MongoSgx.read a).bind k) live := by
  cases a with
  | none => exact keeps_throw_iff.mpr (hQ live)
  | some b => exact hk b rfl

def Returns (P : Primitives β) (p : Enclave β α) : Prop :=
  Keeps (Orderly P) callEntries (fun r live => r ≠ .error .fault → live = Fields.ready.live) p
    Fields.ready.live

theorem Returns.bind {p : Enclave β α} {f : α → Enclave β γ} (hp : Returns P p)
    (hf : ∀ a, Returns P (f a)) : Returns P (p.bind f) := by
  apply Keeps.bind
  apply hp.mono
  rintro (e | a) live hr
  · intro he
    exact hr fun h => he (by rw [Except.error.inj h])
  · rw [hr nofun]
    exact hf a

theorem returns_pure (a : α) : Returns P (.pure a) := keeps_pure_iff.mpr fun _ => rfl

theorem returns_throw (e : Stop) : Returns P (.throw e : Enclave β α) :=
  keeps_throw_iff.mpr fun _ => rfl

theorem returns_throwPotentialError (e : BsonError) : Returns P (throwPotentialError e) := by
  unfold throwPotentialError
  split
  · exact returns_throw _
  · exact returns_pure ()

theorem returns_throwUnless (status : Except BsonError Unit) : Returns P (throwUnless status) := by
  cases status with
  | ok => exact returns_pure ()
  | error e => exact returns_throwPotentialError e

theorem returns_encryptData (data : List β) : Returns P (encryptData P data) := by
  apply Keeps.call (fun _ _ => rfl)
  intro iv _
  exact returns_pure _

theorem returns_createUser (userName key : List β) : Returns P (createUser P userName key) := by
  apply (returns_encryptData key).bind
  intro encryptedKey
  apply keeps_create rfl
  apply Keeps.call (fun _ _ => rfl)
  intro status _
  apply keeps_destroy rfl
  exact returns_throwUnless status

theorem keeps_deleteMany {collection : Collection} {k : Except BsonError Unit → Enclave β α}
    (hlive : ∀ selector todo r, run
      (callEntries (⟨.deleteNext collection selector todo, r⟩ : Exchange (Call β) Reply)) live =
        some live)
    (hk : ∀ status, (throwUnless status : Enclave β Unit) = .pure () →
      Keeps (Orderly P) callEntries Q (k status) live) :
    Keeps (Orderly P) callEntries Q ((deleteMany collection []).bind k) live := by
  apply Keeps.loop (fun _ l => l = live)
  · rintro todo _ rfl
    apply Keeps.call (fun r _ => hlive _ _ r)
    rintro (e | todo) hr
    · have hzero : (throwUnless (.error e) : Enclave β Unit) = .pure () := if_neg fun h => h hr
      exact keeps_pure_iff.mpr (hk _ hzero)
    · cases todo with
      | none => exact keeps_pure_iff.mpr (hk _ rfl)
      | some todo => exact keeps_pure_iff.mpr rfl
  · rfl

theorem returns_deleteAllData : Returns P (deleteAllData (β := β)) := by
  apply keeps_create rfl
  apply keeps_deleteMany fun _ _ _ => rfl
  intro status hstatus
  change Keeps _ _ _ ((throwUnless status).bind _) _
  rw [hstatus]
  apply keeps_deleteMany fun _ _ _ => rfl
  intro status hstatus
  change Keeps _ _ _ ((throwUnless status).bind _) _
  rw [hstatus]
  apply keeps_destroy rfl
  exact returns_pure ()

theorem keeps_throwCursorError {cursor : Cursor β} {k : Enclave β α}
    (hcode : ∀ e, cursor.error = some e → e.code ≠ 0)
    (hl : run (callEntries (⟨.destroy .cursor, ()⟩ : Exchange (Call β) Reply)) live = some live')
    (herr : ∀ e, Q (.error (.thrown e)) live')
    (hok : cursor.error = none → Keeps (Orderly P) callEntries Q k live) :
    Keeps (Orderly P) callEntries Q ((throwCursorError cursor).bind fun _ => k) live := by
  unfold throwCursorError
  cases herror : cursor.error with
  | some e =>
    apply keeps_destroy hl
    rw [throwPotentialError_of_code (hcode e herror)]
    exact keeps_throw_iff.mpr (herr e)
  | none => exact hok herror

theorem returns_isUserPartOfGroup (groupName userName : List β) :
    Returns P (isUserPartOfGroup P groupName userName) := by
  apply keeps_create rfl
  apply keeps_create rfl
  apply keeps_create rfl
  apply keeps_create rfl
  apply keeps_destroy rfl
  apply keeps_destroy rfl
  apply keeps_destroy rfl
  apply Keeps.call (fun _ _ => rfl)
  rintro ⟨document, cursor⟩ hcode
  apply keeps_throwCursorError hcode rfl fun _ _ => rfl
  intro _
  apply keeps_destroy rfl
  exact returns_pure _

variable [DecidableEq β]

theorem returns_editAttempts (edit : GroupEdit β) (attempts : ℕ) :
    Returns P (editAttempts P edit attempts) := by
  induction attempts with
  | zero => exact returns_throw _
  | succ attempts ih =>
    apply keeps_create rfl
    apply keeps_create rfl
    apply Keeps.call (fun _ _ => rfl)
    rintro ⟨document, cursor⟩ _
    cases document with
    | none =>
      apply keeps_destroy rfl
      apply keeps_destroy rfl
      exact returns_pure ()
    | some existingDocument =>
      apply keeps_read fun _ h => absurd rfl h
      intro valid _
      cases valid with
      | false =>
        apply keeps_destroy rfl
        apply keeps_destroy rfl
        exact returns_throw _
      | true =>
        apply keeps_read fun _ h => absurd rfl h
        intro signature _
        apply keeps_read fun _ h => absurd rfl h
        intro newSignature _
        apply keeps_destroy rfl
        apply keeps_create rfl
        apply Keeps.call (fun _ _ => rfl)
        intro status hstatus
        apply keeps_create rfl
        apply keeps_destroy rfl
        apply keeps_destroy rfl
        cases status with
        | ok reply =>
          apply keeps_read fun _ h => absurd rfl h
          intro matchedCount _
          apply keeps_destroy rfl
          split
          · exact returns_pure ()
          · exact ih
        | error e =>
          apply keeps_destroy rfl
          -- the code is not zero, so the reply is not destroyed again
          rw [throwPotentialError_of_code hstatus]
          exact returns_throw _

theorem returns_reencryptUserKey (userName : List β) : Returns P (reencryptUserKey P userName) := by
  apply keeps_create rfl
  apply keeps_create rfl
  apply keeps_create rfl
  apply keeps_destroy rfl
  apply keeps_destroy rfl
  apply Keeps.call (fun _ _ => rfl)
  rintro ⟨_, cursor⟩ ⟨document, rfl, hcode, hkey⟩
  apply keeps_throwCursorError hcode rfl fun _ _ => rfl
  intro herror
  apply keeps_read fun _ h => absurd rfl h
  intro hashedName hname
  apply keeps_read fun _ h => absurd rfl h
  intro encryptedKey hencrypted
  apply keeps_read fun _ h => absurd rfl h
  intro signature hsignature
  split
  · next hfits =>
    have hopens := hkey herror hashedName encryptedKey signature hname hencrypted hsignature hfits
    obtain ⟨key, hkey⟩ := Option.ne_none_iff_exists'.mp hopens
    simp only [decryptData, hkey]
    apply Keeps.call (fun _ _ => rfl)
    intro iv _
    apply keeps_destroy rfl
    exact returns_pure _
  · apply Keeps.call (fun _ _ => rfl)
    intro _ _
    apply keeps_destroy rfl
    exact returns_throw _

theorem returns_addUserToGroup (groupName userName : List β) :
    Returns P (addUserToGroup P groupName userName) := by
  apply (returns_reencryptUserKey userName).bind
  intro userKeyReencrypted
  exact returns_editAttempts _ _

theorem returns_createGroup (groupName userName : List β) :
    Returns P (createGroup P groupName userName) := by
  apply (returns_reencryptUserKey userName).bind
  intro userKeyReencrypted
  apply (returns_encryptData groupName).bind
  intro encryptedGroupName
  apply keeps_create rfl
  apply keeps_read fun _ h => absurd rfl h
  intro signature _
  apply Keeps.call (fun _ _ => rfl)
  intro status _
  apply keeps_destroy rfl
  cases status with
  | ok => exact returns_pure ()
  | error e =>
    change Keeps _ _ _ (ite _ _ _) _
    split
    · exact returns_editAttempts _ _
    · exact returns_throwPotentialError e

theorem returns_getKeysOfGroup (groupName : List β) :
    Returns P (getKeysOfGroup P groupName) := by
  apply keeps_create rfl
  apply keeps_create rfl
  apply keeps_create rfl
  apply keeps_destroy rfl
  apply Keeps.call (fun _ _ => rfl)
  rintro ⟨_, cursor⟩ rfl
  apply keeps_destroy rfl
  apply keeps_destroy rfl
  exact returns_throw _

/-- Every operation but `delete_user`, when its cursor is opened without an error. -/
def Invocation.Orderly : Invocation β → Prop
  | .op (.deleteUser _) => False
  | .getKeysOfGroup _ opened => opened = none
  | _ => True

theorem Invocation.Orderly.returns {f : Invocation β} (hf : f.Orderly) : Returns P (f.prog P) := by
  cases f with
  | op o =>
    have ho : Returns P (o.prog P) := by
      cases o with
      | createUser userName key => exact returns_createUser userName key
      | createGroup groupName userName => exact returns_createGroup groupName userName
      | addUserToGroup groupName userName => exact returns_addUserToGroup groupName userName
      | removeUserFromGroup groupName userName => exact returns_editAttempts _ _
      | deleteUser userName => exact hf.elim
      | deleteAllData => exact returns_deleteAllData
    exact ho.bind fun _ => returns_pure _
  | getKeysOfGroup groupName opened =>
    obtain rfl : opened = none := hf
    exact (returns_getKeysOfGroup groupName).bind fun _ => returns_pure _
  | isUserPartOfGroup groupName userName =>
    exact (returns_isUserPartOfGroup groupName userName).bind fun _ => returns_pure _

end MongoSgx
