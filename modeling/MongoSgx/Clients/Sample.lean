import MongoSgx.Clients.Programs

/-! # The sample program

`ecall_mongoclient_sample` clears the database and walks two users through two groups.
Whatever documents the database held before, it returns, nothing but the duplicate
registration is ever thrown at it, and what it prints is fixed up to that exception.
-/

namespace MongoSgx

open Bson Interaction

inductive Printed where
  | member (isPart : Bool)
  | error (e : BsonError)
  | key (i : ℕ) (key : Key ℕ)

namespace Sample

variable {α γ : Type}

def bytes (chars : List Char) : List ℕ := chars.map Char.toNat

def user1 : List ℕ := bytes ['u', 's', 'e', 'r', '1']

def user2 : List ℕ := bytes ['u', 's', 'e', 'r', '2']

def group1 : List ℕ := bytes ['g', 'r', 'o', 'u', 'p', '1']

def group2 : List ℕ := bytes ['g', 'r', 'o', 'u', 'p', '2']

/-- The array is as long as a key; what the initializer leaves out is zero. -/
def keyRaw : List ℕ :=
  let init := bytes ['h', 'u', 'n', 't', 'e', 'r', '2', '\x00']
  init ++ .replicate (keySize - init.length) 0

/-- A method that returns nothing; what it throws is thrown on. -/
def perform (o : Op ℕ) : Client ℕ Unit :=
  .call (.op o) fun r => (Prog.ofExcept r).bind fun _ => .pure ()

def isUserPartOfGroup (g u : List ℕ) : Client ℕ Bool :=
  .call (.isUserPartOfGroup g u) fun
    | .ok (.member b) => .pure b
    | .ok _ => .throw .fault
    | .error e => .throw e

def getKeysOfGroup (g : List ℕ) : Client ℕ (List (Key ℕ)) :=
  .call (.getKeysOfGroup g) fun
    | .ok (.keys ks) => .pure ks
    | .ok _ => .throw .fault
    | .error e => .throw e

/-- `try` the block, and print a `bson_error_t` that it throws. -/
def tryPrint (block : Client ℕ Unit) : Client ℕ (List Printed) :=
  block.attempt fun
    | .ok _ => .pure []
    | .error (.thrown e) => .pure [.error e]
    | .error .fault => .throw .fault

def printMemberships : Client ℕ (List Printed) := do
  let a ← isUserPartOfGroup group1 user1
  let b ← isUserPartOfGroup group1 user2
  let c ← isUserPartOfGroup group2 user1
  let d ← isUserPartOfGroup group2 user2
  return [.member a, .member b, .member c, .member d]

/-- The sample when the database has been cleared, with what it prints and returns. -/
def walkthrough : Client ℕ (List Printed × ℤ) := do
  let creating ← tryPrint do
    perform (.createUser user1 keyRaw)
    perform (.createUser user2 keyRaw)
  let created ← printMemberships
  perform (.createGroup group1 user1)
  let founded ← printMemberships
  let again ← tryPrint (perform (.createGroup group1 user1))
  let foundedAgain ← printMemberships
  perform (.createGroup group2 user2)
  let foundedSecond ← printMemberships
  perform (.addUserToGroup group2 user1)
  let added ← printMemberships
  perform (.addUserToGroup group1 user1)
  let addedAgain ← printMemberships
  let registering ← tryPrint (perform (.createUser user1 keyRaw))
  let registered ← printMemberships
  let list ← getKeysOfGroup group1
  let keys := list.zipIdx.map fun k => Printed.key (k.2 + 1) k.1
  perform (.removeUserFromGroup group2 user1)
  let removed ← printMemberships
  perform (.addUserToGroup group2 user1)
  let back ← printMemberships
  perform (.deleteUser user1)
  let deleted ← printMemberships
  return (creating ++ created ++ founded ++ again ++ foundedAgain ++ foundedSecond ++ added ++
    addedAgain ++ registering ++ registered ++ keys ++ removed ++ back ++ deleted, 0)

/-- The connection and the indexes, which the sample sets up around the deletion, are left to
`init` and `initIndexes`. -/
def ecallMongoclientSample : Client ℕ (List Printed × ℤ) := do
  perform .deleteAllData
  walkthrough

def table (members : List Bool) : List Printed := members.map .member

/-- What the sample prints if the second registration of the user throws the exception. -/
def expected (e : BsonError) (key : Key ℕ) : List Printed :=
  table [false, false, false, false] ++
  table [true, false, false, false] ++
  table [true, false, false, false] ++
  table [true, false, false, true] ++
  table [true, false, true, true] ++
  table [true, false, true, true] ++
  .error e :: table [true, false, true, true] ++
  .key 1 key :: table [true, false, false, true] ++
  table [true, false, true, true] ++
  table [false, false, false, true]

section Alone

variable {D : Directory ℕ} {Q : Except Stop γ → Directory ℕ → Prop}

theorem wp_printMemberships {k : List Printed → Client ℕ γ} (members : List Bool)
    (h : [(group1, user1), (group1, user2), (group2, user1), (group2, user2)].map
      (fun x => decide (x.2 ∈ D.membersOf x.1)) = members)
    (hk : Wp alone Q (k (table members)) D) : Wp alone Q (printMemberships.bind k) D := by
  subst h
  iterate 4 (apply wp_alone_member)
  exact hk

theorem wp_perform {o : Op ℕ} {k : Unit → Client ℕ γ} (h : (Directory.step o D).1 = true)
    (hk : Wp alone Q (k ()) (Directory.step o D).2) : Wp alone Q ((perform o).bind k) D :=
  wp_alone_done h hk

theorem wp_tryPrint {o : Op ℕ} {k : List Printed → Client ℕ γ}
    (h : (Directory.step o D).1 = true) (hk : Wp alone Q (k []) (Directory.step o D).2) :
    Wp alone Q ((tryPrint (perform o)).bind k) D :=
  wp_alone_done h hk

theorem walkthrough_alone : Wp alone (fun r D => ∃ e key, e.code = mongocErrorDuplicateKey ∧
    List.Vector.toList key = keyRaw ∧ r = .ok (expected e key, 0) ∧
    D.users.elems = [(user2, keyRaw)] ∧
    D.groups.elems = [(group1, []), (group2, [user2])]) walkthrough Directory.empty := by
  apply wp_alone_done (by decide)
  apply wp_alone_done (by decide)
  apply wp_printMemberships [false, false, false, false] (by decide)
  apply wp_perform (by decide)
  apply wp_printMemberships [true, false, false, false] (by decide)
  -- a user who founds a group again only joins it
  apply wp_tryPrint (by decide)
  apply wp_printMemberships [true, false, false, false] (by decide)
  apply wp_perform (by decide)
  apply wp_printMemberships [true, false, false, true] (by decide)
  apply wp_perform (by decide)
  apply wp_printMemberships [true, false, true, true] (by decide)
  apply wp_perform (by decide)
  apply wp_printMemberships [true, false, true, true] (by decide)
  apply wp_alone_declined (by decide)
  rintro _ ⟨e, rfl, he⟩
  apply wp_printMemberships [true, false, true, true] (by decide)
  have hgroup1 : (group1, [user1]) ∈ [(group1, [user1]), (group2, [user2, user1])] := by decide
  apply wp_alone_keys hgroup1
  intro ks hks
  obtain ⟨key, rfl⟩ := List.length_eq_one_iff.mp ((List.length_map _).symm.trans
    ((congrArg List.length hks).trans (List.length_map _)))
  have hkey : List.Vector.toList key = keyRaw := Option.some.inj (List.cons.inj hks).1
  apply wp_perform (by decide)
  apply wp_printMemberships [true, false, false, true] (by decide)
  apply wp_perform (by decide)
  apply wp_printMemberships [true, false, true, true] (by decide)
  apply wp_perform (by decide)
  apply wp_printMemberships [false, false, false, true] (by decide)
  exact .pure ⟨e, key, he, hkey, rfl, by decide, by decide⟩

end Alone

section Requests

variable {p : Client ℕ α} {f : α → Client ℕ γ}

theorem perform_makes {o : Op ℕ} (ho : o.KeySized) : (perform o).Makes Request.KeySized := by
  refine ⟨ho, ?_⟩
  rintro (e | a)
  · trivial
  · trivial

theorem tryPrint_makes {block : Client ℕ Unit} (h : block.Makes Request.KeySized) :
    (tryPrint block).Makes Request.KeySized := by
  apply h.attempt
  rintro ((e | _) | a)
  · trivial
  · trivial
  · trivial

theorem isUserPartOfGroup_makes {g u : List ℕ} :
    (isUserPartOfGroup g u).Makes Request.KeySized := by
  refine ⟨trivial, ?_⟩
  rintro (e | _ | _ | b)
  · trivial
  · trivial
  · trivial
  · trivial

theorem printMemberships_makes : printMemberships.Makes Request.KeySized := by
  iterate 4 (refine isUserPartOfGroup_makes.bind fun _ => ?_)
  trivial

theorem getKeysOfGroup_makes {g : List ℕ} : (getKeysOfGroup g).Makes Request.KeySized := by
  refine ⟨trivial, ?_⟩
  rintro (e | _ | ks | _)
  · trivial
  · trivial
  · trivial
  · trivial

theorem walkthrough_makes : walkthrough.Makes Request.KeySized := by
  have hprint : ∀ {f : List Printed → Client ℕ (List Printed × ℤ)},
      (∀ ls, (f ls).Makes Request.KeySized) →
        (printMemberships.bind f).Makes Request.KeySized := printMemberships_makes.bind
  have hperform : ∀ {o : Op ℕ} {f : Unit → Client ℕ (List Printed × ℤ)}, o.KeySized →
      (f ()).Makes Request.KeySized → ((perform o).bind f).Makes Request.KeySized :=
    fun ho hf => (perform_makes ho).bind fun _ => hf
  have hregister : (Op.createUser user1 keyRaw).KeySized := rfl
  have hregister' : (Op.createUser user2 keyRaw).KeySized := rfl
  refine (tryPrint_makes ((perform_makes hregister).bind fun _ =>
    perform_makes hregister')).bind fun _ => hprint fun _ => ?_
  refine hperform trivial (hprint fun _ => ?_)
  have hfound : (Op.createGroup group1 user1).KeySized := trivial
  refine (tryPrint_makes (perform_makes hfound)).bind fun _ => hprint fun _ => ?_
  refine hperform trivial (hprint fun _ => ?_)
  refine hperform trivial (hprint fun _ => ?_)
  refine hperform trivial (hprint fun _ => ?_)
  refine (tryPrint_makes (perform_makes hregister)).bind fun _ => hprint fun _ => ?_
  refine getKeysOfGroup_makes.bind fun _ => ?_
  refine hperform trivial (hprint fun _ => ?_)
  refine hperform trivial (hprint fun _ => ?_)
  exact hperform trivial (hprint fun _ => trivial)

end Requests

section Driver

variable {β : Type} [DecidableEq β] {count : ℤ → Scalar}

def Identified (w : World β) : Prop :=
  ∀ coll, (∀ d ∈ w.docs coll, (docId d).isSome) ∧ ((w.docs coll).filterMap docId).Nodup

omit [DecidableEq β] in
theorem holds_cleared {P : Primitives β} (n : ℕ) :
    Holds P (⟨[], [], n⟩ : World β) Directory.empty :=
  ⟨{ Vault.empty with
      nextId := n
      account_fresh := by nofun
      group_fresh := by nofun }, rfl, ⟨⟨by nofun, ⟨by nofun, by nofun⟩⟩, by nofun⟩, rfl⟩

/-- Whatever documents the database holds, forged ones included, the sample returns zero, only
the second registration of the same user is refused, and the group that was founded first is left
without members. -/
theorem wp_ecallMongoclientSample {P : Primitives ℕ} (hP : P.Ideal) (hL : P.LengthRegular)
    (count : ℤ → Scalar) {w : World ℕ} (hw : Identified w) :
    Wp (Honest count) (fun r w' => ∃ D, Holds P w' D ∧ ∃ e key,
      e.code = mongocErrorDuplicateKey ∧ List.Vector.toList key = keyRaw ∧
      r = .ok (expected e key, 0) ∧ D.users.elems = [(user2, keyRaw)] ∧
      D.groups.elems = [(group1, []), (group2, [user2])])
      (Client.prog P ecallMongoclientSample) w := by
  apply Wp.attempt
  apply Wp.bind
  apply (wp_deleteAllData_any (fun coll => (hw coll).1) fun coll => (hw coll).2).mono
  rintro r _ ⟨rfl, rfl⟩
  apply Wp.pure
  exact walkthrough_alone.through (fun q _ _ hq hw => wp_replies (q := q) hP hL hq hw)
    walkthrough_makes (holds_cleared _)

/-- From documents that are neither records nor groups. -/
theorem wp_ecallMongoclientSample_forged :
    Wp (Honest .int64) (fun r _ => ∃ out, r = .ok (out, 0))
      (Client.prog Primitives.nat ecallMongoclientSample)
      ⟨[[("_id", .scalar (.oid 0))]], [[("_id", .scalar (.oid 1))], [("_id", .scalar (.oid 3))]],
        4⟩ := by
  have hw : Identified (⟨[[("_id", .scalar (.oid 0))]],
      [[("_id", .scalar (.oid 1))], [("_id", .scalar (.oid 3))]], 4⟩ : World ℕ) := by
    rintro (_ | _)
    · decide
    · decide
  apply (wp_ecallMongoclientSample Primitives.nat_ideal Primitives.nat_lengthRegular .int64 hw).mono
  rintro r w ⟨-, -, e, key, -, -, rfl, -⟩
  exact ⟨_, rfl⟩

end Driver

end Sample

end MongoSgx
