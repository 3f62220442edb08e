import MongoSgx.Adversary.Signing
import MongoSgx.Interaction.Provenance
import MongoSgx.Signature.Binding

/-! # What the enclave vouches for

Tags and ciphertexts are the only things that the enclave recognises when they come
back. Whatever the store answers, each tag in a call is that of bytes that the
request may authenticate on top of what it has checked, unless it drops a member from
a document that cannot be entered throughout, and each ciphertext holds data that the
request was given or has decrypted.
-/

namespace MongoSgx

open Bson Interaction

variable {β : Type}

section Contents

def bytesAt (keys : List String) (d : Doc β) : List (List β) :=
  d.flatMap fun
    | (key, .binary b) => if key ∈ keys then [b] else []
    | _ => []

/-- Also those of the documents in its arrays. -/
def bytesBelow (keys : List String) (d : Doc β) : List (List β) :=
  bytesAt keys d ++ d.flatMap fun
    | (_, .array vs) => vs.flatMap fun
      | .document fs => bytesAt keys fs
      | _ => []
    | _ => []

/-- The names that a selector asks for. The signature it asks for was read from the store. -/
def Selector.tags (sel : Selector β) : List (List β) :=
  sel.flatMap fun
    | (path, .eq (.binary b)) | (path, .ne (.binary b)) =>
      if path.getLast? = some "name" then [b] else []
    | _ => []

def UpdateOp.tags : UpdateOp β → List (List β)
  | .push _ (.document fs) => bytesAt ["name", "signature"] fs
  | .push _ _ => []
  | .pull _ sel => Selector.tags sel
  | .set key v => bytesAt ["name", "signature"] [(key, v)]

def UpdateOp.ciphertexts : UpdateOp β → List (List β)
  | .push _ (.document fs) => bytesAt ["key", "encname"] fs
  | .push _ _ | .pull _ _ => []
  | .set key v => bytesAt ["key", "encname"] [(key, v)]

/-- The tags that a call hands to the store. A bulk operation selects the document as it was
read, so that nothing in its selector is new to the store. -/
def Call.tags : Call β → List (List β)
  | .cursorNext cursor => Selector.tags cursor.filter
  | .insertOne _ document => bytesBelow ["name", "signature"] document
  | .updateOne _ selector update => Selector.tags selector ++ update.flatMap UpdateOp.tags
  | .bulkUpdateOne _ _ update => update.flatMap UpdateOp.tags
  | .deleteOne _ selector | .deleteNext _ selector _ => Selector.tags selector
  | .create _ | .destroy _ | .randomIv | .printf _ _ => []

def Call.ciphertexts : Call β → List (List β)
  | .insertOne _ document => bytesBelow ["key", "encname"] document
  | .updateOne _ _ update | .bulkUpdateOne _ _ update => update.flatMap UpdateOp.ciphertexts
  | .create _ | .destroy _ | .randomIv | .printf _ _ | .cursorNext _ | .deleteOne _ _ |
    .deleteNext _ _ _ => []

end Contents

section Definitions

variable [DecidableEq β] (P : Primitives β)

def HandsTag (x : Line β) (s : List β) : Prop := (P.hmac s).toList ∈ x.call.tags

def HandsSealed (x : Line β) (data : List β) : Prop :=
  ∃ c ∈ x.call.ciphertexts, P.decryptAesgcm c = some data

/-- The reply brings a document that passes a check of its signature, as a group or as the record
of a user, and these are the bytes that the signature covers. -/
inductive Checked : Line β → List β → Prop
  | group {cur cur' : Cursor β} {d : Doc β} {s : List β}
      (hvalid : validateGroupSignature P d = some true) (hs : signedStream d = some s) :
      Checked ⟨.cursorNext cur, (some d, cur')⟩ s
  | record {cur cur' : Cursor β} {d : Doc β} {name c signature : List β}
      (hname : (Iter.initFind d "name").binary = some name)
      (hc : (Iter.initFind d "key").binary = some c)
      (hsignature : (Iter.initFind d "signature").binary = some signature)
      (hvalid : (computeUserSignature P name c).toList = signature) :
      Checked ⟨.cursorNext cur, (some d, cur')⟩ (name ++ c)

/-- The reply brings a document with a key that can be decrypted, as the record of a user or in an
entry of a group, and this is the key. -/
inductive Opened : Line β → List β → Prop
  | record {cur cur' : Cursor β} {d : Doc β} {c key : List β}
      (hc : (Iter.initFind d "key").binary = some c) (hkey : P.decryptAesgcm c = some key) :
      Opened ⟨.cursorNext cur, (some d, cur')⟩ key
  | entry {cur cur' : Cursor β} {d : Doc β} {cs : List (List β)} {c key : List β}
      (hcs : keysRead d = some cs) (hc : c ∈ cs) (hkey : P.decryptAesgcm c = some key) :
      Opened ⟨.cursorNext cur, (some d, cur')⟩ key

end Definitions

section Rules

def Request.user? : Request β → Option (List β)
  | .op (.createUser u _) | .op (.createGroup _ u) | .op (.addUserToGroup _ u) |
    .op (.removeUserFromGroup _ u) | .op (.deleteUser u) | .isUserPartOfGroup _ u => some u
  | .op .deleteAllData | .getKeysOfGroup _ => none

def Request.group? : Request β → Option (List β)
  | .op (.createGroup g _) | .op (.addUserToGroup g _) | .op (.removeUserFromGroup g _) |
    .getKeysOfGroup g | .isUserPartOfGroup g _ => some g
  | .op (.createUser _ _) | .op (.deleteUser _) | .op .deleteAllData => none

def Request.Adds (g u : List β) (q : Request β) : Prop :=
  q = .op (.addUserToGroup g u) ∨ q = .op (.createGroup g u)

variable [DecidableEq β] (P : Primitives β)

def RecordOf (A : Set (List β)) (key : List β) : Prop :=
  ∃ name c, name ++ c ∈ A ∧ P.decryptAesgcm c = some key

/-- The bytes that a request may authenticate when it has checked those in `A`: names, a new
record, a new group, and a group with one member added or dropped. -/
inductive Request.Authenticates : Request β → Set (List β) → List β → Prop
  | user {q : Request β} {u : List β} {A : Set (List β)} (hu : q.user? = some u) :
      Authenticates q A u
  | group {q : Request β} {g : List β} {A : Set (List β)} (hg : q.group? = some g) :
      Authenticates q A g
  | member {q : Request β} {u g : List β} {A : Set (List β)} (hu : q.user? = some u)
      (hg : q.group? = some g) : Authenticates q A (u ++ g)
  | record {u key iv : List β} {A : Set (List β)} :
      Authenticates (.op (.createUser u key)) A
        ((hashName P u none).toList ++ P.encryptAesgcm iv key)
  | found {g u key iv iv' : List β} {A : Set (List β)} (hkey : RecordOf P A key) :
      Authenticates (.op (.createGroup g u)) A ((hashName P g none).toList ++
        P.encryptAesgcm iv' g ++ ((hashName P u (some g)).toList ++ P.encryptAesgcm iv key))
  | join {q : Request β} {g u key iv s : List β} {A : Set (List β)} (hq : q.Adds g u)
      (hkey : RecordOf P A key) (hs : s ∈ A) :
      Authenticates q A (s ++ ((hashName P u (some g)).toList ++ P.encryptAesgcm iv key))
  | leave {g u s s' : List β} {d : Doc β} {A : Set (List β)} (hd : signedStream d = some s')
      (hs' : s' ∈ A) (hs : signedStream (dropEntries (hashName P u (some g)).toList d) = some s) :
      Authenticates (.op (.removeUserFromGroup g u)) A s
  /-- A deletion takes the name of a group from its document. -/
  | swept {u c g s' : List β} {d : Doc β} {A : Set (List β)} (hd : signedStream d = some s')
      (hs' : s' ∈ A) (hc : (Iter.initFind d "encname").binary = some c)
      (hg : P.decryptAesgcm c = some g) : Authenticates (.op (.deleteUser u)) A (u ++ g)
  | sweep {u c g s s' : List β} {d : Doc β} {A : Set (List β)} (hd : signedStream d = some s')
      (hs' : s' ∈ A) (hc : (Iter.initFind d "encname").binary = some c)
      (hg : P.decryptAesgcm c = some g)
      (hs : signedStream (dropEntries (hashName P u (some g)).toList d) = some s) :
      Authenticates (.op (.deleteUser u)) A s

/-- The data that a request may encrypt when it has decrypted that in `A`. -/
inductive Request.Seals : Request β → Set (List β) → List β → Prop
  | key {u key : List β} {A : Set (List β)} : Seals (.op (.createUser u key)) A key
  | name {g u : List β} {A : Set (List β)} : Seals (.op (.createGroup g u)) A g
  | again {q : Request β} {g u key : List β} {A : Set (List β)} (hq : q.Adds g u)
      (hkey : key ∈ A) : Seals q A key

/-- Each tag of a call is that of bytes that the request may authenticate, if members are dropped
from documents that can be entered throughout, and each ciphertext holds data that it may encrypt. -/
structure Vouched (q : Request β) (log : Log β) (x : Line β) : Prop where
  tags : (q.Drops → NestedReads P log) → ∀ t ∈ x.call.tags, ∃ s, t = (P.hmac s).toList ∧
    q.Authenticates P (accepted (Checked P) log) s
  ciphertexts : ∀ c ∈ x.call.ciphertexts, ∃ iv data, c = P.encryptAesgcm iv data ∧
    q.Seals (accepted (Opened P) log) data

def KeepsFilter : Line β → Prop
  | ⟨.cursorNext cursor, r⟩ => r.2.filter = cursor.filter
  | _ => True

def custodyWatch (q : Request β) : Watch β where
  allowed := KeepsFilter
  guar := Vouched P q
  silent _ x hx := by
    obtain ⟨c, r⟩ := x
    cases c <;> first
      | exact hx.elim
      | exact ⟨fun _ _ h => absurd h List.not_mem_nil, fun _ h => absurd h List.not_mem_nil⟩

end Rules

section Contents

variable {P : Primitives β} {h s : Hashed β} {g u c iv key : List β} {sel sel' : Selector β}

theorem tags_append : Selector.tags (sel ++ sel') = Selector.tags sel ++ Selector.tags sel' :=
  List.flatMap_append

theorem tags_nameSelector : Selector.tags (nameSelector h) = [h.toList] := by
  simp [Selector.tags, nameSelector]

theorem tags_users_eq :
    Selector.tags [(["users", "name"], .eq (.binary c))] = [c] := by
  simp [Selector.tags]

theorem tags_users_ne :
    Selector.tags [(["users", "name"], .ne (.binary c))] = [c] := by
  simp [Selector.tags]

theorem tags_signature :
    Selector.tags [(["signature"], .eq (.binary c))] = [] := by
  simp [Selector.tags]

theorem tags_pushUpdate :
    (pushUpdate h c s).flatMap UpdateOp.tags = [h.toList, s.toList] := by
  simp [pushUpdate, UpdateOp.tags, bytesAt]

theorem ciphertexts_pushUpdate : (pushUpdate h c s).flatMap UpdateOp.ciphertexts = [c] := by
  simp [pushUpdate, UpdateOp.ciphertexts, bytesAt]

theorem tags_pullUpdate : (pullUpdate h s).flatMap UpdateOp.tags = [h.toList, s.toList] := by
  simp [pullUpdate, UpdateOp.tags, Selector.tags, bytesAt]

theorem ciphertexts_pullUpdate : (pullUpdate h s).flatMap UpdateOp.ciphertexts = [] := by
  simp [pullUpdate, UpdateOp.ciphertexts, bytesAt]

theorem tags_newGroupDoc : bytesBelow ["name", "signature"] (newGroupDoc P g u c iv) =
    [(hashName P g none).toList, (P.hmac ((hashName P g none).toList ++ P.encryptAesgcm iv g ++
      ((hashName P u (some g)).toList ++ c))).toList, (hashName P u (some g)).toList] := by
  simp [bytesBelow, bytesAt, newGroupDoc, newGroup, signedFields, entryValue, Bytes.concat]

theorem ciphertexts_newGroupDoc : bytesBelow ["key", "encname"] (newGroupDoc P g u c iv) =
    [P.encryptAesgcm iv g, c] := by
  simp [bytesBelow, bytesAt, newGroupDoc, newGroup, signedFields, entryValue]

theorem tags_newUserDoc : bytesBelow ["name", "signature"] (newUserDoc P u key iv) =
    [(hashName P u none).toList,
      (P.hmac ((hashName P u none).toList ++ P.encryptAesgcm iv key)).toList] := by
  simp [bytesBelow, bytesAt, newUserDoc, computeUserSignature, computeHmac2]

theorem ciphertexts_newUserDoc : bytesBelow ["key", "encname"] (newUserDoc P u key iv) =
    [P.encryptAesgcm iv key] := by
  simp [bytesBelow, bytesAt, newUserDoc]

end Contents

section Knowledge

variable [DecidableEq β] {P : Primitives β} {log : Log β} {d : Doc β} {s key : List β}

theorem Checked.reads {x : Line β} (h : Checked P x s) : x.call.Reads := by
  cases h <;> trivial

theorem checked_iff {cur cur' : Cursor β} : Checked P ⟨.cursorNext cur, (some d, cur')⟩ s ↔
    (validateGroupSignature P d = some true ∧ signedStream d = some s) ∨
      ∃ name c signature, s = name ++ c ∧ (Iter.initFind d "name").binary = some name ∧
        (Iter.initFind d "key").binary = some c ∧
        (Iter.initFind d "signature").binary = some signature ∧
        (computeUserSignature P name c).toList = signature := by
  constructor
  · intro h
    cases h with
    | group hvalid hs => exact .inl ⟨hvalid, hs⟩
    | record hname hc hsignature hvalid =>
      exact .inr ⟨_, _, _, rfl, hname, hc, hsignature, hvalid⟩
  · rintro (⟨hvalid, hs⟩ | ⟨name, c, signature, rfl, hname, hc, hsignature, hvalid⟩)
    · exact .group hvalid hs
    · exact .record hname hc hsignature hvalid

omit [DecidableEq β] in
theorem Opened.reads {x : Line β} (h : Opened P x key) : x.call.Reads := by
  cases h <;> trivial

omit [DecidableEq β] in
theorem opened_iff {cur cur' : Cursor β} : Opened P ⟨.cursorNext cur, (some d, cur')⟩ key ↔
    (∃ c, (Iter.initFind d "key").binary = some c ∧ P.decryptAesgcm c = some key) ∨
      ∃ cs, keysRead d = some cs ∧ ∃ c ∈ cs, P.decryptAesgcm c = some key := by
  constructor
  · intro h
    cases h with
    | record hc hkey => exact .inl ⟨_, hc, hkey⟩
    | entry hcs hc hkey => exact .inr ⟨_, hcs, _, hc, hkey⟩
  · rintro (⟨c, hc, hkey⟩ | ⟨cs, hcs, c, hc, hkey⟩)
    · exact .record hc hkey
    · exact .entry hcs hc hkey

theorem Returned.checked (h : Returned log d) (hvalid : validateGroupSignature P d = some true)
    (hs : signedStream d = some s) : s ∈ accepted (Checked P) log := by
  obtain ⟨cur, cur', h⟩ := h
  exact ⟨_, h, .group hvalid hs⟩

theorem exists_signedStream (h : validateGroupSignature P d = some true) :
    ∃ s, signedStream d = some s := by
  cases hd : signedStream d with
  | some s => exact ⟨s, rfl⟩
  | none =>
    have hsign : groupSignature P d = none := by
      unfold signedStream at hd
      rw [Option.map_eq_none_iff] at hd
      have hfeeds : feedDocument (isDropped none true) d = none := hd
      rw [groupSignature, computeGroupSignature, hfeeds]
      rfl
    simp [validateGroupSignature, hsign] at h

theorem recordKey_eq_some (h : recordKey P d = some key) : ∃ name c signature,
    (Iter.initFind d "name").binary = some name ∧ (Iter.initFind d "key").binary = some c ∧
    (Iter.initFind d "signature").binary = some signature ∧
    (computeUserSignature P name c).toList = signature ∧ P.decryptAesgcm c = some key := by
  simp only [recordKey, Option.bind_eq_bind, Option.bind_eq_some_iff,
    Option.ite_none_right_eq_some] at h
  obtain ⟨name, hname, c, hc, signature, hsignature, hvalid, hkey⟩ := h
  exact ⟨name, c, signature, hname, hc, hsignature, hvalid, hkey⟩

theorem KeyRead.recordOf (h : KeyRead P log key) : RecordOf P (accepted (Checked P) log) key := by
  obtain ⟨cur, d, cur', -, hd, hkey⟩ := h
  obtain ⟨name, c, signature, hname, hc, hsignature, hvalid, hkey⟩ := recordKey_eq_some hkey
  exact ⟨name, c, ⟨_, hd, .record hname hc hsignature hvalid⟩, hkey⟩

theorem KeyRead.opened (h : KeyRead P log key) : key ∈ accepted (Opened P) log := by
  obtain ⟨cur, d, cur', -, hd, hkey⟩ := h
  obtain ⟨name, c, signature, -, hc, -, -, hkey⟩ := recordKey_eq_some hkey
  exact ⟨_, hd, .record hc hkey⟩

end Knowledge

section Watched

variable [DecidableEq β] {P : Primitives β} {q : Request β} {g u : List β} {log : Log β}

theorem Vouched.read {cur : Cursor β} {r : Reply (.cursorNext cur)}
    (h : ∀ t ∈ Selector.tags cur.filter, ∃ s, t = (P.hmac s).toList ∧
      q.Authenticates P (accepted (Checked P) log) s) : Vouched P q log ⟨.cursorNext cur, r⟩ :=
  ⟨fun _ => h, fun _ h => absurd h List.not_mem_nil⟩

omit [DecidableEq β] in
theorem hashName_none (n : List β) : hashName P n none = P.hmac n := by
  rw [hashName, Option.getD_none, List.append_nil]

theorem vouched_user {A : Set (List β)} (hu : q.user? = some u) :
    ∃ s, (hashName P u none).toList = (P.hmac s).toList ∧ q.Authenticates P A s :=
  ⟨u, by rw [hashName_none], .user hu⟩

theorem vouched_group {A : Set (List β)} (hg : q.group? = some g) :
    ∃ s, (hashName P g none).toList = (P.hmac s).toList ∧ q.Authenticates P A s :=
  ⟨g, by rw [hashName_none], .group hg⟩

theorem vouched_member {A : Set (List β)} (hu : q.user? = some u) (hg : q.group? = some g) :
    ∃ s, (hashName P u (some g)).toList = (P.hmac s).toList ∧ q.Authenticates P A s :=
  ⟨u ++ g, rfl, .member hu hg⟩

/-- The attempts of an edit, if the watch lets them read the group and what is known before the
edit, and stays known, lets them write it. -/
theorem editRule_watched {W : Watch β} {edit : GroupEdit β} {K : Log β → Prop}
    (hK : ∀ log x, K log → K (log ++ [x]))
    (hfind : ∀ log x, W.guar log (findLine edit x))
    (hsend : ∀ d log sel upd r, K log → JustRead log d → EditOf P edit d sel upd →
      W.guar log ⟨.updateOne .groups sel upd, r⟩) :
    EditRule W P edit (fun _ => K) (fun _ d log => K log ∧ JustRead log d) (fun _ _ => True) where
  quiet_start _ log x h _ := hK log x h
  quiet_read _ _ log x h hx := ⟨hK log x h.1, quiet_justRead log x h.2 hx⟩
  quiet_done _ _ _ _ _ := trivial
  find _ log x _ _ := hfind log x
  absent _ _ _ _ _ := trivial
  present _ log _ _ h _ := ⟨hK log _ h, log, _, _, [], rfl, rfl, by simp⟩
  stop _ _ _ _ _ _ := trivial
  send _ d log sel upd r h hedit _ := hsend d log sel upd r h.1 h.2 hedit
  answer _ _ log _ _ r h _ _ := by
    cases r with
    | ok reply =>
      refine ⟨fun _ => trivial, fun v _ => ?_⟩
      split
      · trivial
      · exact hK log _ h.1
    | error e =>
      simp only [Answered]
      split
      · trivial
      · exact hK log _ h.1
  exhausted _ _ := trivial

omit [DecidableEq β] in
theorem Request.Adds.user?_eq (hq : q.Adds g u) : q.user? = some u := by
  rcases hq with rfl | rfl <;> rfl

omit [DecidableEq β] in
theorem Request.Adds.group?_eq (hq : q.Adds g u) : q.group? = some g := by
  rcases hq with rfl | rfl <;> rfl

theorem editRule_join {c : List β} (hq : q.Adds g u) :
    EditRule (custodyWatch P q) P (addEdit P g u c) (fun _ => KeyEncrypted P c)
      (fun _ d log => KeyEncrypted P c log ∧ JustRead log d) (fun _ _ => True) := by
  have hnames : ∀ A, ∀ t ∈ Selector.tags (addEdit P g u c).selector,
      ∃ s, t = (P.hmac s).toList ∧ q.Authenticates P A s := by
    intro A
    simp only [addEdit, tags_append, tags_nameSelector, tags_users_ne, List.cons_append,
      List.nil_append, List.forall_mem_cons]
    exact ⟨vouched_group hq.group?_eq, vouched_member hq.user?_eq hq.group?_eq, by simp⟩
  refine editRule_watched (fun _ _ h => h.append) (fun log x => .read (hnames _)) ?_
  rintro d log sel upd r ⟨key, iv, rfl, hkey⟩ hd ⟨hvalid, σ, s, -, hs, rfl, rfl⟩
  rw [sign_addEdit, Option.map_eq_some_iff] at hs
  obtain ⟨bytes, hbytes, rfl⟩ := hs
  constructor
  · simp only [Call.tags, tags_append, tags_signature, List.append_nil]
    intro _ t ht
    rcases List.mem_append.mp ht with ht | ht
    · exact hnames _ t ht
    · rw [addEdit, tags_pushUpdate] at ht
      rcases List.mem_cons.mp ht with rfl | ht
      · exact vouched_member hq.user?_eq hq.group?_eq
      · rw [List.mem_singleton.mp ht]
        exact ⟨_, rfl, .join hq hkey.recordOf (hd.returned.checked hvalid hbytes)⟩
  · intro c hc
    rw [Call.ciphertexts, addEdit, ciphertexts_pushUpdate] at hc
    rw [List.mem_singleton.mp hc]
    exact ⟨iv, key, rfl, .again hq hkey.opened⟩

theorem editRule_leave :
    EditRule (custodyWatch P (.op (.removeUserFromGroup g u))) P (removeEdit P g u)
      (fun _ _ => True) (fun _ d log => True ∧ JustRead log d) (fun _ _ => True) := by
  have hnames : ∀ A, ∀ t ∈ Selector.tags (removeEdit P g u).selector, ∃ s, t = (P.hmac s).toList ∧
      (Request.op (.removeUserFromGroup g u)).Authenticates P A s := by
    intro A
    simp only [removeEdit, tags_append, tags_nameSelector, tags_users_eq, List.cons_append,
      List.nil_append, List.forall_mem_cons]
    exact ⟨vouched_group rfl, vouched_member rfl rfl, by simp⟩
  refine editRule_watched (fun _ _ _ => trivial) (fun log x => .read (hnames _)) ?_
  rintro d log sel upd r - hd ⟨hvalid, σ, s, -, hs, rfl, rfl⟩
  obtain ⟨s', hs'⟩ := exists_signedStream hvalid
  constructor
  · simp only [Call.tags, tags_append, tags_signature, List.append_nil]
    intro hnested t ht
    rw [sign_removeEdit (hnested trivial d hd.returned hvalid), Option.map_eq_some_iff] at hs
    obtain ⟨bytes, hbytes, rfl⟩ := hs
    rcases List.mem_append.mp ht with ht | ht
    · exact hnames _ t ht
    · rw [removeEdit, tags_pullUpdate] at ht
      rcases List.mem_cons.mp ht with rfl | ht
      · exact vouched_member rfl rfl
      · rw [List.mem_singleton.mp ht]
        exact ⟨_, rfl, .leave hs' (hd.returned.checked hvalid hs') hbytes⟩
  · intro c hc
    rw [Call.ciphertexts, removeEdit, ciphertexts_pullUpdate] at hc
    exact absurd hc List.not_mem_nil

theorem recordRule_custody (hu : q.user? = some u) :
    RecordRule (custodyWatch P q) P u (fun _ => True)
      (fun d _ log => ∀ key, recordKey P d = some key → KeyRead P log key)
      (fun _ _ => True) where
  quiet_start _ _ _ _ := trivial
  quiet_read _ _ _ _ h _ key hkey := (h key hkey).append
  find _ _ _ _ := by
    apply Vouched.read
    simp only [findWithOpts, tags_nameSelector, List.forall_mem_cons]
    exact ⟨vouched_user hu, by simp⟩
  absent _ _ _ _ := trivial
  present _ d cur _ _ key hkey :=
    ⟨_, d, cur, rfl, List.mem_append_right _ (List.mem_singleton_self _), hkey⟩
  stop _ _ _ _ _ _ := trivial

theorem joinRule_custody (hq : q.Adds g u) :
    JoinRule (custodyWatch P q) P g u (fun _ => True)
      (fun d _ log => ∀ key, recordKey P d = some key → KeyRead P log key)
      (fun c _ => KeyEncrypted P c) (fun c _ d log => KeyEncrypted P c log ∧ JustRead log d)
      (fun _ _ => True) where
  record := recordRule_custody hq.user?_eq
  edit _ := editRule_join hq
  start _ _ key iv _ h hkey := ⟨key, iv, rfl, h key hkey⟩

theorem foundRule_custody :
    FoundRule (custodyWatch P (.op (.createGroup g u))) P g u (fun _ => True)
      (fun d _ log => ∀ key, recordKey P d = some key → KeyRead P log key) (KeyEncrypted P)
      (fun c _ => KeyEncrypted P c) (fun c _ d log => KeyEncrypted P c log ∧ JustRead log d)
      (fun _ _ => True) where
  record := recordRule_custody rfl
  edit _ := editRule_join (.inr rfl)
  quiet_insert _ _ _ h _ := h.append
  start _ _ key iv _ h hkey := ⟨key, iv, rfl, h key hkey⟩
  insert := by
    rintro c iv r log ⟨key, iv', rfl, hkey⟩ -
    constructor
    · intro _
      simp only [Call.tags, tags_newGroupDoc, List.forall_mem_cons]
      refine ⟨vouched_group rfl, ⟨_, rfl, .found hkey.recordOf⟩, vouched_member rfl rfl, ?_⟩
      exact fun _ h => absurd h List.not_mem_nil
    · simp only [Call.ciphertexts, ciphertexts_newGroupDoc, List.forall_mem_cons]
      refine ⟨⟨iv, g, rfl, .name⟩, ⟨iv', key, rfl, .again (.inr rfl) hkey.opened⟩, ?_⟩
      exact fun _ h => absurd h List.not_mem_nil
  inserted _ _ _ _ _ := trivial
  refused _ _ _ _ h _ _ := h.append
  failed _ _ _ _ _ _ _ := trivial

theorem sweepRule_custody : SweepRule (custodyWatch P (.op (.deleteUser u))) P u
    (fun cur bulk log => cur.filter = [] ∧ QueuedFrom P u bulk log)
    (fun cur bulk d log => cur.filter = [] ∧ Returned log d ∧ QueuedFrom P u bulk log)
    (fun bulk log => QueuedFrom P u bulk log) (fun _ _ => True) where
  quiet_round _ _ _ _ h _ := ⟨h.1, h.2.append⟩
  quiet_read _ _ _ _ _ h _ := ⟨h.1, h.2.1.append, h.2.2.append⟩
  quiet_write _ _ _ h _ := h.append
  quiet_done _ _ _ _ _ := trivial
  next cur _ _ _ h _ := by
    apply Vouched.read
    rw [h.1]
    exact fun _ h => absurd h List.not_mem_nil
  visit _ _ _ _ cur' h hallowed :=
    ⟨Eq.trans hallowed h.1, returned_append_iff.mpr (.inr ⟨_, cur', rfl⟩), h.2.append⟩
  stop _ _ _ _ _ _ _ := trivial
  queue _ bulk d _ op h hop := by
    refine ⟨h.1, fun op' hop' => ?_⟩
    rcases List.mem_append.mp hop' with hop' | hop'
    · exact h.2.2 op' hop'
    · rw [List.mem_singleton.mp hop']
      exact ⟨d, h.2.1, hop⟩
  idle _ _ _ _ _ := trivial
  ended _ _ _ _ _ h _ := h.2.append
  write op _ _ _ h _ := by
    obtain ⟨d, hd, hvalid, c, g, s, hc, hg, hs, rfl⟩ := h op (List.mem_cons_self ..)
    obtain ⟨s', hs'⟩ := exists_signedStream hvalid
    have hchecked := hd.checked hvalid hs'
    constructor
    · intro hnested
      rw [computeGroupSignature_remove (hnested trivial d hd hvalid), Option.map_eq_some_iff] at hs
      obtain ⟨bytes, hbytes, rfl⟩ := hs
      simp only [bulkLine, Call.tags, tags_pullUpdate, List.forall_mem_cons]
      refine ⟨⟨u ++ g, rfl, .swept hs' hchecked hc hg⟩,
        ⟨bytes, rfl, .sweep hs' hchecked hc hg hbytes⟩, ?_⟩
      exact fun _ h => absurd h List.not_mem_nil
    · simp only [bulkLine, Call.ciphertexts, ciphertexts_pullUpdate]
      exact fun _ h => absurd h List.not_mem_nil
  written _ _ _ h _ op hop := h.append op (List.mem_cons_of_mem _ hop)
  broken _ _ _ _ _ _ := by
    split
    · trivial
    · exact fun _ h => absurd h List.not_mem_nil
  delete _ _ _ _ := by
    refine ⟨fun _ => ?_, fun _ h => absurd h List.not_mem_nil⟩
    simp only [deleteLine, Call.tags, tags_nameSelector, List.forall_mem_cons]
    exact ⟨vouched_user rfl, fun _ h => absurd h List.not_mem_nil⟩
  deleted _ _ _ := trivial
  failed _ _ _ _ := trivial

end Watched

section Requests

variable [DecidableEq β] {P : Primitives β} {q : Request β} {g u : List β} {log : Log β}

def KeysOpened (P : Primitives β) (r : Except Stop (Answer β)) (log : Log β) : Prop :=
  ∀ ks, r = .ok (.keys ks) → ∀ k ∈ ks, k.toList ∈ accepted (Opened P) log

omit [DecidableEq β] in
theorem opened_of_keysHeld {d : Doc β} {ks : List (Key β)} (hd : Returned log d)
    (h : keysHeld P d = some ks) : ∀ k ∈ ks, k.toList ∈ accepted (Opened P) log := by
  obtain ⟨cur, cur', hd⟩ := hd
  obtain ⟨cs, hcs, hks⟩ := Option.bind_eq_some_iff.mp h
  intro k hk
  obtain ⟨c, hc, hk⟩ := mem_of_mapM hks hk
  simp only [keyHeld, Option.bind_eq_bind, Option.bind_eq_some_iff] at hk
  obtain ⟨key, hkey, hk⟩ := hk
  split at hk
  · obtain rfl := Option.some.inj hk
    exact ⟨_, hd, .entry hcs hc hkey⟩
  · cases hk

theorem records_custody (P : Primitives β) (q : Request β) :
    (custodyWatch P q).Records (KeysOpened P) (q.prog P) [] := by
  cases q with
  | op o =>
    apply Records.map
    refine Records.mono (Q := fun _ _ => True) ?_ ?_
    rotate_left
    · rintro (e | a) log - ks ⟨⟩
    cases o with
    | createUser u key =>
      apply records_createUser (A := fun _ => True) (D := fun _ _ => True)
      · exact fun _ _ _ _ => trivial
      · exact fun _ _ _ _ _ => trivial
      · refine fun iv r log _ _ => ⟨⟨?_, ?_⟩, trivial⟩
        · intro _
          simp only [Call.tags, tags_newUserDoc, List.forall_mem_cons]
          refine ⟨vouched_user rfl, ⟨_, rfl, .record⟩, ?_⟩
          exact fun _ h => absurd h List.not_mem_nil
        · simp only [Call.ciphertexts, ciphertexts_newUserDoc, List.forall_mem_cons]
          exact ⟨⟨iv, key, rfl, .key⟩, fun _ h => absurd h List.not_mem_nil⟩
      · trivial
    | createGroup g u => exact foundRule_custody.records_createGroup trivial
    | addUserToGroup g u => exact (joinRule_custody (.inl rfl)).records_addUserToGroup trivial
    | removeUserFromGroup g u => exact editRule_leave.records_editAttempts 10 trivial
    | deleteUser u =>
      apply sweepRule_custody.records_deleteUser
      exact ⟨rfl, fun _ h => absurd h List.not_mem_nil⟩
    | deleteAllData =>
      apply records_deleteAllData (A := fun _ => True) (D := fun _ _ => True)
      · exact fun _ _ _ _ => trivial
      · intro coll todo r log _ _
        refine ⟨⟨fun _ _ h => absurd h List.not_mem_nil, fun _ h => absurd h List.not_mem_nil⟩, ?_⟩
        cases r <;> simp
      · exact fun _ _ => trivial
      · trivial
  | getKeysOfGroup g =>
    apply Records.map
    apply records_getKeysOfGroup (A := fun _ => True)
      (B := fun o log => ∀ d, o = some d → Returned log d)
    · exact fun _ _ _ _ => trivial
    · exact fun o log x h _ d hd => (h d hd).append
    · intro x log _ _
      constructor
      · apply Vouched.read
        simp only [findWithOpts, tags_nameSelector, List.forall_mem_cons]
        exact ⟨vouched_group rfl, fun _ h => absurd h List.not_mem_nil⟩
      · intro d hd
        obtain ⟨o, cur'⟩ := x
        obtain rfl : o = some d := hd
        exact returned_append_iff.mpr (.inr ⟨_, cur', rfl⟩)
    · rintro o e log - ks ⟨⟩
    · rintro d ks log hd - hks _ ⟨⟩
      exact opened_of_keysHeld (hd d rfl) hks
    · trivial
  | isUserPartOfGroup g u =>
    apply Records.map
    apply records_isUserPartOfGroup (A := fun _ => True) (B := fun _ _ => True)
    · exact fun _ _ _ _ => trivial
    · exact fun _ _ _ _ _ => trivial
    · refine fun x log _ _ => ⟨?_, trivial⟩
      apply Vouched.read
      simp only [memberCursor, findWithOpts, tags_append, tags_nameSelector, tags_users_eq,
        List.cons_append, List.nil_append, List.forall_mem_cons]
      refine ⟨vouched_group rfl, vouched_member rfl rfl, ?_⟩
      exact fun _ h => absurd h List.not_mem_nil
    · rintro x e log - - - ks ⟨⟩
    · rintro x log - - ks ⟨⟩
    · trivial

end Requests

end MongoSgx
