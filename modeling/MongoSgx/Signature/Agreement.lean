import MongoSgx.Store.Group

/-! # What is read and what was signed

The signer walks over every field of a group document and looks for the key of an
entry after its name; the readers take the first field of each name. An element
that is no container leaves both in the entry before it, where the signer looks
for one more name and the key after it, and the reader for one more key. On
accepted documents the two agree exactly when the fields that only one of them
sees carry nothing.
-/

namespace MongoSgx

open Bson Interaction

variable {β : Type}

section Values

/-- The bytes of a binary value; other values have none. -/
def bytesOf : Value β → List β
  | .binary b => b
  | _ => []

def recurseValue (v : Value β) : Option (Doc β) :=
  ((Iter.mk (some ("", v)) []).recurse none).map Iter.rest

def contentsOf (v : Value β) : Doc β := (recurseValue v).getD []

def fieldsNamed (key : String) (d : Doc β) : List (Value β) :=
  (d.filter fun f => f.1 = key).map Prod.snd

def keysIn (d : Doc β) : List (List β) := (fieldsNamed "key" d).map bytesOf

/-- The keys of a walk that looks for a name and a key by turns. -/
def keysByTurns : (named : Bool) → Doc β → List (List β)
  | _, [] => []
  | false, f :: d => keysByTurns (f.1 = "name") d
  | true, f :: d =>
    if f.1 = "key" then bytesOf f.2 :: keysByTurns false d else keysByTurns true d

/-- The first key after the first name, the first key after the next name, and so on. -/
def keysAfterNames (d : Doc β) : List (List β) := keysByTurns false d

def ahead (it : Option (Iter β)) : Doc β := it.elim [] Iter.rest

theorem get?_cons (key : String) (f : String × Value β) (d : Doc β) :
    Doc.get? (f :: d) key = if f.1 = key then some f.2 else Doc.get? d key := by
  obtain ⟨k, v⟩ := f
  by_cases h : k = key
  · simp [Doc.get?, h]
  · have hb : (key == k) = false := by simpa using Ne.symm h
    simp [Doc.get?, List.lookup_cons, h, hb]

theorem fieldsNamed_cons (key : String) (f : String × Value β) (d : Doc β) :
    fieldsNamed key (f :: d) =
      if f.1 = key then f.2 :: fieldsNamed key d else fieldsNamed key d := by
  by_cases h : f.1 = key <;> simp [fieldsNamed, h]

theorem get?_eq_head (key : String) (d : Doc β) : Doc.get? d key = (fieldsNamed key d).head? := by
  induction d with
  | nil => rfl
  | cons f d ih =>
    rw [get?_cons, fieldsNamed_cons]
    split
    · rfl
    · exact ih

@[simp] theorem recurse_some (f : String × Value β) (rest : Doc β) (child : Option (Iter β)) :
    (Iter.mk (some f) rest).recurse child = ((recurseValue f.2).map Iter.init).or child := by
  obtain ⟨k, v⟩ := f
  cases v <;> rfl

theorem ahead_recurse (v : Value β) (it : Option (Iter β)) :
    ahead (((recurseValue v).map Iter.init).or it) = (recurseValue v).getD (ahead it) := by
  cases recurseValue v <;> rfl

@[simp] theorem binary_some (f : String × Value β) (rest : Doc β) :
    (Iter.mk (some f) rest).binary = some (bytesOf f.2) := by
  obtain ⟨k, v⟩ := f
  cases v <;> rfl

theorem binary_findIn (key : String) (d : Doc β) :
    (Iter.findIn key d).binary = (Doc.get? d key).map bytesOf := by
  induction d with
  | nil => rfl
  | cons f d ih =>
    rw [get?_cons, Iter.findIn]
    by_cases h : f.1 = key
    · simp [h]
    · simpa [h] using ih

theorem recurse_findIn (key : String) (d : Doc β) :
    (Iter.findIn key d).recurse none =
      ((Doc.get? d key).bind recurseValue).map Iter.init := by
  induction d with
  | nil => rfl
  | cons f d ih =>
    rw [get?_cons, Iter.findIn]
    by_cases h : f.1 = key
    · simp [h]
    · simpa [h] using ih

theorem keysByTurns_false (d : Doc β) :
    keysByTurns false d = keysByTurns true (Iter.findIn "name" d).rest := by
  induction d with
  | nil => rfl
  | cons f d ih =>
    rw [keysByTurns, Iter.findIn]
    by_cases h : f.1 = "name"
    · simp [h]
    · simpa [h] using ih

theorem keysByTurns_true (d : Doc β) : keysByTurns true d =
    (Iter.findIn "key" d).binary.elim [] (· :: keysByTurns false (Iter.findIn "key" d).rest) := by
  induction d with
  | nil => rfl
  | cons f d ih =>
    rw [keysByTurns, Iter.findIn]
    by_cases h : f.1 = "key"
    · simp [h]
    · simpa [h] using ih

theorem keysIn_eq (d : Doc β) : keysIn d =
    (Iter.findIn "key" d).binary.elim [] (· :: keysIn (Iter.findIn "key" d).rest) := by
  induction d with
  | nil => rfl
  | cons f d ih =>
    unfold keysIn at ih ⊢
    rw [fieldsNamed_cons, Iter.findIn]
    by_cases h : f.1 = "key"
    · simp [h]
    · simpa [h] using ih

end Values

section Readers

/-- What `get_keys_of_group` takes from one entry, with the iterator of the entry before. -/
def keyRead (userDocumentIter : Option (Iter β)) (entry : String × Value β) :
    Option (Option (Iter β) × List (List β)) := do
  let userDocumentIter ← (Iter.mk (some entry) []).recurse userDocumentIter
  let userDocumentIter := userDocumentIter.find "key"
  let keyBinary ← userDocumentIter.binary
  return (some userDocumentIter, [keyBinary])

def keysRead (d : Doc β) : Option (List (List β)) := do
  let arrayIter ← (Iter.initFind d "users").recurse none
  (Rounds.run keyRead none arrayIter.rest).map Prod.snd

/-- The bytes that `remove_user_from_all_groups` decrypts. -/
def encnameRead (d : Doc β) : Option (List β) := (Iter.initFind d "encname").binary

def decryptKeys (P : Primitives β) : List (List β) → Enclave β (List (Key β))
  | [] => return []
  | c :: cs => do
    let key ← decryptData P c
    if h : key.length = keySize then
      let list ← decryptKeys P cs
      return ⟨key, h⟩ :: list
    else throw (bsonError "Key size is wrong" 513)

theorem keyRead_cases (it : Option (Iter β)) (entry : String × Value β) :
    (keyRead it entry = none ∧ keysIn ((recurseValue entry.2).getD (ahead it)) = []) ∨
      ∃ it' key, keyRead it entry = some (it', [key]) ∧
        keysIn ((recurseValue entry.2).getD (ahead it)) = key :: keysIn (ahead it') := by
  rw [keyRead, recurse_some, ← ahead_recurse]
  cases ((recurseValue entry.2).map Iter.init).or it with
  | none => exact .inl ⟨rfl, rfl⟩
  | some jt =>
    rw [show ahead (some jt) = jt.rest from rfl, keysIn_eq]
    cases hkey : (Iter.findIn "key" jt.rest).binary with
    | none => exact .inl ⟨by simp [Iter.find, hkey], rfl⟩
    | some key => exact .inr ⟨some (jt.find "key"), key, by simp [Iter.find, hkey], rfl⟩

theorem length_run_keyRead {it it' : Option (Iter β)} {array : Doc β} {cs : List (List β)}
    (h : Rounds.run keyRead it array = some (it', cs)) : cs.length = array.length := by
  induction array generalizing it cs with
  | nil =>
    obtain ⟨-, rfl⟩ := Prod.mk.inj (Option.some.inj h)
    rfl
  | cons entry array ih =>
    obtain ⟨jt, c, cs, hround, hrest, rfl⟩ := Rounds.run_cons_eq_some.mp h
    rcases keyRead_cases it entry with ⟨hnone, -⟩ | ⟨_, key, hsome, -⟩
    · simp [hnone] at hround
    · obtain ⟨-, rfl⟩ := Prod.mk.inj (Option.some.inj (hsome.symm.trans hround))
      rw [List.length_append, ih hrest]
      exact Nat.add_comm ..

theorem readKeys_of_keyRead {P : Primitives β} {it it' : Option (Iter β)}
    {entry : String × Value β} {c : List β} (h : keyRead it entry = some (it', [c]))
    (array : Doc β) :
    readKeys P it (entry :: array) = (decryptData P c).bind fun key =>
      if h : key.length = keySize then
        (readKeys P it' array).bind fun list => .pure (⟨key, h⟩ :: list)
      else throw (bsonError "Key size is wrong" 513) := by
  rw [keyRead] at h
  cases huser : (Iter.mk (some entry) []).recurse it with
  | none => simp [huser] at h
  | some user =>
    cases hkey : (user.find "key").binary with
    | none => simp [huser, hkey] at h
    | some key =>
      simp only [huser, hkey, Option.bind_eq_bind, Option.bind_some, Option.pure_def,
        Option.some.injEq, Prod.mk.injEq, List.cons.injEq, and_true] at h
      obtain ⟨rfl, rfl⟩ := h
      rw [readKeys]
      simp only [huser, read_some, Prog.bind_eq, Prog.pure_bind, hkey]
      rfl

theorem readKeys_of_keyRead_none {P : Primitives β} {it : Option (Iter β)}
    {entry : String × Value β} (h : keyRead it entry = none) (array : Doc β) :
    readKeys P it (entry :: array) = .throw .fault := by
  rw [keyRead] at h
  rw [readKeys]
  cases huser : (Iter.mk (some entry) []).recurse it with
  | none => rfl
  | some user =>
    cases hkey : (user.find "key").binary with
    | none => simp only [read_some, Prog.bind_eq, Prog.pure_bind, hkey]; rfl
    | some key => simp [huser, hkey] at h

theorem readKeys_eq_decryptKeys (P : Primitives β) {it it' : Option (Iter β)} {array : Doc β}
    {cs : List (List β)} (h : Rounds.run keyRead it array = some (it', cs)) :
    readKeys P it array = decryptKeys P cs := by
  induction array generalizing it cs with
  | nil =>
    obtain ⟨-, rfl⟩ := Prod.mk.inj (Option.some.inj h)
    rfl
  | cons entry array ih =>
    obtain ⟨jt, cs, ds, hround, hrest, rfl⟩ := Rounds.run_cons_eq_some.mp h
    rcases keyRead_cases it entry with ⟨hnone, -⟩ | ⟨_, c, hsome, -⟩
    · simp [hnone] at hround
    · obtain ⟨rfl, rfl⟩ := Prod.mk.inj (Option.some.inj (hsome.symm.trans hround))
      rw [readKeys_of_keyRead hsome, ih hrest]
      rfl

end Readers

section Signer

def fedAt (site : Site) (feeds : List (Feed β)) : List (List β) :=
  (feeds.filter fun f => f.site = site).map Feed.bytes

/-- Everything that `compute_group_signature` feeds for the document as it is. -/
def feeds (d : Doc β) : Option (List (Feed β)) := feedDocument (fun _ => false) d

def keysSigned (d : Doc β) : Option (List (List β)) := (feeds d).map (fedAt .userKey)

def encnameSigned (d : Doc β) : Option (List β) :=
  (feeds d).map fun fs => (fedAt .encname fs).flatten

@[simp] theorem fedAt_append (site : Site) (fs gs : List (Feed β)) :
    fedAt site (fs ++ gs) = fedAt site fs ++ fedAt site gs := by
  simp [fedAt]

theorem feedUser_some {it it' : Option (Iter β)} {entry : String × Value β} {fs : List (Feed β)}
    (h : feedUser (fun _ => false) it entry = some (it', fs)) :
    ∃ key, fedAt .userKey fs = [key] ∧ fedAt .encname fs = [] ∧
      keysAfterNames ((recurseValue entry.2).getD (ahead it)) =
        key :: keysAfterNames (ahead it') := by
  rw [feedUser, recurse_some] at h
  rw [← ahead_recurse]
  cases hjt : ((recurseValue entry.2).map Iter.init).or it with
  | none => simp [hjt] at h
  | some jt =>
    cases hname : (jt.find "name").binary with
    | none => simp [hjt, hname] at h
    | some name =>
      cases hkey : ((jt.find "name").find "key").binary with
      | none => simp [hjt, hname, hkey] at h
      | some key =>
        simp only [hjt, hname, hkey, Option.bind_eq_bind, Option.bind_some, Option.pure_def,
          Bool.false_eq_true, ↓reduceIte, Option.some.injEq, Prod.mk.injEq] at h
        obtain ⟨rfl, rfl⟩ := h
        refine ⟨key, rfl, rfl, ?_⟩
        change keysByTurns false jt.rest = _
        rw [keysByTurns_false, keysByTurns_true]
        change (((jt.find "name").find "key").binary).elim [] _ = _
        rw [hkey]
        rfl

theorem run_feedUser_some {it it' : Option (Iter β)} {array : Doc β} {fs : List (Feed β)}
    (h : Rounds.run (feedUser fun _ => false) it array = some (it', fs)) :
    (fedAt .userKey fs).length = array.length ∧ fedAt .encname fs = [] := by
  induction array generalizing it fs with
  | nil =>
    obtain ⟨-, rfl⟩ := Prod.mk.inj (Option.some.inj h)
    exact ⟨rfl, rfl⟩
  | cons entry array ih =>
    obtain ⟨jt, fs, gs, hround, hrest, rfl⟩ := Rounds.run_cons_eq_some.mp h
    obtain ⟨key, hkey, hname, -⟩ := feedUser_some hround
    obtain ⟨hkeys, hnames⟩ := ih hrest
    constructor
    · rw [fedAt_append, hkey, List.length_append, hkeys]
      exact Nat.add_comm ..
    · rw [fedAt_append, hname, hnames, List.append_nil]

theorem feedField_some {iters iters' : WalkIters β} {f : String × Value β} {fs : List (Feed β)}
    (h : feedField (fun _ => false) iters f = some (iters', fs)) :
    (fedAt .encname fs).flatten = (if f.1 = "encname" then bytesOf f.2 else []) ∧
      if f.1 = "users" then ahead iters'.array = [] ∧ ∃ arrayIter,
        (Iter.mk (some f) []).recurse iters.array = some arrayIter ∧
        Rounds.run (feedUser fun _ => false) iters.userDocument arrayIter.rest =
          some (iters'.userDocument, fs)
      else iters' = iters ∧ fedAt .userKey fs = [] := by
  by_cases hname : f.1 = "name"
  · obtain ⟨rfl, rfl⟩ : iters = iters' ∧ [⟨.name, bytesOf f.2⟩] = fs := by
      simpa [feedField, hname] using h
    simp [hname, fedAt]
  · by_cases hencname : f.1 = "encname"
    · obtain ⟨rfl, rfl⟩ : iters = iters' ∧ [⟨.encname, bytesOf f.2⟩] = fs := by
        simpa [feedField, hencname] using h
      simp [hencname, fedAt]
    · by_cases husers : f.1 = "users"
      · rw [feedField, if_neg hname, if_neg hencname, if_pos husers] at h
        cases harray : (Iter.mk (some f) []).recurse iters.array with
        | none => simp [harray] at h
        | some arrayIter =>
          cases hrun : Rounds.run (feedUser fun _ => false) iters.userDocument
              arrayIter.rest with
          | none => simp [harray, hrun] at h
          | some x =>
            simp only [harray, hrun, Option.bind_eq_bind, Option.bind_some, Option.pure_def,
              Option.some.injEq, Prod.mk.injEq] at h
            obtain ⟨rfl, rfl⟩ := h
            rw [if_neg hencname, if_pos husers, (run_feedUser_some hrun).2]
            exact ⟨rfl, rfl, arrayIter, rfl, hrun⟩
      · obtain ⟨rfl, rfl⟩ : iters = iters' ∧ [] = fs := by
          simpa [feedField, hname, hencname, husers] using h
        rw [if_neg hencname, if_neg husers]
        exact ⟨rfl, rfl, rfl⟩

theorem encname_fed {iters iters' : WalkIters β} {d : Doc β} {fs : List (Feed β)}
    (h : Rounds.run (feedField fun _ => false) iters d = some (iters', fs)) :
    (fedAt .encname fs).flatten = (fieldsNamed "encname" d).flatMap bytesOf := by
  induction d generalizing iters fs with
  | nil =>
    obtain ⟨-, rfl⟩ := Prod.mk.inj (Option.some.inj h)
    rfl
  | cons f d ih =>
    obtain ⟨jters, fs, gs, hround, hrest, rfl⟩ := Rounds.run_cons_eq_some.mp h
    rw [fedAt_append, List.flatten_append, (feedField_some hround).1, ih hrest, fieldsNamed_cons]
    split <;> rfl

theorem length_keys_fed {iters iters' : WalkIters β} {d : Doc β} {fs : List (Feed β)}
    (hiters : ahead iters.array = [])
    (h : Rounds.run (feedField fun _ => false) iters d = some (iters', fs)) :
    (fedAt .userKey fs).length = ((fieldsNamed "users" d).flatMap contentsOf).length := by
  induction d generalizing iters fs with
  | nil =>
    obtain ⟨-, rfl⟩ := Prod.mk.inj (Option.some.inj h)
    rfl
  | cons f d ih =>
    obtain ⟨jters, fs, gs, hround, hrest, rfl⟩ := Rounds.run_cons_eq_some.mp h
    have hfield := (feedField_some hround).2
    rw [fedAt_append, List.length_append, fieldsNamed_cons]
    by_cases husers : f.1 = "users"
    · rw [if_pos husers] at hfield
      obtain ⟨hjters, arrayIter, harray, hrun⟩ := hfield
      have hcontents : arrayIter.rest = contentsOf f.2 := by
        have hahead := ahead_recurse f.2 iters.array
        rwa [← recurse_some f [], harray, hiters] at hahead
      rw [if_pos husers, List.flatMap_cons, List.length_append, (run_feedUser_some hrun).1,
        ih hjters hrest, hcontents]
    · rw [if_neg husers] at hfield
      obtain ⟨rfl, hnil⟩ := hfield
      rw [if_neg husers, hnil, ih hiters hrest]
      exact Nat.zero_add _

theorem first_users_fed {iters' : WalkIters β} {d : Doc β} {fs : List (Feed β)} {v : Value β}
    {vs : List (Value β)} (hv : fieldsNamed "users" d = v :: vs)
    (h : Rounds.run (feedField fun _ => false) ⟨none, none⟩ d = some (iters', fs)) :
    ∃ it us tail, recurseValue v = some (contentsOf v) ∧
      Rounds.run (feedUser fun _ => false) none (contentsOf v) = some (it, us) ∧
      fedAt .userKey fs = fedAt .userKey us ++ tail ∧
      tail.length = (vs.flatMap contentsOf).length := by
  induction d generalizing fs with
  | nil => simp [fieldsNamed] at hv
  | cons f d ih =>
    obtain ⟨jters, fs, gs, hround, hrest, rfl⟩ := Rounds.run_cons_eq_some.mp h
    have hfield := (feedField_some hround).2
    rw [fieldsNamed_cons] at hv
    by_cases husers : f.1 = "users"
    · rw [if_pos husers] at hv hfield
      obtain ⟨rfl, rfl⟩ := List.cons.inj hv
      obtain ⟨hjters, arrayIter, harray, hrun⟩ := hfield
      have hcontents : recurseValue f.2 = some arrayIter.rest := by
        rw [recurse_some, Option.or_none] at harray
        obtain ⟨array, hopen, rfl⟩ := Option.map_eq_some_iff.mp harray
        exact hopen
      have hrest_eq : contentsOf f.2 = arrayIter.rest := by rw [contentsOf, hcontents]; rfl
      exact ⟨_, fs, fedAt .userKey gs, by rw [hcontents, hrest_eq], by rw [hrest_eq]; exact hrun,
        fedAt_append .., length_keys_fed hjters hrest⟩
    · rw [if_neg husers] at hv hfield
      obtain ⟨rfl, hnil⟩ := hfield
      obtain ⟨it, us, tail, hopen, hus, hkeys, htail⟩ := ih hv hrest
      exact ⟨it, us, tail, hopen, hus, by rw [fedAt_append, hnil, hkeys]; rfl, htail⟩

end Signer

section Agreement

/-- The readers decrypt exactly the bytes that were signed. -/
def ReadAsSigned (d : Doc β) : Prop :=
  (∃ ks, keysRead d = some ks ∧ keysSigned d = some ks) ∧
    ∃ e, encnameRead d = some e ∧ encnameSigned d = some e

/-- The number of elements in front of the first container. -/
def scalarsFirst (array : Doc β) : ℕ := (array.takeWhile fun e => (recurseValue e.2).isNone).length

/-- In each entry the first keys are also the first ones after names: one key, and one more for
each element directly behind the entry that is no container. -/
def KeysInTurn (array : Doc β) : Prop :=
  ∀ before e behind, array = before ++ e :: behind →
    (keysIn (contentsOf e.2)).take (scalarsFirst behind + 1) =
      (keysAfterNames (contentsOf e.2)).take (scalarsFirst behind + 1)

/-- There are users and an encrypted name, later fields of these names carry nothing, and the keys
of the entries stand after names. -/
structure ReadOnce (d : Doc β) : Prop where
  users : ∃ v vs, fieldsNamed "users" d = v :: vs ∧ (∀ w ∈ vs, contentsOf w = []) ∧
    KeysInTurn (contentsOf v)
  encname : ∃ v vs, fieldsNamed "encname" d = v :: vs ∧ ∀ w ∈ vs, bytesOf w = []

theorem keysInTurn_nil : KeysInTurn ([] : Doc β) := by
  simp [KeysInTurn]

theorem keysInTurn_cons {e : String × Value β} {array : Doc β} :
    KeysInTurn (e :: array) ↔ (keysIn (contentsOf e.2)).take (scalarsFirst array + 1) =
      (keysAfterNames (contentsOf e.2)).take (scalarsFirst array + 1) ∧ KeysInTurn array := by
  constructor
  · intro h
    exact ⟨h [] e array rfl, fun before x behind hb => h (e :: before) x behind (by rw [hb]; rfl)⟩
  · rintro ⟨hhead, htail⟩ before x behind hb
    rcases before with _ | ⟨y, before⟩
    · obtain ⟨rfl, rfl⟩ := List.cons.inj hb
      exact hhead
    · exact htail before x behind (List.cons.inj hb).2

theorem keys_ahead_iff {it it' : Option (Iter β)} {e : String × Value β} {array : Doc β} :
    ((keysIn (ahead it')).take (scalarsFirst (e :: array)) =
        (keysAfterNames (ahead it)).take (scalarsFirst (e :: array)) ∧
      KeysInTurn (e :: array)) ↔
    (keysIn ((recurseValue e.2).getD (ahead it'))).take (scalarsFirst array + 1) =
        (keysAfterNames ((recurseValue e.2).getD (ahead it))).take (scalarsFirst array + 1) ∧
      KeysInTurn array := by
  rw [keysInTurn_cons]
  cases hv : recurseValue e.2 with
  | none =>
    have hcontents : contentsOf e.2 = [] := by rw [contentsOf, hv]; rfl
    have hscalars : scalarsFirst (e :: array) = scalarsFirst array + 1 := by
      simp [scalarsFirst, hv]
    rw [hscalars, hcontents]
    exact and_congr_right fun _ => and_iff_right rfl
  | some c =>
    have hcontents : contentsOf e.2 = c := by rw [contentsOf, hv]; rfl
    have hscalars : scalarsFirst (e :: array) = 0 := by simp [scalarsFirst, hv]
    rw [hscalars, hcontents]
    exact and_iff_right rfl

/-- The two walks over one array, each with its own iterator: by induction on the array, where an
element that is no container takes one key off what both have ahead. -/
theorem walks_agree_iff {it s : Option (Iter β)} {array : Doc β} {fs : List (Feed β)}
    (h : Rounds.run (feedUser fun _ => false) it array = some (s, fs)) (it' : Option (Iter β)) :
    (Rounds.run keyRead it' array).map Prod.snd = some (fedAt .userKey fs) ↔
      (keysIn (ahead it')).take (scalarsFirst array) =
        (keysAfterNames (ahead it)).take (scalarsFirst array) ∧ KeysInTurn array := by
  induction array generalizing it it' fs with
  | nil =>
    obtain ⟨-, rfl⟩ := Prod.mk.inj (Option.some.inj h)
    exact iff_of_true rfl ⟨rfl, keysInTurn_nil⟩
  | cons e array ih =>
    obtain ⟨jt, fs, gs, hround, hrest, rfl⟩ := Rounds.run_cons_eq_some.mp h
    obtain ⟨key, hkey, -, hsigned⟩ := feedUser_some hround
    rw [keys_ahead_iff, hsigned, fedAt_append, hkey, Rounds.run_cons]
    rcases keyRead_cases it' e with ⟨hnone, hnil⟩ | ⟨jt', key', hread, hahead⟩
    · rw [hnone, hnil]
      simp
    · have hcons : ((Rounds.run keyRead jt' array).map
          fun y => (y.1, [key'] ++ y.2)).map Prod.snd = some ([key] ++ fedAt .userKey gs) ↔
          key' = key ∧ (Rounds.run keyRead jt' array).map Prod.snd = some (fedAt .userKey gs) := by
        cases Rounds.run keyRead jt' array <;> simp
      rw [hread, Option.bind_some, hcons, hahead, ih hrest]
      simp only [List.take_succ_cons, List.cons.injEq, and_assoc]

variable {d : Doc β} {fs : List (Feed β)}

theorem encname_read_iff (h : feeds d = some fs) :
    (∃ e, encnameRead d = some e ∧ encnameSigned d = some e) ↔
      ∃ v vs, fieldsNamed "encname" d = v :: vs ∧ ∀ w ∈ vs, bytesOf w = [] := by
  obtain ⟨⟨iters', _⟩, hrun, rfl⟩ := Option.map_eq_some_iff.mp h
  have hread : encnameRead d = (fieldsNamed "encname" d).head?.map bytesOf := by
    rw [← get?_eq_head]
    exact binary_findIn _ _
  rw [hread, encnameSigned, h, Option.map_some, encname_fed hrun]
  rcases fieldsNamed "encname" d with _ | ⟨v, vs⟩
  · simp
  · simp only [List.head?_cons, Option.map_some, List.flatMap_cons, Option.some.injEq,
      exists_eq_left', List.append_right_eq_self, List.flatMap_eq_nil_iff, List.cons.injEq]
    constructor
    · exact fun hvs => ⟨v, vs, ⟨rfl, rfl⟩, hvs⟩
    · rintro ⟨_, _, ⟨rfl, rfl⟩, hvs⟩
      exact hvs

theorem keysRead_eq (d : Doc β) :
    keysRead d = ((fieldsNamed "users" d).head?.bind recurseValue).bind
      fun array => (Rounds.run keyRead none array).map Prod.snd := by
  rw [← get?_eq_head]
  change ((Iter.findIn "users" d).recurse none).bind _ = _
  rw [recurse_findIn, Option.bind_map]
  rfl

theorem keys_read_iff (h : feeds d = some fs) :
    (∃ ks, keysRead d = some ks ∧ keysSigned d = some ks) ↔
      ∃ v vs, fieldsNamed "users" d = v :: vs ∧ (∀ w ∈ vs, contentsOf w = []) ∧
        KeysInTurn (contentsOf v) := by
  obtain ⟨⟨iters', _⟩, hrun, rfl⟩ := Option.map_eq_some_iff.mp h
  rw [keysRead_eq, keysSigned, h, Option.map_some]
  simp only [Option.some.injEq, exists_eq_right']
  rcases hv : fieldsNamed "users" d with _ | ⟨v, vs⟩
  · simp
  · obtain ⟨it, us, tail, hopen, hus, hkeys, htail⟩ := first_users_fed hv hrun
    have hnil : tail = [] ↔ ∀ w ∈ vs, contentsOf w = [] := by
      rw [← List.length_eq_zero_iff, htail, List.length_eq_zero_iff, List.flatMap_eq_nil_iff]
    have hagree := walks_agree_iff hus none
    have hnone : (keysIn (ahead (none : Option (Iter β)))).take (scalarsFirst (contentsOf v)) =
      (keysAfterNames (ahead none)).take (scalarsFirst (contentsOf v)) := rfl
    rw [and_iff_right hnone] at hagree
    have hsplit : (Rounds.run keyRead none (contentsOf v)).map Prod.snd =
        some (fedAt .userKey us ++ tail) ↔
        tail = [] ∧ (Rounds.run keyRead none (contentsOf v)).map Prod.snd =
          some (fedAt .userKey us) := by
      constructor
      · intro heq
        obtain ⟨⟨it', cs⟩, hcs, rfl⟩ := Option.map_eq_some_iff.mp heq
        have hlen := length_run_keyRead hcs
        rw [List.length_append, (run_feedUser_some hus).1] at hlen
        obtain rfl : tail = [] := List.length_eq_zero_iff.mp (by omega)
        exact ⟨rfl, by rw [heq, List.append_nil]⟩
      · rintro ⟨rfl, heq⟩
        rw [heq, List.append_nil]
    simp only [List.head?_cons, Option.bind_some, hopen, hkeys, hsplit, hagree, hnil,
      List.cons.injEq]
    constructor
    · exact fun ⟨hvs, hcond⟩ => ⟨v, vs, ⟨rfl, rfl⟩, hvs, hcond⟩
    · rintro ⟨_, _, ⟨rfl, rfl⟩, hvs, hcond⟩
      exact ⟨hvs, hcond⟩

/-- On accepted documents the readers decrypt what was signed exactly when fields are not
repeated and keys stand after names, up to fields that carry nothing. -/
theorem readAsSigned_iff [DecidableEq β] {P : Primitives β}
    (h : validateGroupSignature P d = some true) : ReadAsSigned d ↔ ReadOnce d := by
  have hfeeds : ∃ fs, feeds d = some fs := by
    rw [← Option.isSome_iff_exists, Option.isSome_iff_ne_none]
    intro hn
    have hd : feedDocument (isDropped none true) d = none := hn
    simp [validateGroupSignature, groupSignature, computeGroupSignature, hd] at h
  obtain ⟨fs, hfs⟩ := hfeeds
  unfold ReadAsSigned
  rw [keys_read_iff hfs, encname_read_iff hfs]
  constructor
  · rintro ⟨hu, he⟩
    exact ⟨hu, he⟩
  · rintro ⟨hu, he⟩
    exact ⟨hu, he⟩

/-- A document as the enclave writes it. -/
theorem readAsSigned_iff_sample : ReadAsSigned (signedFields [1] [2] [([3], [4]), ([5], [6])] ++
    [("signature", .binary (Primitives.nat.hmac [1, 2, 3, 4, 5, 6]).toList)]) := by
  have hvalid : validateGroupSignature Primitives.nat
      (signedFields [1] [2] [([3], [4]), ([5], [6])] ++
        [("signature", .binary (Primitives.nat.hmac [1, 2, 3, 4, 5, 6]).toList)]) = some true :=
    congrArg some (beq_self_eq_true (Primitives.nat.hmac [1, 2, 3, 4, 5, 6]).toList)
  have hturn : KeysInTurn (contentsOf (β := ℕ)
      (.array ([([3], [4]), ([5], [6])].map entryValue))) :=
    keysInTurn_cons.mpr ⟨rfl, keysInTurn_cons.mpr ⟨rfl, keysInTurn_nil⟩⟩
  exact (readAsSigned_iff hvalid).mpr ⟨⟨_, _, rfl, by simp, hturn⟩, ⟨_, _, rfl, by simp⟩⟩

/-- An entry with a key in front of the name: one key is signed, the other one is read. -/
theorem shadowing_key_passes : ∃ d : Doc ℕ,
    Doc.get? d "users" = some (.array [.document
      [("key", .binary [9]), ("name", .binary [3]), ("key", .binary [4])]]) ∧
    validateGroupSignature Primitives.nat d = some true ∧ keysSigned d = some [[4]] ∧
    keysRead d = some [[9]] ∧ ¬ ReadAsSigned d := by
  refine ⟨[("name", .binary [1]), ("encname", .binary [2]), ("users", .array [.document
    [("key", .binary [9]), ("name", .binary [3]), ("key", .binary [4])]]),
    ("signature", .binary (Primitives.nat.hmac [1, 2, 3, 4]).toList)], rfl, ?_, rfl, rfl, ?_⟩
  · exact congrArg some (beq_self_eq_true (Primitives.nat.hmac [1, 2, 3, 4]).toList)
  · rintro ⟨⟨ks, hread, hsigned⟩, -⟩
    have hne : (some [[9]] : Option (List (List ℕ))) = some [[4]] := hread.trans hsigned.symm
    simp at hne

-- The number leaves both walks in the entry before it: the signer finds the key behind the second
-- name there, the reader the second key.
example : keysSigned [("users", .array [.document [("name", .binary [3]), ("key", .binary [4]),
      ("key", .binary [9]), ("name", .binary [5]), ("key", .binary [6])], .scalar (.int32 5)])] =
      some [[4], [6]] ∧
    keysRead [("users", .array [.document [("name", .binary [3]), ("key", .binary [4]),
      ("key", .binary [9]), ("name", .binary [5]), ("key", .binary [6])], .scalar (.int32 5)])] =
      some [[4], [9]] := ⟨rfl, rfl⟩

end Agreement

end MongoSgx
