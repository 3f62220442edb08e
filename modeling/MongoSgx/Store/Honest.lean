import Mathlib.Tactic.Push
import MongoSgx.Database.Driver
import MongoSgx.Interaction.Total

/-! # The honest store

Two collections with a unique index on `name` each, as `init_indexes` sets them
up. Every read and every write is one atomic step that does not fail. A cursor
returns each document at most once, and ends only when the documents of its
first answer are returned or gone; the order is free.
-/

namespace MongoSgx

open Bson Interaction

variable {β : Type}

/-- The contents of the database, and the next `_id` the driver will generate. -/
structure World (β : Type) where
  users : List (Doc β)
  groups : List (Doc β)
  nextId : ℕ

namespace World

def empty : World β := ⟨[], [], 0⟩

def docs (w : World β) : Collection → List (Doc β)
  | .users => w.users
  | .groups => w.groups

def setDocs (w : World β) : Collection → List (Doc β) → World β
  | .users, ds => { w with users := ds }
  | .groups, ds => { w with groups := ds }

end World

def docId (d : Doc β) : Option ℕ :=
  match Doc.get? d "_id" with
  | some (.scalar (.oid id)) => some id
  | _ => none

/-- The documents a scan of the collection still has to reach. -/
def Pending (todo : List ℕ) (sel : Selector β) (ds : List (Doc β)) : Prop :=
  ∃ d ∈ ds, sel.Matches d ∧ ∃ id ∈ todo, docId d = some id

variable [DecidableEq β]

def firstAnswer (sel : Selector β) (ds : List (Doc β)) : List ℕ :=
  (ds.filter fun d => sel.Matches d).filterMap docId

def project (opts : Option (Doc β)) (d : Doc β) : Doc β :=
  match opts.bind fun o => Doc.get? o "projection" with
  | some (.document ps) => d.filter fun f => ps.any fun p => p.1 == f.1
  | _ => d

/-- What a cursor may return: a matching document that is due or new to it, or the end. -/
def CursorNext (ds : List (Doc β)) (cur : Cursor β) (r : Option (Doc β) × Cursor β) : Prop :=
  let todo := cur.todo.getD (firstAnswer cur.filter ds)
  (∃ d id, d ∈ ds ∧ cur.filter.Matches d ∧ docId d = some id ∧
    (id ∈ todo ∨ id ∉ cur.seen) ∧ r = (some (project cur.opts d),
      { cur with todo := some (todo.erase id), seen := id :: cur.seen })) ∨
  (¬ Pending todo cur.filter ds ∧ r = (none, { cur with todo := some todo }))

def updateReply (count : ℤ → Scalar) (n : ℤ) : Doc β := [("matchedCount", .scalar (count n))]

/-- An update of one matching document: the number of documents matched and the new contents. -/
inductive UpdateOne (sel : Selector β) (upd : Update β) : List (Doc β) → ℤ → List (Doc β) → Prop
  | none {ds : List (Doc β)} (h : ∀ d ∈ ds, ¬ sel.Matches d) : UpdateOne sel upd ds 0 ds
  | one {l l' : List (Doc β)} {d d' : Doc β} (h : sel.Matches d) (hd : upd.apply d = some d') :
      UpdateOne sel upd (l ++ d :: l') 1 (l ++ d' :: l')

/-- An update that the server refuses for the type of a field. -/
def UpdateFails (sel : Selector β) (upd : Update β) (ds : List (Doc β)) : Prop :=
  ∃ d ∈ ds, sel.Matches d ∧ upd.apply d = none

theorem updateOne_or_fails (sel : Selector β) (upd : Update β) (ds : List (Doc β)) :
    (∃ n ds', UpdateOne sel upd ds n ds') ∨ UpdateFails sel upd ds := by
  by_cases hm : ∃ d ∈ ds, sel.Matches d
  · obtain ⟨d, hd, hm⟩ := hm
    cases ha : upd.apply d with
    | none => exact .inr ⟨d, hd, hm, ha⟩
    | some d' =>
      obtain ⟨l, l', rfl⟩ := List.append_of_mem hd
      exact .inl ⟨_, _, .one hm ha⟩
  · push Not at hm
    exact .inl ⟨0, ds, .none hm⟩

/-- The answers of an honest store; `count` is the type in which `matchedCount` is reported. -/
def Honest (count : ℤ → Scalar) : Env (Call β) Reply (World β)
  | .create _, w, _, w' => w' = w
  | .destroy _, w, _, w' => w' = w
  | .randomIv, w, _, w' => w' = w
  | .printf _ _, w, _, w' => w' = w
  | .cursorNext cur, w, r, w' => w' = w ∧ CursorNext (w.docs cur.collection) cur r
  | .insertOne coll doc, w, r, w' =>
    let taken := ∃ d ∈ w.docs coll, Doc.get? d "name" = Doc.get? doc "name"
    (taken ∧ w' = w ∧ ∃ e : BsonError, e.code = mongocErrorDuplicateKey ∧ r = .error e) ∨
    (¬ taken ∧ r = .ok () ∧ w' = { w.setDocs coll
      (w.docs coll ++ [("_id", .scalar (.oid w.nextId)) :: doc]) with nextId := w.nextId + 1 })
  | .updateOne coll sel upd, w, r, w' =>
    (∃ n ds, UpdateOne sel upd (w.docs coll) n ds ∧ r = .ok (updateReply count n) ∧
      w' = w.setDocs coll ds) ∨
    (UpdateFails sel upd (w.docs coll) ∧ w' = w ∧ ∃ e : BsonError, e.code ≠ 0 ∧ r = .error e)
  | .bulkUpdateOne coll sel upd, w, r, w' =>
    (∃ n ds, UpdateOne sel upd (w.docs coll) n ds ∧ r = .ok () ∧ w' = w.setDocs coll ds) ∨
    (UpdateFails sel upd (w.docs coll) ∧ w' = w ∧ ∃ e : BsonError, e.code ≠ 0 ∧ r = .error e)
  | .deleteOne coll sel, w, r, w' =>
    r = .ok () ∧ ((w' = w ∧ ∀ d ∈ w.docs coll, ¬ sel.Matches d) ∨
      ∃ l d l', w.docs coll = l ++ d :: l' ∧ sel.Matches d ∧ w' = w.setDocs coll (l ++ l'))
  | .deleteNext coll sel todo, w, r, w' =>
    let todo := todo.getD (firstAnswer sel (w.docs coll))
    (∃ l d l' id, w.docs coll = l ++ d :: l' ∧ sel.Matches d ∧ docId d = some id ∧
      r = .ok (some (todo.erase id)) ∧ w' = w.setDocs coll (l ++ l')) ∨
    (¬ Pending todo sel (w.docs coll) ∧ r = .ok none ∧ w' = w)

theorem honest_total (count : ℤ → Scalar) :
    Env.Total (Honest count : Env (Call β) Reply (World β)) := by
  rintro (h | h | _ | _ | cur | ⟨coll, doc⟩ | ⟨coll, sel, upd⟩ | ⟨coll, sel, upd⟩ |
    ⟨coll, sel⟩ | ⟨coll, sel, todo⟩) w
  · exact ⟨(), w, rfl⟩
  · exact ⟨(), w, rfl⟩
  · exact ⟨[], w, rfl⟩
  · exact ⟨(), w, rfl⟩
  · by_cases hp : Pending (cur.todo.getD (firstAnswer cur.filter (w.docs cur.collection)))
      cur.filter (w.docs cur.collection)
    · obtain ⟨d, hd, hm, id, hid, hdid⟩ := id hp
      exact ⟨_, w, rfl, .inl ⟨d, id, hd, hm, hdid, .inl hid, rfl⟩⟩
    · exact ⟨_, w, rfl, .inr ⟨hp, rfl⟩⟩
  · by_cases ht : ∃ d ∈ w.docs coll, Doc.get? d "name" = Doc.get? doc "name"
    · exact ⟨_, w, .inl ⟨ht, rfl, ⟨0, mongocErrorDuplicateKey, ""⟩, rfl, rfl⟩⟩
    · exact ⟨_, _, .inr ⟨ht, rfl, rfl⟩⟩
  · rcases updateOne_or_fails sel upd (w.docs coll) with ⟨n, ds, h⟩ | h
    · exact ⟨_, _, .inl ⟨n, ds, h, rfl, rfl⟩⟩
    · exact ⟨_, w, .inr ⟨h, rfl, emptyBulkError, by decide, rfl⟩⟩
  · rcases updateOne_or_fails sel upd (w.docs coll) with ⟨n, ds, h⟩ | h
    · exact ⟨_, _, .inl ⟨n, ds, h, rfl, rfl⟩⟩
    · exact ⟨_, w, .inr ⟨h, rfl, emptyBulkError, by decide, rfl⟩⟩
  · by_cases hm : ∃ d ∈ w.docs coll, sel.Matches d
    · obtain ⟨d, hd, hm⟩ := hm
      obtain ⟨l, l', hl⟩ := List.append_of_mem hd
      exact ⟨_, _, rfl, .inr ⟨l, d, l', hl, hm, rfl⟩⟩
    · push Not at hm
      exact ⟨_, w, rfl, .inl ⟨rfl, hm⟩⟩
  · by_cases hp : Pending (todo.getD (firstAnswer sel (w.docs coll))) sel (w.docs coll)
    · obtain ⟨d, hd, hm, id, hid, hdid⟩ := id hp
      obtain ⟨l, l', hl⟩ := List.append_of_mem hd
      exact ⟨_, _, .inl ⟨l, d, l', id, hl, hm, hdid, rfl, rfl⟩⟩
    · exact ⟨_, w, .inr ⟨hp, rfl, rfl⟩⟩

end MongoSgx
