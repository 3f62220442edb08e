import MongoSgx.Transcript.Calls

/-! # Failures of the driver

Every call of the driver can fail, and an operation that returns ought to have met
no failure. The operations let two kinds pass: a read that fails is taken for an
empty answer or for the end of a cursor, where nobody asks for the error of the
cursor, and a failure with code zero is never thrown. For each operation these
are all.
-/

namespace MongoSgx

open Bson Interaction

variable {β : Type}

/-- The kinds of driver calls. A cursor is started when it has returned a document. -/
inductive DriverCall where
  | read (coll : Collection) (started : Bool)
  | insertOne (coll : Collection)
  | updateOne (coll : Collection)
  | bulkExecute (coll : Collection)
  | deleteOne (coll : Collection)
  | deleteMany (coll : Collection)
  deriving DecidableEq

def Call.driverCall : Call β → Option DriverCall
  | .cursorNext cur => some (.read cur.collection !cur.seen.isEmpty)
  | .insertOne coll _ => some (.insertOne coll)
  | .updateOne coll _ _ => some (.updateOne coll)
  | .bulkUpdateOne coll _ _ => some (.bulkExecute coll)
  | .deleteOne coll _ => some (.deleteOne coll)
  | .deleteNext coll _ _ => some (.deleteMany coll)
  | _ => none

/-- The error of a call that has failed. A cursor that returns no document has failed when it
has an error. -/
def failure : Line β → Option BsonError
  | ⟨.cursorNext _, (none, cur)⟩ => cur.error
  | ⟨.insertOne _ _, .error e⟩ | ⟨.updateOne _ _ _, .error e⟩ | ⟨.bulkUpdateOne _ _ _, .error e⟩ |
    ⟨.deleteOne _ _, .error e⟩ | ⟨.deleteNext _ _ _, .error e⟩ => some e
  | _ => none

/-- A cursor that returns a document has no error, and has been started. -/
def CursorKept : Line β → Prop
  | ⟨.cursorNext cur, (some _, cur')⟩ =>
    cur'.error = none ∧ cur'.collection = cur.collection ∧ cur'.seen ≠ []
  | _ => True

/-- The outcomes of a driver whose calls fail in the given ways. -/
def Outcome (fails : DriverCall → BsonError → Prop) (x : Line β) : Prop :=
  CursorKept x ∧ ∀ e, failure x = some e → ∃ k, x.call.driverCall = some k ∧ fails k e

/-- The failure that leads to the fall-back of `create_group`. -/
def Excused : Line β → Prop
  | ⟨.insertOne .groups _, .error e⟩ => e.code = mongocErrorDuplicateKey
  | _ => False

def Succeeded (log : Log β) : Prop := ∀ x ∈ log, failure x ≠ none → Excused x

section Logs

variable {log : Log β} {x : Line β}

theorem Succeeded.append (h : Succeeded log) (hx : failure x ≠ none → Excused x) :
    Succeeded (log ++ [x]) := by
  intro y hy
  rcases List.mem_append.mp hy with hy | hy
  · exact h y hy
  · rwa [List.mem_singleton.mp hy]

end Logs

variable {fails : DriverCall → BsonError → Prop}

theorem Succeeded.read {log : Log β} {cur cur' : Cursor β} (h : Succeeded log)
    (hx : Outcome fails ⟨.cursorNext cur, (none, cur')⟩)
    (hno : ∀ e, ¬ fails (.read cur.collection !cur.seen.isEmpty) e) :
    Succeeded (log ++ [⟨.cursorNext cur, (none, cur')⟩]) := by
  apply h.append
  intro hf
  obtain ⟨e, he⟩ := Option.ne_none_iff_exists'.mp hf
  obtain ⟨k, hk, hfail⟩ := hx.2 e he
  obtain rfl := Option.some.inj hk
  exact absurd hfail (hno e)

section Reporting

variable [DecidableEq β] {P : Primitives β} {g u : List β}

end Reporting

section Hiding

/-- The program has returned although one of its calls has failed. -/
def Hidden {α : Type} (r : Except Stop α) (log : Log β) : Prop :=
  (∃ a, r = .ok a) ∧ ¬ Succeeded log

variable {α : Type} {x : Line β} {e : BsonError} {k : DriverCall} {log : Log β}

variable [DecidableEq β] {P : Primitives β} {edit : GroupEdit β} {g u : List β}

def sampleGroup (P : Primitives β) : Group β :=
  ⟨0, [], [], [⟨[], [], []⟩], List.nodup_singleton _, Vault.foundingSignature P [] [] ⟨[], [], []⟩⟩

omit [DecidableEq β] in
theorem sampleGroup_signed : (sampleGroup P).Signed P := rfl

section Edits

end Edits

section Additions

end Additions

section Deletions

variable {cur' : Cursor β} {r r' : Except BsonError Unit}

end Deletions

omit [DecidableEq β] in
theorem Hidden.map {γ : Type} (f : α → γ) {p : Enclave β α}
    (h : CanEnd (Outcome fails) Hidden p log) :
    CanEnd (Outcome fails) Hidden (p.bind fun a => .pure (f a)) log := by
  obtain ⟨_, log', hp, ⟨a, rfl⟩, hbad⟩ := h
  exact ⟨.ok (f a), log', hp.bind (.refl _ _), ⟨f a, rfl⟩, hbad⟩

end Hiding

variable [DecidableEq β] {P : Primitives β}

end MongoSgx
