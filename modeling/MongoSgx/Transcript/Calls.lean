import MongoSgx.Adversary.Untrusted
import MongoSgx.Interaction.Transcript

/-! # Rules for the transcripts of the operations

What a function of the enclave can have said and heard, against any driver and any
store. A watch says which exchanges are considered and what is asked of each; a rule
follows a function from one exchange with the store to the next, with assertions on
the record that its silent calls do not disturb.
-/

namespace MongoSgx

open Bson Interaction

variable {β α : Type}

abbrev Line (β : Type) := Exchange (Call β) Reply

abbrev Log (β : Type) := List (Line β)

/-- The exchanges considered, and what is asked of each. -/
structure Watch (β : Type) where
  allowed : Line β → Prop
  guar : Log β → Line β → Prop
  silent : ∀ log x, x.call.Silent → guar log x

/-- An assertion that silent calls do not disturb. -/
def Quiet (A : Log β → Prop) : Prop := ∀ log x, A log → x.call.Silent → A (log ++ [x])

namespace Watch

abbrev Records (W : Watch β) (Q : Except Stop α → Log β → Prop) (p : Enclave β α)
    (log : Log β) : Prop :=
  Interaction.Records W.allowed W.guar Q p log

abbrev rule (W : Watch β) : CallRule (Call β) Reply (Log β) := recordingRule W.allowed W.guar

variable {W : Watch β} {A : Log β → Prop}

theorem quiet (hA : Quiet A) : W.rule.Quiet Call.Silent A :=
  fun _ _ hc ha _ _ => ⟨W.silent _ _ hc, hA _ _ ha hc⟩

end Watch

theorem quiet_canEnd {allowed : Line β → Prop} {A : Log β → Prop}
    (hall : ∀ x : Line β, x.call.Silent → allowed x) (hA : Quiet A) :
    (CanEnd.rule allowed).Quiet Call.Silent A := by
  intro c log hc ha
  obtain ⟨r⟩ : Nonempty (Reply c) := by
    cases c <;> first | exact hc.elim | exact ⟨()⟩ | exact ⟨[]⟩
  exact ⟨r, hall ⟨c, r⟩ hc, hA log ⟨c, r⟩ ha hc⟩

section Edit

variable [DecidableEq β]

def findLine (edit : GroupEdit β) (x : Option (Doc β) × Cursor β) : Line β :=
  ⟨.cursorNext (findWithOpts .groups edit.selector none none), x⟩

/-- The assertions of a conditional edit: `A n` with `n` attempts left, `B n d` when one of them
has read the document `d`, and `D r` when the edit has ended with the result `r`. -/
structure EditRule (W : Watch β) (P : Primitives β) (edit : GroupEdit β) (A : ℕ → Log β → Prop)
    (B : ℕ → Doc β → Log β → Prop) (D : Except Stop Unit → Log β → Prop) : Prop where
  quiet_start : ∀ n, Quiet (A n)
  quiet_read : ∀ n d, Quiet (B n d)
  quiet_done : ∀ r, Quiet (D r)
  find : ∀ n log x, A (n + 1) log → W.allowed (findLine edit x) → W.guar log (findLine edit x)
  absent : ∀ n log cur, A (n + 1) log → W.allowed (findLine edit (none, cur)) →
    D (.ok ()) (log ++ [findLine edit (none, cur)])
  present : ∀ n log d cur, A (n + 1) log → W.allowed (findLine edit (some d, cur)) →
    B n d (log ++ [findLine edit (some d, cur)])
  stop : ∀ n d log e, B n d log → e = .fault ∨ e = .thrown edit.invalid → D (.error e) log
  send : ∀ n d log sel upd r, B n d log → EditOf P edit d sel upd →
    W.allowed ⟨.updateOne .groups sel upd, r⟩ → W.guar log ⟨.updateOne .groups sel upd, r⟩
  answer : ∀ n d log sel upd r, B n d log → EditOf P edit d sel upd →
    W.allowed ⟨.updateOne .groups sel upd, r⟩ →
      Answered (A n) D r (log ++ [⟨.updateOne .groups sel upd, r⟩])
  exhausted : ∀ log, A 0 log → D (.error (.thrown edit.exhausted)) log

variable {W : Watch β} {P : Primitives β} {edit : GroupEdit β} {A : ℕ → Log β → Prop}
  {B : ℕ → Doc β → Log β → Prop} {D : Except Stop Unit → Log β → Prop} {log : Log β}

theorem EditRule.steps (h : EditRule W P edit A B D) : EditSteps W.rule P edit A B D where
  quiet_start n := Watch.quiet (h.quiet_start n)
  quiet_read n d := Watch.quiet (h.quiet_read n d)
  quiet_done r := Watch.quiet (h.quiet_done r)
  find := by
    rintro n log hA ⟨_ | d, cur⟩ hx
    · exact ⟨h.find n log _ hA hx, h.absent n log cur hA hx⟩
    · exact ⟨h.find n log _ hA hx, h.present n log d cur hA hx⟩
  stop n d log e hB he := h.stop n d log e hB he.1
  send n d log sel upd hB hedit r hr :=
    ⟨h.send n d log sel upd r hB hedit hr, h.answer n d log sel upd r hB hedit hr⟩
  exhausted := h.exhausted

theorem EditRule.records_editAttempts (h : EditRule W P edit A B D) (n : ℕ) (hA : A n log) :
    W.Records D (editAttempts P edit n) log := (h.steps.ends hA).records

end Edit

section Record

variable [DecidableEq β]

def recordLine (P : Primitives β) (u : List β) (x : Option (Doc β) × Cursor β) : Line β :=
  ⟨.cursorNext (findWithOpts .users (nameSelector (hashName P u none)) none
    (some .primaryPreferred)), x⟩

/-- How fetching a key from a record can end without a key. -/
def RecordError (cur : Cursor β) (e : Stop) : Prop :=
  e = .fault ∨ e = .thrown (bsonError "Error in signature validation" 569) ∨
    e = .thrown (bsonError "Error decrypting data" 603) ∨
    ∃ e', cur.error = some e' ∧ e = .thrown e'

/-- The assertions of fetching a key: `A` before the read of the record, `B d cur` after it, and
`D e` when it has ended with an exception. -/
structure RecordRule (W : Watch β) (P : Primitives β) (u : List β) (A : Log β → Prop)
    (B : Doc β → Cursor β → Log β → Prop) (D : Stop → Log β → Prop) : Prop where
  quiet_start : Quiet A
  quiet_read : ∀ d cur, Quiet (B d cur)
  find : ∀ log x, A log → W.allowed (recordLine P u x) → W.guar log (recordLine P u x)
  absent : ∀ log cur, A log → W.allowed (recordLine P u (none, cur)) →
    D (.thrown (bsonError "User does not exist" 539)) (log ++ [recordLine P u (none, cur)])
  present : ∀ log d cur, A log → W.allowed (recordLine P u (some d, cur)) →
    B d cur (log ++ [recordLine P u (some d, cur)])
  stop : ∀ d cur log e, B d cur log → RecordError cur e → D e log

variable {W : Watch β} {P : Primitives β} {u : List β} {A : Log β → Prop}
  {B : Doc β → Cursor β → Log β → Prop} {D : Stop → Log β → Prop} {log : Log β}

theorem RecordRule.steps (h : RecordRule W P u A B D) : RecordSteps W.rule P u A B D where
  quiet_start := Watch.quiet h.quiet_start
  quiet_read d cur := Watch.quiet (h.quiet_read d cur)
  find := by
    rintro log hA ⟨_ | d, cur⟩ hx
    · exact ⟨h.find log _ hA hx, h.absent log cur hA hx⟩
    · exact ⟨h.find log _ hA hx, h.present log d cur hA hx⟩
  stop := by
    rintro d cur log e hB (⟨e', he, -, rfl⟩ | ⟨-, he⟩)
    · exact h.stop d cur log _ hB (.inr (.inr (.inr ⟨e', he, rfl⟩)))
    · refine h.stop d cur log e hB ?_
      rcases he with he | he | he
      · exact .inl he
      · exact .inr (.inl he)
      · exact .inr (.inr (.inl he))

end Record

section Join

variable [DecidableEq β]

/-- The assertions of adding a user to a group: those of fetching the key, and for each encrypted
key `c` those of the edit. -/
structure JoinRule (W : Watch β) (P : Primitives β) (g u : List β) (A : Log β → Prop)
    (B : Doc β → Cursor β → Log β → Prop) (A' : List β → ℕ → Log β → Prop)
    (B' : List β → ℕ → Doc β → Log β → Prop) (D : Except Stop Unit → Log β → Prop) : Prop where
  record : RecordRule W P u A B fun e => D (.error e)
  edit : ∀ c, EditRule W P (addEdit P g u c) (A' c) (B' c) D
  start : ∀ d cur key iv log, B d cur log → recordKey P d = some key →
    A' (P.encryptAesgcm iv key) 10 log

/-- The assertions of creating a group: those of fetching the key, `C c` before the insertion with
the encrypted key `c`, and those of the edit that follows a refused insertion. -/
structure FoundRule (W : Watch β) (P : Primitives β) (g u : List β) (A : Log β → Prop)
    (B : Doc β → Cursor β → Log β → Prop) (C : List β → Log β → Prop)
    (A' : List β → ℕ → Log β → Prop) (B' : List β → ℕ → Doc β → Log β → Prop)
    (D : Except Stop Unit → Log β → Prop) : Prop where
  record : RecordRule W P u A B fun e => D (.error e)
  edit : ∀ c, EditRule W P (addEdit P g u c) (A' c) (B' c) D
  quiet_insert : ∀ c, Quiet (C c)
  start : ∀ d cur key iv log, B d cur log → recordKey P d = some key →
    C (P.encryptAesgcm iv key) log
  insert : ∀ c iv r log, C c log → W.allowed ⟨.insertOne .groups (newGroupDoc P g u c iv), r⟩ →
    W.guar log ⟨.insertOne .groups (newGroupDoc P g u c iv), r⟩
  inserted : ∀ c iv log, C c log →
    W.allowed ⟨.insertOne .groups (newGroupDoc P g u c iv), .ok ()⟩ →
    D (.ok ()) (log ++ [⟨.insertOne .groups (newGroupDoc P g u c iv), .ok ()⟩])
  refused : ∀ c iv log e, C c log →
    W.allowed ⟨.insertOne .groups (newGroupDoc P g u c iv), .error e⟩ →
    e.code = mongocErrorDuplicateKey →
    A' c 10 (log ++ [⟨.insertOne .groups (newGroupDoc P g u c iv), .error e⟩])
  failed : ∀ c iv log e, C c log →
    W.allowed ⟨.insertOne .groups (newGroupDoc P g u c iv), .error e⟩ →
    e.code ≠ mongocErrorDuplicateKey →
    D (if e.code ≠ 0 then .error (.thrown e) else .ok ())
      (log ++ [⟨.insertOne .groups (newGroupDoc P g u c iv), .error e⟩])

variable {W : Watch β} {P : Primitives β} {g u : List β} {A : Log β → Prop}
  {B : Doc β → Cursor β → Log β → Prop} {A' : List β → ℕ → Log β → Prop}
  {B' : List β → ℕ → Doc β → Log β → Prop} {D : Except Stop Unit → Log β → Prop} {log : Log β}

theorem JoinRule.records_addUserToGroup (h : JoinRule W P g u A B A' B' D) (hA : A log) :
    W.Records D (addUserToGroup P g u) log := by
  refine (h.record.steps.ends_bind (fun d cur key iv log hB hkey => ?_) hA).records
  exact (h.edit _).steps.ends (h.start d cur key iv log hB hkey)

theorem FoundRule.records_createGroup {C : List β → Log β → Prop}
    (h : FoundRule W P g u A B C A' B' D) (hA : A log) :
    W.Records D (createGroup P g u) log := by
  rw [createGroup_eq]
  refine (h.record.steps.ends_bind (fun d cur key iv log hB hkey => ?_) hA).records
  have hedit := (h.edit (P.encryptAesgcm iv key)).steps
  refine ends_createGroupWithKey (Watch.quiet (h.quiet_insert _)) (hedit.quiet_start 10)
    hedit.quiet_done ?_ (fun log hA' => hedit.ends hA') (h.start d cur key iv log hB hkey)
  rintro iv' log hC (e | ⟨⟩) hr
  · refine ⟨h.insert _ iv' _ log hC hr, ?_⟩
    simp only [Inserted]
    split
    · rename_i hcode
      exact h.refused _ iv' log e hC hr hcode
    · rename_i hcode
      exact h.failed _ iv' log e hC hr hcode
  · exact ⟨h.insert _ iv' _ log hC hr, h.inserted _ iv' log hC hr⟩

end Join

section Sweep

variable [DecidableEq β]

/-- How reading a group for a deletion can end the deletion. -/
def SweepError (e : Stop) : Prop :=
  e = .fault ∨ e = .thrown (bsonError "Error decrypting data" 603) ∨
    e = .thrown (bsonError "Error in signature validation" 349)

def bulkLine (op : Selector β × Update β) (r : Except BsonError Unit) : Line β :=
  ⟨.bulkUpdateOne .groups op.1 op.2, r⟩

def deleteLine (P : Primitives β) (u : List β) (r : Except BsonError Unit) : Line β :=
  ⟨.deleteOne .users (nameSelector (hashName P u none)), r⟩

/-- The assertions of deleting a user: `I cur bulk` while the cursor is read, `B cur bulk d` when it
has returned `d`, `J bulk` while the updates in `bulk` are still to be written, and `D r` at the
end. -/
structure SweepRule (W : Watch β) (P : Primitives β) (u : List β)
    (I : Cursor β → Bulk β → Log β → Prop) (B : Cursor β → Bulk β → Doc β → Log β → Prop)
    (J : Bulk β → Log β → Prop) (D : Except Stop Unit → Log β → Prop) : Prop where
  quiet_round : ∀ cur bulk, Quiet (I cur bulk)
  quiet_read : ∀ cur bulk d, Quiet (B cur bulk d)
  quiet_write : ∀ bulk, Quiet (J bulk)
  quiet_done : ∀ r, Quiet (D r)
  next : ∀ cur bulk log x, I cur bulk log → W.allowed ⟨.cursorNext cur, x⟩ →
    W.guar log ⟨.cursorNext cur, x⟩
  visit : ∀ cur bulk log d cur', I cur bulk log → W.allowed ⟨.cursorNext cur, (some d, cur')⟩ →
    B cur' bulk d (log ++ [⟨.cursorNext cur, (some d, cur')⟩])
  stop : ∀ cur bulk d log e, B cur bulk d log → SweepError e → D (.error e) log
  queue : ∀ cur bulk d log op, B cur bulk d log → SweepOf P u d op → I cur (bulk ++ [op]) log
  idle : ∀ cur log cur', I cur [] log → W.allowed ⟨.cursorNext cur, (none, cur')⟩ →
    D (.error (.thrown emptyBulkError)) (log ++ [⟨.cursorNext cur, (none, cur')⟩])
  ended : ∀ cur bulk log cur', bulk ≠ [] → I cur bulk log →
    W.allowed ⟨.cursorNext cur, (none, cur')⟩ →
    J bulk (log ++ [⟨.cursorNext cur, (none, cur')⟩])
  write : ∀ op bulk log r, J (op :: bulk) log → W.allowed (bulkLine op r) →
    W.guar log (bulkLine op r)
  written : ∀ op bulk log, J (op :: bulk) log → W.allowed (bulkLine op (.ok ())) →
    J bulk (log ++ [bulkLine op (.ok ())])
  broken : ∀ op bulk log e, J (op :: bulk) log → W.allowed (bulkLine op (.error e)) →
    if e.code ≠ 0 then D (.error (.thrown e)) (log ++ [bulkLine op (.error e)])
    else J [] (log ++ [bulkLine op (.error e)])
  delete : ∀ log r, J [] log → W.allowed (deleteLine P u r) → W.guar log (deleteLine P u r)
  deleted : ∀ log, J [] log → W.allowed (deleteLine P u (.ok ())) →
    D (.ok ()) (log ++ [deleteLine P u (.ok ())])
  failed : ∀ log e, J [] log → W.allowed (deleteLine P u (.error e)) →
    D (if e.code ≠ 0 then .error (.thrown e) else .ok ()) (log ++ [deleteLine P u (.error e)])

variable {W : Watch β} {P : Primitives β} {u : List β} {I : Cursor β → Bulk β → Log β → Prop}
  {B : Cursor β → Bulk β → Doc β → Log β → Prop} {J : Bulk β → Log β → Prop}
  {D : Except Stop Unit → Log β → Prop} {log : Log β}

/-- The reads of a deletion have ended. -/
def SweepRule.Over (_ : SweepRule W P u I B J D) (bulk : Bulk β) (log : Log β) : Prop :=
  if bulk = [] then D (.error (.thrown emptyBulkError)) log else J bulk log

theorem SweepRule.sweepSteps (h : SweepRule W P u I B J D) :
    SweepSteps W.rule P u I B h.Over fun e => D (.error e) where
  quiet_round cur bulk := Watch.quiet (h.quiet_round cur bulk)
  quiet_read cur bulk d := Watch.quiet (h.quiet_read cur bulk d)
  next := by
    rintro cur bulk log hI ⟨_ | d, cur'⟩ hx
    · refine ⟨h.next cur bulk log _ hI hx, ?_⟩
      simp only [Reading, SweepRule.Over]
      split
      · rename_i hnil
        subst hnil
        exact h.idle cur log cur' hI hx
      · rename_i hne
        exact h.ended cur bulk log cur' hne hI hx
    · exact ⟨h.next cur bulk log _ hI hx, h.visit cur bulk log d cur' hI hx⟩
  stop cur bulk d log e hB he := h.stop cur bulk d log e hB he.1
  queue := h.queue

theorem SweepRule.dropSteps (h : SweepRule W P u I B J D) : DropSteps W.rule P u J D where
  quiet_write bulk := Watch.quiet (h.quiet_write bulk)
  quiet_done r := Watch.quiet (h.quiet_done r)
  write := by
    rintro sel upd bulk log hJ (e | ⟨⟩) hr
    · exact ⟨h.write (sel, upd) bulk log _ hJ hr, h.broken (sel, upd) bulk log e hJ hr⟩
    · exact ⟨h.write (sel, upd) bulk log _ hJ hr, h.written (sel, upd) bulk log hJ hr⟩
  delete := by
    rintro log hJ (e | ⟨⟩) hr
    · exact ⟨h.delete log _ hJ hr, h.failed log e hJ hr⟩
    · exact ⟨h.delete log _ hJ hr, h.deleted log hJ hr⟩

theorem SweepRule.records_deleteUser (h : SweepRule W P u I B J D)
    (hI : I (findWithOpts .groups [] none (some .primaryPreferred)) [] log) :
    W.Records D (deleteUser P u) log := by
  refine h.sweepSteps.judged_deleteUser h.dropSteps (fun _ _ hr => hr) sound_records loops_records
    ?_ hI
  exact fun r log hD => records_ofExcept_iff.mpr hD

end Sweep

section Others

variable {W : Watch β} {P : Primitives β} {g u key : List β} {A : Log β → Prop} {log : Log β}

theorem records_createUser {D : Except Stop Unit → Log β → Prop} (hA : Quiet A)
    (hD : ∀ r, Quiet (D r))
    (h : ∀ iv r log, A log → W.allowed ⟨.insertOne .users (newUserDoc P u key iv), r⟩ →
      W.guar log ⟨.insertOne .users (newUserDoc P u key iv), r⟩ ∧
      D (statusEnd r) (log ++ [⟨.insertOne .users (newUserDoc P u key iv), r⟩])) (ha : A log) :
    W.Records D (createUser P u key) log :=
  (ends_createUser (Watch.quiet hA) (fun r => Watch.quiet (hD r))
    (fun iv log ha r => h iv r log ha) ha).records

theorem records_deleteAllData {D : Except Stop Unit → Log β → Prop} (hA : Quiet A)
    (h : ∀ coll todo r log, A log → W.allowed ⟨.deleteNext coll [] todo, r⟩ →
      W.guar log ⟨.deleteNext coll [] todo, r⟩ ∧ match r with
        | .ok _ => A (log ++ [⟨.deleteNext coll [] todo, r⟩])
        | .error e => if e.code ≠ 0 then
            D (.error (.thrown e)) (log ++ [⟨.deleteNext coll [] todo, r⟩])
          else A (log ++ [⟨.deleteNext coll [] todo, r⟩]))
    (hdone : ∀ log, A log → D (.ok ()) log) (ha : A log) :
    W.Records D deleteAllData log := by
  let D' (r : Except Stop Unit) (log : Log β) : Prop := match r with
    | .ok () => A log
    | .error e => D (.error e) log
  have hdelete : ∀ coll todo log, A log →
      W.rule.pre (.deleteNext coll [] todo) log (Deleted A A D') := by
    rintro coll todo log ha r hr
    obtain ⟨hguar, hr⟩ := h coll todo r log ha hr
    rcases r with e | _ | todo
    · exact ⟨hguar, hr⟩
    · exact ⟨hguar, hr⟩
    · exact ⟨hguar, hr⟩
  have hsteps : ResetSteps W.rule A A D' :=
    ⟨Watch.quiet hA, Watch.quiet hA, hdelete .users, hdelete .groups⟩
  refine hsteps.judged_deleteAllData sound_records loops_records ?_ ha
  rintro (e | ⟨⟩) log hD
  · exact records_throw_iff.mpr hD
  · exact records_pure_iff.mpr (hdone log hD)

def memberLine (P : Primitives β) (g u : List β) (x : Option (Doc β) × Cursor β) : Line β :=
  ⟨.cursorNext (memberCursor P g u), x⟩

theorem records_isUserPartOfGroup {B : Option (Doc β) × Cursor β → Log β → Prop}
    {D : Except Stop Bool → Log β → Prop} (hA : Quiet A) (hB : ∀ x, Quiet (B x))
    (h : ∀ x log, A log → W.allowed (memberLine P g u x) →
      W.guar log (memberLine P g u x) ∧ B x (log ++ [memberLine P g u x]))
    (hstop : ∀ x e log, B x log → x.2.error = some e → e.code ≠ 0 → D (.error (.thrown e)) log)
    (hdone : ∀ x log, B x log → (∀ e, x.2.error = some e → e.code = 0) → D (.ok x.1.isSome) log)
    (ha : A log) : W.Records D (isUserPartOfGroup P g u) log :=
  (ends_isUserPartOfGroup (Watch.quiet hA) (fun x => Watch.quiet (hB x))
    (fun log ha x => h x log ha) hstop hdone ha).records

variable [DecidableEq β]

def keysLine (P : Primitives β) (g : List β) (x : Option (Doc β) × Cursor β) : Line β :=
  ⟨.cursorNext (findWithOpts .groups (nameSelector (hashName P g none)) none
    (some .secondaryPreferred)), x⟩

/-- What is true of the log when the reading of the keys ends. -/
def KeysLeft (P : Primitives β) (B : Option (Doc β) → Log β → Prop) :
    Except Stop (List (Key β)) → Log β → Prop
  | .ok ks, log => ∃ d, B (some d) log ∧ KeysOf P d ks
  | .error _, log => ∃ o, B o log

theorem records_getKeysOfGroup {B : Option (Doc β) → Log β → Prop}
    {D : Except Stop (List (Key β)) → Log β → Prop} (hA : Quiet A) (hB : ∀ d, Quiet (B d))
    (h : ∀ x log, A log → W.allowed (keysLine P g x) →
      W.guar log (keysLine P g x) ∧ B x.1 (log ++ [keysLine P g x]))
    (hstop : ∀ o e log, B o log → D (.error e) log)
    (hkeys : ∀ d ks log, B (some d) log → validateGroupSignature P d = some true →
      keysHeld P d = some ks → D (.ok ks) log) (ha : A log) :
    W.Records D (getKeysOfGroup P g) log := by
  have hsteps : KeysSteps W.rule P g A (fun d => B (some d)) (KeysLeft P B) := {
    quiet_start := Watch.quiet hA
    quiet_read := fun d => Watch.quiet (hB (some d))
    quiet_done := by
      rintro (e | ks)
      · apply Watch.quiet
        rintro log x ⟨o, ho⟩ hx
        exact ⟨o, hB o log x ho hx⟩
      · apply Watch.quiet
        rintro log x ⟨d, hd, hks⟩ hx
        exact ⟨d, hB _ log x hd hx, hks⟩
    find := by
      rintro log ha ⟨_ | d, cur⟩ hx
      · exact ⟨(h _ log ha hx).1, none, (h _ log ha hx).2⟩
      · exact h _ log ha hx
    stop := fun d log e hb _ => ⟨some d, hb⟩
    done := fun d log ks hb hks => ⟨d, hb, hks⟩ }
  apply (hsteps.ends ha).records.mono
  rintro (e | ks) log hr
  · exact hr.elim fun o ho => hstop o e log ho
  · obtain ⟨d, hb, hvalid, hks⟩ := hr
    exact hkeys d ks log hb hvalid hks

end Others

end MongoSgx
