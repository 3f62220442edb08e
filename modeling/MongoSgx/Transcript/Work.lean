import MongoSgx.Interaction.Credit
import MongoSgx.Interaction.Provenance
import MongoSgx.Transcript.Effects

/-! # The work of an operation

Whatever the store answers, an operation reads and writes single documents a bounded
number of times. A deletion is the only one that a store can keep going, with a further
group to look at or a further document that was deleted.
-/

namespace MongoSgx

open Bson Interaction

variable {β : Type}

section Definitions

/-- A read or a write of a document counts once, silent calls do not. -/
def Call.price : Call β → ℕ
  | .create _ | .destroy _ | .randomIv | .printf _ _ => 0
  | _ => 1

def visited : Line β → ℕ
  | ⟨.cursorNext _, (some _, _)⟩ => 1
  | _ => 0

/-- A document is deleted, and the server goes on to look for another. -/
def deleted : Line β → ℕ
  | ⟨.deleteNext _ _ _, .ok (some _)⟩ => 1
  | _ => 0

/-- What a reply adds to the work of a deletion: a group to sweep is a further read and a write,
and a document that was deleted is a further look. -/
def Request.extra (q : Request β) (x : Line β) : ℕ :=
  match q with
  | .op (.deleteUser _) => 2 * visited x
  | .op .deleteAllData => deleted x
  | _ => 0

/-- The work of a request that the store adds nothing to. Adding a member takes a read of the
user and ten attempts of a read and a write each; creating a group falls back on it. -/
def Request.allowance : Request β → ℕ
  | .op (.createUser _ _) | .getKeysOfGroup _ | .isUserPartOfGroup _ _ => 1
  | .op (.createGroup _ _) => 22
  | .op (.addUserToGroup _ _) => 21
  | .op (.removeUserFromGroup _ _) => 20
  | .op (.deleteUser _) | .op .deleteAllData => 2

def Request.tariff (q : Request β) : Tariff (Call β) Reply where
  price x := x.call.price
  credit := q.extra

abbrev Request.Affords (q : Request β) (n : ℕ) (log : Log β) : Prop :=
  q.tariff.Affords q.allowance n log

/-- Every read and every write is within the allowance. -/
def workWatch (q : Request β) : Watch β where
  allowed _ := True
  guar log x := 0 < x.call.price → q.Affords x.call.price log
  silent _ x hx h := by
    obtain ⟨c, r⟩ := x
    cases c <;> first | exact hx.elim | exact absurd h (lt_irrefl 0)

end Definitions

section Rules

variable {q : Request β} {log : Log β} {x : Line β} {m n k : ℕ}

theorem price_of_silent {c : Call β} (hc : c.Silent) : c.price = 0 := by
  cases c <;> first | exact hc.elim | rfl

theorem price_le_one (c : Call β) : c.price ≤ 1 := by
  cases c <;> simp [Call.price]

theorem quiet_affords : Quiet (q.Affords n) := by
  intro log x h hx
  apply h.snoc
  change n + x.call.price ≤ _
  rw [price_of_silent hx]
  exact Nat.le_add_right _ _

theorem affords_call (h : q.Affords n log) (hmn : m < n) : q.Affords m (log ++ [x]) := by
  apply h.snoc
  have hprice : x.call.price ≤ 1 := price_le_one x.call
  change m + x.call.price ≤ n + _
  omega

theorem affords_extra (h : q.Affords n log) (hx : q.extra x = k) (hmn : m < n + k) :
    q.Affords m (log ++ [x]) := by
  apply h.snoc
  have hprice : x.call.price ≤ 1 := price_le_one x.call
  change m + x.call.price ≤ n + q.extra x
  omega

theorem paid_of_affords (h : q.Affords n log) (hn : 0 < n) : (workWatch q).guar log x := by
  intro _
  exact h.mono ((price_le_one x.call).trans hn)

variable [DecidableEq β] {P : Primitives β} {g u : List β}

theorem editRule_work (edit : GroupEdit β) :
    EditRule (workWatch q) P edit (fun n => q.Affords (2 * n)) (fun n _ => q.Affords (2 * n + 1))
      (fun _ _ => True) where
  quiet_start _ := quiet_affords
  quiet_read _ _ := quiet_affords
  quiet_done _ _ _ _ _ := trivial
  find _ _ _ h _ := paid_of_affords h (by omega)
  absent _ _ _ _ _ := trivial
  present _ _ _ _ h _ := affords_call h (by omega)
  stop _ _ _ _ _ _ := trivial
  send _ _ _ _ _ _ h _ _ := paid_of_affords h (by omega)
  answer n _ log sel upd r h _ _ := by
    have hagain : q.Affords (2 * n) (log ++ [⟨.updateOne .groups sel upd, r⟩]) :=
      affords_call h (by omega)
    cases r with
    | ok reply =>
      refine ⟨fun _ => trivial, fun v _ => ?_⟩
      split
      · trivial
      · exact hagain
    | error e =>
      simp only [Answered]
      split
      · trivial
      · exact hagain
  exhausted _ _ := trivial

omit [DecidableEq β] in
theorem recordRule_work :
    RecordRule (workWatch q) P u (q.Affords (n + 1)) (fun _ _ => q.Affords n)
      (fun _ _ => True) where
  quiet_start := quiet_affords
  quiet_read _ _ := quiet_affords
  find _ _ h _ := paid_of_affords h (Nat.succ_pos n)
  absent _ _ _ _ := trivial
  present _ _ _ h _ := affords_call h (Nat.lt_succ_self n)
  stop _ _ _ _ _ _ := trivial

theorem joinRule_work : JoinRule (workWatch q) P g u (q.Affords 21) (fun _ _ => q.Affords 20)
    (fun _ n => q.Affords (2 * n)) (fun _ n _ => q.Affords (2 * n + 1)) (fun _ _ => True) where
  record := recordRule_work
  edit _ := editRule_work _
  start _ _ _ _ _ h _ := h

theorem foundRule_work : FoundRule (workWatch q) P g u (q.Affords 22) (fun _ _ => q.Affords 21)
    (fun _ => q.Affords 21) (fun _ n => q.Affords (2 * n)) (fun _ n _ => q.Affords (2 * n + 1))
    (fun _ _ => True) where
  record := recordRule_work
  edit _ := editRule_work _
  quiet_insert _ := quiet_affords
  start _ _ _ _ _ h _ := h
  insert _ _ _ _ h _ := paid_of_affords h (by omega)
  inserted _ _ _ _ _ := trivial
  refused _ _ _ _ h _ _ := affords_call h (by omega)
  failed _ _ _ _ _ _ _ := trivial

/-- Each group that is returned pays for its write, and for the next read. -/
theorem sweepRule_work : SweepRule (workWatch (.op (.deleteUser u))) P u
    (fun _ bulk => Request.Affords (.op (.deleteUser u)) (bulk.length + 2))
    (fun _ bulk _ => Request.Affords (.op (.deleteUser u)) (bulk.length + 3))
    (fun bulk => Request.Affords (.op (.deleteUser u)) (bulk.length + 1)) (fun _ _ => True) where
  quiet_round _ _ := quiet_affords
  quiet_read _ _ _ := quiet_affords
  quiet_write _ := quiet_affords
  quiet_done _ _ _ _ _ := trivial
  next _ _ _ _ h _ := paid_of_affords h (by omega)
  visit _ bulk _ _ _ h _ := affords_extra (k := 2) h rfl (by omega)
  stop _ _ _ _ _ _ _ := trivial
  queue _ bulk _ _ op h _ := h.mono (by rw [List.length_append, List.length_singleton])
  idle _ _ _ _ _ := trivial
  ended _ _ _ _ _ h _ := affords_call h (by omega)
  write _ _ _ _ h _ := paid_of_affords h (by omega)
  written op bulk _ h _ := affords_call h (by rw [List.length_cons]; omega)
  broken op bulk _ e h _ := by
    split
    · trivial
    · apply affords_call h
      simp
  delete _ _ h _ := paid_of_affords h (by omega)
  deleted _ _ _ := trivial
  failed _ _ _ _ := trivial

omit [DecidableEq β] in
/-- Every document that was deleted pays for a further look, and each collection takes one. -/
theorem resetSteps_work : ResetSteps (workWatch (.op .deleteAllData)).rule
    (Request.Affords (.op .deleteAllData : Request β) 2)
    (Request.Affords (.op .deleteAllData) 1) fun _ _ => True where
  quiet_start := Watch.quiet quiet_affords
  quiet_done := Watch.quiet fun _ _ _ _ => trivial
  users := by
    rintro todo log h (e | _ | todo') -
    · refine ⟨paid_of_affords h (Nat.succ_pos 1), ?_⟩
      simp only [Deleted]
      split
      · trivial
      · exact affords_call h (Nat.lt_succ_self 1)
    · exact ⟨paid_of_affords h (Nat.succ_pos 1), affords_call h (Nat.lt_succ_self 1)⟩
    · exact ⟨paid_of_affords h (Nat.succ_pos 1), affords_extra (k := 1) h rfl (by omega)⟩
  groups := by
    rintro todo log h (e | _ | todo') -
    · refine ⟨paid_of_affords h Nat.one_pos, ?_⟩
      simp only [Deleted, ite_self]
    · exact ⟨paid_of_affords h Nat.one_pos, trivial⟩
    · exact ⟨paid_of_affords h Nat.one_pos, affords_extra (k := 1) h rfl (by omega)⟩

omit [DecidableEq β] in
theorem records_deleteAllData_work (h : Request.Affords (.op .deleteAllData : Request β) 2 log) :
    (workWatch (.op .deleteAllData)).Records (fun _ _ => True) deleteAllData log := by
  refine resetSteps_work.judged_deleteAllData sound_records loops_records ?_ h
  exact fun r log _ => records_ofExcept_iff.mpr trivial

theorem records_work (P : Primitives β) (q : Request β) :
    (workWatch q).Records (fun _ _ => True) (q.prog P) [] := by
  have hstart : q.Affords q.allowance [] := Tariff.affords_nil le_rfl
  cases q with
  | op o =>
    apply Records.map
    apply Records.mono (Q := fun _ _ => True) _ fun _ _ => id
    cases o with
    | createUser u key =>
      apply records_createUser quiet_affords (fun _ _ _ _ _ => trivial) _ hstart
      exact fun iv r log h _ => ⟨paid_of_affords h Nat.one_pos, trivial⟩
    | createGroup g u => exact foundRule_work.records_createGroup hstart
    | addUserToGroup g u => exact joinRule_work.records_addUserToGroup hstart
    | removeUserFromGroup g u => exact (editRule_work _).records_editAttempts 10 hstart
    | deleteUser u => exact sweepRule_work.records_deleteUser hstart
    | deleteAllData => exact records_deleteAllData_work hstart
  | getKeysOfGroup g =>
    apply Records.map
    apply Records.mono (Q := fun _ _ => True) _ fun _ _ => id
    apply records_getKeysOfGroup quiet_affords (B := fun _ _ => True) (fun _ _ _ _ _ => trivial)
    · exact fun x log h _ => ⟨paid_of_affords h Nat.one_pos, trivial⟩
    · exact fun _ _ _ _ => trivial
    · exact fun _ _ _ _ _ _ => trivial
    · exact hstart
  | isUserPartOfGroup g u =>
    apply Records.map
    apply Records.mono (Q := fun _ _ => True) _ fun _ _ => id
    apply records_isUserPartOfGroup quiet_affords (B := fun _ _ => True)
      (fun _ _ _ _ _ => trivial)
    · exact fun x log h _ => ⟨paid_of_affords h Nat.one_pos, trivial⟩
    · exact fun _ _ _ _ _ _ => trivial
    · exact fun _ _ _ _ => trivial
    · exact hstart

end Rules

section Spending

abbrev Request.Leaves (q : Request β) (n : ℕ) (log : Log β) : Prop :=
  q.tariff.Leaves q.allowance n log

/-- Some store makes the program use up everything. -/
def Spends {α : Type} (q : Request β) (p : Enclave β α) (log : Log β) : Prop :=
  CanEnd (fun _ => True) (fun _ log => q.Leaves 0 log) p log

variable {α : Type} {q : Request β} {log : Log β} {m n : ℕ} {Q : Except Stop α → Log β → Prop}

theorem extra_of_silent {x : Line β} (hx : x.call.Silent) : q.extra x = 0 := by
  obtain ⟨c, r⟩ := x
  have hvisited : visited ⟨c, r⟩ = 0 := by cases c <;> first | exact hx.elim | rfl
  have hdeleted : deleted ⟨c, r⟩ = 0 := by cases c <;> first | exact hx.elim | rfl
  unfold Request.extra
  split
  · rw [hvisited]
  · exact hdeleted
  · rfl

theorem quiet_leaves : Quiet (q.Leaves n) := by
  intro log x hlog hx
  apply hlog.snoc
  change n + q.extra x ≤ n + x.call.price
  rw [extra_of_silent hx]
  exact Nat.le_add_right n _

theorem quiet_spending {A : Log β → Prop} (hA : Quiet A) :
    (CanEnd.rule fun _ => True).Quiet Call.Silent A := quiet_canEnd (fun _ _ => trivial) hA

theorem spend_pre {c : Call β} {Φ : Reply c → Log β → Prop} (r : Reply c) (hc : c.price = 1)
    (hlog : q.Leaves n log) (hmn : n + q.extra ⟨c, r⟩ ≤ m + 1)
    (h : ∀ log, q.Leaves m log → Φ r log) : (CanEnd.rule fun _ => True).pre c log Φ := by
  refine ⟨r, trivial, h _ (hlog.snoc ?_)⟩
  change n + q.extra ⟨c, r⟩ ≤ m + c.price
  rwa [hc]

theorem Spends.map {γ : Type} {p : Enclave β α} (f : α → γ) (h : Spends q p log) :
    Spends q (p.bind fun a => .pure (f a)) log := by
  obtain ⟨r, log', hp, hlog⟩ := h
  cases r with
  | ok a => exact ⟨.ok (f a), log', hp.bind (.refl _ _), hlog⟩
  | error e => exact ⟨.error e, log', Prog.Steps.bind hp _, hlog⟩

variable [DecidableEq β] {P : Primitives β} {g u : List β}

/-- A store can make every attempt fail, by giving a group that is valid and is gone when its
update comes. -/
theorem editSteps_spending {edit : GroupEdit β} (hq : ∀ x, q.extra x = 0)
    (hsign : ∃ s, edit.sign ((sampleGroup P).toDoc P) = some s) :
    EditSteps (CanEnd.rule fun _ => True) P edit (fun n => q.Leaves (2 * n))
      (fun n d log => d = (sampleGroup P).toDoc P ∧ q.Leaves (2 * n + 1) log)
      (fun _ => q.Leaves 0) where
  quiet_start _ := quiet_spending quiet_leaves
  quiet_read _ _ := .and (quiet_spending quiet_leaves)
  quiet_done _ := quiet_spending quiet_leaves
  find n log h := spend_pre (some ((sampleGroup P).toDoc P), findWithOpts .groups [] none none) rfl h
    (m := 2 * n + 1) (by rw [hq]; omega) fun _ h => ⟨rfl, h⟩
  stop := by
    rintro _ _ _ _ ⟨rfl, -⟩ hstop
    obtain ⟨sel, upd, hedit⟩ := exists_editOf_toDoc sampleGroup_signed edit hsign
    exact absurd hedit (hstop.2 sel upd)
  send := by
    rintro n _ log sel upd ⟨rfl, h⟩ -
    exact spend_pre (.ok (updateReply .int64 0)) rfl h (m := 2 * n) (by rw [hq])
      fun _ h => answered_int64_zero.mpr h
  exhausted _ h := h

theorem recordSteps_spending (hP : P.Ideal) (hq : ∀ x, q.extra x = 0) :
    RecordSteps (CanEnd.rule fun _ => True) P u (q.Leaves (n + 1))
      (fun d cur log => (cur.error = none ∧ d = (⟨0, u, [], []⟩ : Account β).toDoc P) ∧
        q.Leaves n log) (fun _ _ => False) where
  quiet_start := quiet_spending quiet_leaves
  quiet_read _ _ := .and (quiet_spending quiet_leaves)
  find log h := spend_pre (some ((⟨0, u, [], []⟩ : Account β).toDoc P), findWithOpts .users [] none
    none) rfl h (m := n) (by rw [hq]) fun _ h => ⟨⟨rfl, rfl⟩, h⟩
  stop := by
    rintro _ _ _ e ⟨⟨herr, rfl⟩, -⟩ he
    exact absurd he (not_recordStop_toDoc hP herr)

theorem ends_spending_withKey (hP : P.Ideal) (hq : ∀ x, q.extra x = 0) {f : List β → Enclave β α}
    (hf : ∀ c log, q.Leaves n log → (CanEnd.rule fun _ => True).Ends (fun _ => q.Leaves 0) (f c) log)
    (h : q.Leaves (n + 1) log) : Spends q ((reencryptUserKey P u).bind f) log := by
  apply CanEnd.of_ends
  refine ((recordSteps_spending hP hq).ends h).bind ?_ fun _ _ h => h.elim
  rintro _ log ⟨d, cur, key, iv, ⟨-, hlog⟩, -, rfl⟩
  exact hf _ log hlog

theorem spends_createGroup (hP : P.Ideal)
    (h : Request.Leaves (.op (.createGroup g u)) 22 log) :
    Spends (.op (.createGroup g u)) (createGroup P g u) log := by
  rw [createGroup_eq]
  refine ends_spending_withKey hP (fun _ => rfl) (fun c log h => ?_) h
  refine ends_createGroupWithKey (F := Request.Leaves (.op (.createGroup g u)) 20)
    (quiet_spending quiet_leaves) (quiet_spending quiet_leaves)
    (fun _ => quiet_spending quiet_leaves) (fun iv log h => ?_) ?_ h
  · refine spend_pre (.error ⟨0, mongocErrorDuplicateKey, ""⟩) rfl h (m := 20) le_rfl fun _ h => ?_
    rw [Inserted, if_pos rfl]
    exact h
  · exact fun log h => (editSteps_spending (fun _ => rfl) exists_sign_toDoc).ends (n := 10) h

theorem sweepSteps_spending (hP : P.Ideal) : SweepSteps (CanEnd.rule fun _ => True) P u
    (fun _ bulk log => bulk.length ≤ 1 ∧
      Request.Leaves (.op (.deleteUser u)) (2 + bulk.length) log)
    (fun _ bulk d log => (bulk = [] ∧ d = (sampleGroup P).toDoc P) ∧
      Request.Leaves (.op (.deleteUser u)) 3 log)
    (fun bulk log => bulk.length = 1 ∧ Request.Leaves (.op (.deleteUser u)) 2 log)
    (fun _ _ => False) where
  quiet_round _ _ := .and (quiet_spending quiet_leaves)
  quiet_read _ _ _ := .and (quiet_spending quiet_leaves)
  next := by
    rintro cur (_ | ⟨op, _ | _⟩) log ⟨hlen, h⟩
    · exact spend_pre (some ((sampleGroup P).toDoc P), cur) rfl h (m := 3) le_rfl
        fun _ h => ⟨⟨rfl, rfl⟩, h⟩
    · exact spend_pre (none, cur) rfl h (m := 2) le_rfl fun _ h => ⟨rfl, h⟩
    · simp at hlen
  stop := by
    rintro _ _ _ _ e ⟨⟨-, rfl⟩, -⟩ he
    exact not_sweepStop_toDoc hP sampleGroup_signed he
  queue := by
    rintro _ _ _ _ op ⟨⟨rfl, rfl⟩, h⟩ -
    exact ⟨le_rfl, h⟩

omit [DecidableEq β] in
theorem dropSteps_spending : DropSteps (CanEnd.rule fun _ => True) P u
    (fun bulk => Request.Leaves (.op (.deleteUser u)) (bulk.length + 1))
    (fun _ => Request.Leaves (.op (.deleteUser u)) 0) where
  quiet_write _ := quiet_spending quiet_leaves
  quiet_done _ := quiet_spending quiet_leaves
  write _ _ bulk _ h := spend_pre (.ok ()) rfl h (m := bulk.length + 1) le_rfl fun _ h => h
  delete _ h := spend_pre (.ok ()) rfl h (m := 0) le_rfl fun _ h => h

theorem spends_deleteUser (hP : P.Ideal) (h : Request.Leaves (.op (.deleteUser u)) 2 log) :
    Spends (.op (.deleteUser u)) (deleteUser P u) log := by
  refine judged_deleteUser (quiet_spending quiet_leaves) CanEnd.sound h fun log h => ?_
  refine (sweepSteps_spending hP).judged_loop (fun _ _ _ h => h.1) CanEnd.sound CanEnd.unrolls
    (fun _ _ h => h.elim) ?_ ⟨Nat.zero_le 1, h⟩
  rintro bulk log ⟨hlen, h⟩
  refine CanEnd.of_ends (dropSteps_spending.ends_finishDeletion ?_)
  rw [if_neg (List.ne_nil_of_length_eq_add_one hlen), hlen]
  exact h

omit [DecidableEq β] in
theorem spends_deleteAllData (h : Request.Leaves (.op .deleteAllData : Request β) 2 log) :
    Spends (.op .deleteAllData) (deleteAllData : Enclave β Unit) log := by
  have hD : ∀ (r : Except Stop Unit) (log : Log β),
      Request.Leaves (.op .deleteAllData : Request β) 0 log →
      Spends (.op .deleteAllData) (Prog.ofExcept r) log :=
    fun r log hr => CanEnd.of_ends (CallRule.ends_ofExcept hr)
  rw [deleteAllData_eq]
  refine (quiet_spending quiet_leaves).judged h CanEnd.sound (by trivial) fun _ log h => ?_
  refine judged_deleteMany_once CanEnd.sound CanEnd.unrolls hD
    (spend_pre (.ok none) rfl h (m := 1) le_rfl fun _ h => h) fun log h => ?_
  refine judged_deleteMany_once CanEnd.sound CanEnd.unrolls hD
    (spend_pre (.ok none) rfl h (m := 0) le_rfl fun _ h => h) fun log h => ?_
  exact (quiet_spending quiet_leaves).judged h CanEnd.sound (by trivial) fun _ log h =>
    hD (.ok ()) log h

theorem spends_getKeysOfGroup (h : Request.Leaves (.getKeysOfGroup g) 1 log) :
    Spends (.getKeysOfGroup g) (getKeysOfGroup P g) log := by
  have hsteps : KeysSteps (CanEnd.rule fun _ => True) P g (Request.Leaves (.getKeysOfGroup g) 1)
      (fun _ _ => False) (fun _ => Request.Leaves (.getKeysOfGroup g) 0) := {
    quiet_start := quiet_spending quiet_leaves
    quiet_read := fun _ _ _ _ h => h.elim
    quiet_done := fun _ => quiet_spending quiet_leaves
    find := fun log h => spend_pre (none, findWithOpts .groups [] none none) rfl h (m := 0) le_rfl
      fun _ h => h
    stop := fun _ _ _ h => h.elim
    done := fun _ _ _ h => h.elim }
  exact CanEnd.of_ends (hsteps.ends h)

omit [DecidableEq β] in
theorem spends_isUserPartOfGroup (h : Request.Leaves (.isUserPartOfGroup g u) 1 log) :
    Spends (.isUserPartOfGroup g u) (isUserPartOfGroup P g u) log := by
  apply CanEnd.of_ends
  refine ends_isUserPartOfGroup
    (B := fun x log => x.2.error = none ∧ Request.Leaves (.isUserPartOfGroup g u) 0 log)
    (quiet_spending quiet_leaves) (fun _ => .and (quiet_spending quiet_leaves)) (fun log h => ?_)
    (fun _ _ _ h _ _ => h.2) (fun _ _ h _ => h.2) h
  exact spend_pre (none, findWithOpts .groups [] none none) rfl h (m := 0) le_rfl fun _ h => ⟨rfl, h⟩

omit [DecidableEq β] in
theorem spends_createUser {key : List β} (h : Request.Leaves (.op (.createUser u key)) 1 log) :
    Spends (.op (.createUser u key)) (createUser P u key) log := by
  apply CanEnd.of_ends
  refine ends_createUser (D := fun _ => Request.Leaves (.op (.createUser u key)) 0)
    (quiet_spending quiet_leaves) (fun _ => quiet_spending quiet_leaves) (fun iv log h => ?_) h
  exact spend_pre (.ok ()) rfl h (m := 0) le_rfl fun _ h => h

theorem spends_request (hP : P.Ideal) (q : Request β) : Spends q (q.prog P) [] := by
  have hstart : q.Leaves q.allowance [] := Tariff.leaves_nil le_rfl
  cases q with
  | op o =>
    apply Spends.map
    cases o with
    | createUser u key => exact spends_createUser hstart
    | createGroup g u => exact spends_createGroup hP hstart
    | addUserToGroup g u =>
      refine ends_spending_withKey hP (fun _ => rfl) (fun c log h => ?_) hstart
      exact (editSteps_spending (fun _ => rfl) exists_sign_toDoc).ends (n := 10) h
    | removeUserFromGroup g u =>
      exact CanEnd.of_ends
        ((editSteps_spending (fun _ => rfl) exists_sign_toDoc).ends (n := 10) hstart)
    | deleteUser u => exact spends_deleteUser hP hstart
    | deleteAllData => exact spends_deleteAllData hstart
  | getKeysOfGroup g =>
    apply Spends.map
    exact spends_getKeysOfGroup hstart
  | isUserPartOfGroup g u =>
    apply Spends.map
    exact spends_isUserPartOfGroup hstart

end Spending

section Runs

variable [DecidableEq β] {ι : Type} [DecidableEq ι] {P : Primitives β}

theorem affords_callsOf {S : Type} {E : Env (Call β) Reply S} {reqs : ι → Request β} {w : S}
    {ms : List (Move ι (Call β) Reply S)} {cfg : Config ι (Call β) Reply Stop (Answer β) S}
    (h : History E (fun j => (reqs j).prog P) (.start w) ms cfg) (i : ι) :
    (reqs i).Affords 0 (callsOf i ms) := by
  obtain ⟨hpaid, -⟩ := h.of_records (fun _ _ _ _ _ => trivial) (records_work P (reqs i))
  exact Tariff.affords_of_paid fun l x l' hl => hpaid l x l' hl

/-- The allowance is exactly what a request can be held to: whatever the store answers and whoever
else is at work, a call reads and writes no more than its allowance and what the store has added,
and no smaller number will do. -/
theorem work_bound_iff (hP : P.Ideal) (reqs : ι → Request β) (i : ι) (b : ℕ) :
    (∀ (S : Type) (E : Env (Call β) Reply S) (w : S) (ms : List (Move ι (Call β) Reply S))
      (cfg : Config ι (Call β) Reply Stop (Answer β) S),
      History E (fun j => (reqs j).prog P) (.start w) ms cfg →
        (reqs i).tariff.spent (callsOf i ms) ≤ b + (reqs i).tariff.earned (callsOf i ms)) ↔
      (reqs i).allowance ≤ b := by
  constructor
  · intro hbound
    obtain ⟨r, log, hr, hlog⟩ := spends_request hP (reqs i)
    have hstart : History (Recording fun _ => True) (fun j => (reqs j).prog P) (.start []) []
        (.start []) := .nil _
    obtain ⟨ms, hms, hcalls⟩ := hstart.complete rfl hr
    have hlines : callsOf i ms = log := by
      rw [callsOf, List.filter_eq_self.mpr fun m hm => decide_eq_true (hcalls m hm).1]
      exact hms.lines_eq.symm
    have hspent := hbound _ _ _ _ _ hms
    rw [List.nil_append, hlines] at hspent
    have hlog : (reqs i).allowance + (reqs i).tariff.earned log ≤ (reqs i).tariff.spent log := hlog
    omega
  · intro hb S E w ms cfg h
    exact (affords_callsOf h i).trans (Nat.add_le_add_right hb _)

/-- Twenty reads and writes are not enough for every addition. -/
theorem work_bound_iff_sample :
    Request.allowance (.op (.addUserToGroup [5] [1]) : Request ℕ) = 21 ∧
    ¬ ∀ (S : Type) (E : Env (Call ℕ) Reply S) (w : S) (ms : List (Move Unit (Call ℕ) Reply S))
      (cfg : Config Unit (Call ℕ) Reply Stop (Answer ℕ) S),
      History E (fun _ => (Request.op (.addUserToGroup [5] [1])).prog Primitives.nat) (.start w)
        ms cfg → (Request.op (.addUserToGroup [5] [1])).tariff.spent (callsOf () ms) ≤
          20 + (Request.op (.addUserToGroup [5] [1])).tariff.earned (callsOf () ms) := by
  refine ⟨rfl, fun h => ?_⟩
  have hle := (work_bound_iff Primitives.nat_ideal
    (fun _ : Unit => .op (.addUserToGroup [5] [1])) () 20).mp h
  exact absurd hle (by decide)

end Runs

end MongoSgx
