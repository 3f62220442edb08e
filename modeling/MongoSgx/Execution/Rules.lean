import MongoSgx.Execution.Contents
import MongoSgx.Interaction.Judgement

/-! # The operations, call by call

The bodies of the operations are followed here once, for every judgement that is sound
for some rule of calls. For each operation there are assertions between its calls with
the store, which its silent calls must not disturb. What one call makes of an assertion
is all that is left to show in a logic.
-/

namespace MongoSgx

open Bson Interaction CallRule

variable {β α δ T : Type} {W : CallRule (Call β) Reply T} {Q : Except Stop α → T → Prop}
  {A : T → Prop} {t : T}

section Ends

def Reading (absent : Cursor β → T → Prop) (present : Doc β → Cursor β → T → Prop) :
    Option (Doc β) × Cursor β → T → Prop
  | (none, cur) => absent cur
  | (some d, cur) => present d cur

/-- A failure is thrown unless its code is zero. -/
def statusEnd : Except BsonError Unit → Except Stop Unit
  | .ok () => .ok ()
  | .error e => if e.code ≠ 0 then .error (.thrown e) else .ok ()

theorem throwPotentialError_eq (e : BsonError) :
    (throwPotentialError e : Enclave β Unit) = Prog.ofExcept (statusEnd (.error e)) := by
  simp only [throwPotentialError, statusEnd]
  split <;> rfl

theorem throwUnless_eq (r : Except BsonError Unit) :
    (throwUnless r : Enclave β Unit) = Prog.ofExcept (statusEnd r) := by
  cases r with
  | ok a => rfl
  | error e => exact throwPotentialError_eq e

theorem ends_read_bind {o : Option δ} {f : δ → Enclave β α}
    (hnone : o = none → Q (.error .fault) t) (hsome : ∀ a, o = some a → W.Ends Q (f a) t) :
    W.Ends Q ((read o).bind f) t := by
  cases o with
  | none => exact ends_throw (hnone rfl)
  | some a => exact hsome a rfl

/-- An operation goes on when its cursor has no error, or one with code zero. -/
theorem ends_throwCursorError_bind (hA : W.Quiet Call.Silent A) (ha : A t)
    {cur : Cursor β} {f : Unit → Enclave β α}
    (hstop : ∀ u e, A u → cur.error = some e → e.code ≠ 0 → Q (.error (.thrown e)) u)
    (h : ∀ u, A u → (∀ e, cur.error = some e → e.code = 0) → W.Ends Q (f ()) u) :
    W.Ends Q ((throwCursorError cur).bind f) t := by
  unfold throwCursorError
  split
  · rename_i e he
    apply hA.ends_call ha (by trivial)
    intro _ u hu
    by_cases hcode : e.code ≠ 0
    · rw [throwPotentialError_of_code hcode]
      exact ends_throw (hstop u e hu he hcode)
    · rw [throwPotentialError, if_neg hcode]
      refine h u hu fun e' he' => ?_
      obtain rfl := Option.some.inj (he.symm.trans he')
      exact not_not.mp hcode
  · rename_i hnone
    exact h t ha (by simp [hnone])

end Ends

section Edits

variable [DecidableEq β]

/-- What an attempt makes of the answer to its update. -/
def Answered (again : T → Prop) (D : Except Stop Unit → T → Prop) :
    Except BsonError (Doc β) → T → Prop
  | .ok reply, t => (matchedCount reply = none → D (.error .fault) t) ∧
      ∀ v, matchedCount reply = some v → if 1 ≤ v then D (.ok ()) t else again t
  | .error e, t => if e.code ≠ 0 then D (.error (.thrown e)) t else again t

/-- The assertions of a conditional edit: `A n` with `n` attempts left, `B n d` when one of them
has read the document `d`, and `D r` when the edit has ended with the result `r`. -/
structure EditSteps (W : CallRule (Call β) Reply T) (P : Primitives β) (edit : GroupEdit β)
    (A : ℕ → T → Prop) (B : ℕ → Doc β → T → Prop) (D : Except Stop Unit → T → Prop) : Prop where
  quiet_start : ∀ n, W.Quiet Call.Silent (A n)
  quiet_read : ∀ n d, W.Quiet Call.Silent (B n d)
  quiet_done : ∀ r, W.Quiet Call.Silent (D r)
  find : ∀ n t, A (n + 1) t → W.pre (.cursorNext (findWithOpts .groups edit.selector none none)) t
    (Reading (fun _ => D (.ok ())) fun d _ => B n d)
  stop : ∀ n d t e, B n d t → EditStop P edit d e → D (.error e) t
  send : ∀ n d t sel upd, B n d t → EditOf P edit d sel upd →
    W.pre (.updateOne .groups sel upd) t (Answered (A n) D)
  exhausted : ∀ t, A 0 t → D (.error (.thrown edit.exhausted)) t

variable {P : Primitives β} {edit : GroupEdit β} {A : ℕ → T → Prop} {B : ℕ → Doc β → T → Prop}
  {D : Except Stop Unit → T → Prop}

theorem EditSteps.quiet_answer (h : EditSteps W P edit A B D) (n : ℕ)
    (r : Except BsonError (Doc β)) : W.Quiet Call.Silent (Answered (A n) D r) := by
  intro c t hc hr
  cases r with
  | ok reply =>
    cases hm : matchedCount reply with
    | none =>
      refine W.mono (h.quiet_done _ c t hc (hr.1 hm)) fun _ u hu => ⟨fun _ => hu, ?_⟩
      intro v hv
      cases hm.symm.trans hv
    | some v =>
      have hr := hr.2 v hm
      have hend : ∀ u, (if 1 ≤ v then D (.ok ()) u else A n u) → Answered (A n) D (.ok reply) u :=
        fun u hu => ⟨by simp [hm], fun v' hv' => by
          obtain rfl := Option.some.inj (hm.symm.trans hv')
          exact hu⟩
      split at hr
      · rename_i hone
        refine W.mono (h.quiet_done _ c t hc hr) fun _ u hu => hend u ?_
        rwa [if_pos hone]
      · rename_i hone
        refine W.mono (h.quiet_start n c t hc hr) fun _ u hu => hend u ?_
        rwa [if_neg hone]
  | error e =>
    simp only [Answered] at hr ⊢
    split at hr
    · rename_i hcode
      simp only [if_pos hcode]
      exact h.quiet_done _ c t hc hr
    · rename_i hcode
      simp only [if_neg hcode]
      exact h.quiet_start n c t hc hr

theorem EditSteps.ends_answer (h : EditSteps W P edit A B D) {n : ℕ}
    (ih : ∀ t, A n t → W.Ends D (editAttempts P edit n) t) (r : Except BsonError (Doc β)) :
    Answered (A n) D r t → W.Ends D (match r with
      | .ok reply => (read (Iter.initFind reply "matchedCount").int64).bind fun matchedCount =>
          .call (.destroy .reply) fun _ =>
            if 1 ≤ matchedCount then pure () else editAttempts P edit n
      | .error e => .call (.destroy .reply) fun _ => (throwPotentialError e).bind fun _ =>
          .call (.destroy .reply) fun _ => editAttempts P edit n) t := by
  intro hr
  cases r with
  | ok reply =>
    refine ends_read_bind hr.1 fun v hv => ?_
    have hr := hr.2 v hv
    split at hr
    · rename_i hone
      rw [if_pos hone]
      exact (h.quiet_done _).ends_call hr (by trivial) fun _ _ hd => ends_pure hd
    · rename_i hone
      rw [if_neg hone]
      exact (h.quiet_start n).ends_call hr (by trivial) fun _ u => ih u
  | error e =>
    simp only [Answered] at hr
    split at hr
    · rename_i hcode
      refine (h.quiet_done _).ends_call hr (by trivial) fun _ _ hd => ?_
      rw [throwPotentialError_of_code hcode]
      exact ends_throw hd
    · rename_i hcode
      refine (h.quiet_start n).ends_call hr (by trivial) fun _ _ ha => ?_
      rw [throwPotentialError, if_neg hcode]
      exact (h.quiet_start n).ends_call ha (by trivial) fun _ u => ih u

theorem EditSteps.ends (h : EditSteps W P edit A B D) {n : ℕ} (hA : A n t) :
    W.Ends D (editAttempts P edit n) t := by
  induction n generalizing t with
  | zero => exact ends_throw (h.exhausted t hA)
  | succ n ih =>
    simp only [editAttempts, create, destroy, cursorNext, updateOne, Prog.bind_eq,
      Prog.request_bind]
    refine (h.quiet_start _).ends_call hA (by trivial) fun _ t hA => ?_
    refine (h.quiet_start _).ends_call hA (by trivial) fun _ t hA => ?_
    refine ends_call (h.find n t hA) ?_
    rintro ⟨_ | d, cur⟩ t hr
    · refine (h.quiet_done _).ends_call hr (by trivial) fun _ t hD => ?_
      exact (h.quiet_done _).ends_call hD (by trivial) fun _ _ hD => ends_pure hD
    · have hB : B n d t := hr
      have hstop : ∀ {e}, e = .fault ∨ e = .thrown edit.invalid →
          (∀ sel upd, ¬ EditOf P edit d sel upd) → ∀ {t}, B n d t → D (.error e) t :=
        fun he hno _ hB => h.stop n d _ _ hB ⟨he, hno⟩
      refine ends_read_bind (fun hv => hstop (.inl rfl) ?_ hB) fun valid hvalid => ?_
      · rintro sel upd ⟨hv', -⟩
        cases hv.symm.trans hv'
      cases valid with
      | false =>
        refine (h.quiet_read n d).ends_call hB (by trivial) fun _ t hB => ?_
        refine (h.quiet_read n d).ends_call hB (by trivial) fun _ t hB => ?_
        refine ends_throw (hstop (.inr rfl) ?_ hB)
        rintro sel upd ⟨hv', -⟩
        cases hvalid.symm.trans hv'
      | true =>
        refine ends_read_bind (fun hσ => hstop (.inl rfl) ?_ hB) fun σ hσ => ?_
        · rintro sel upd ⟨-, _, _, hσ', -⟩
          cases hσ.symm.trans hσ'
        refine ends_read_bind (fun hs => hstop (.inl rfl) ?_ hB) fun s hs => ?_
        · rintro sel upd ⟨-, _, _, -, hs', -⟩
          cases hs.symm.trans hs'
        have hedit : EditOf P edit d (edit.selector ++ [(["signature"], .eq (.binary σ))])
            (edit.update s) := ⟨hvalid, σ, s, hσ, hs, rfl, rfl⟩
        refine (h.quiet_read n d).ends_call hB (by trivial) fun _ t hB => ?_
        refine (h.quiet_read n d).ends_call hB (by trivial) fun _ t hB => ?_
        refine ends_call (h.send n d t _ _ hB hedit) fun r t hr => ?_
        have hquiet : W.Quiet Call.Silent (Answered (A n) D r) := h.quiet_answer n r
        refine hquiet.ends_call hr (by trivial) fun _ t hr => ?_
        refine hquiet.ends_call hr (by trivial) fun _ t hr => ?_
        refine hquiet.ends_call hr (by trivial) fun _ t hr => ?_
        exact h.ends_answer (fun t => ih) r hr

end Edits

section Records

variable [DecidableEq β]

/-- The assertions of fetching a key: `A` before the read of the record, `B d cur` after it, and
`D e` when it has ended with an exception. -/
structure RecordSteps (W : CallRule (Call β) Reply T) (P : Primitives β) (u : List β)
    (A : T → Prop) (B : Doc β → Cursor β → T → Prop) (D : Stop → T → Prop) : Prop where
  quiet_start : W.Quiet Call.Silent A
  quiet_read : ∀ d cur, W.Quiet Call.Silent (B d cur)
  find : ∀ t, A t → W.pre (.cursorNext (findWithOpts .users (nameSelector (hashName P u none)) none
    (some .primaryPreferred))) t
    (Reading (fun _ => D (.thrown (bsonError "User does not exist" 539))) B)
  stop : ∀ d cur t e, B d cur t → RecordStop P d cur e → D e t

variable {P : Primitives β} {u : List β} {B : Doc β → Cursor β → T → Prop} {D : Stop → T → Prop}

def Refetched (P : Primitives β) (B : Doc β → Cursor β → T → Prop) (D : Stop → T → Prop) :
    Except Stop (List β) → T → Prop
  | .ok c, t => ∃ d cur key iv, B d cur t ∧ recordKey P d = some key ∧ c = P.encryptAesgcm iv key
  | .error e, t => D e t

theorem RecordSteps.ends (h : RecordSteps W P u A B D) (hA : A t) :
    W.Ends (Refetched P B D) (reencryptUserKey P u) t := by
  simp only [reencryptUserKey, create, destroy, cursorNext, Prog.bind_eq, Prog.request_bind]
  iterate 5
    apply h.quiet_start.ends_call hA (by trivial)
    clear hA
    intro _ t hA
  refine ends_call (h.find t hA) ?_
  rintro ⟨_ | d, cur⟩ t hr
  · exact ends_throw hr
  · have hB : B d cur t := hr
    apply ends_throwCursorError_bind (h.quiet_read d cur) hB
    · exact fun t e hB he hcode => h.stop d cur t _ hB (.inl ⟨e, he, hcode, rfl⟩)
    intro t hB _
    refine ends_read_bind (fun hn => h.stop d cur t _ hB (.inr ⟨?_, .inl rfl⟩)) fun name hname => ?_
    · simp [recordKey, hn]
    refine ends_read_bind (fun hc => h.stop d cur t _ hB (.inr ⟨?_, .inl rfl⟩)) fun c hc => ?_
    · simp [recordKey, hname, hc]
    refine ends_read_bind (fun hs => h.stop d cur t _ hB (.inr ⟨?_, .inl rfl⟩)) fun signature hs => ?_
    · simp [recordKey, hname, hc, hs]
    split
    · rename_i hvalid
      cases hkey : P.decryptAesgcm c with
      | none =>
        have hrecord : recordKey P d = none := by simp [recordKey, hname, hc, hs, hkey]
        simp only [decryptData, hkey, throw]
        exact ends_throw (h.stop d cur t _ hB (.inr ⟨hrecord, .inr (.inr rfl)⟩))
      | some key =>
        have hrecord : recordKey P d = some key := by
          simp [recordKey, hname, hc, hs, hvalid, hkey]
        simp only [decryptData, hkey, encryptData, Prog.pure_bind, Prog.bind_eq,
          Prog.request_bind, Prog.call_bind, Prog.pure_eq]
        refine (h.quiet_read d cur).ends_call hB (by trivial) fun iv t hB => ?_
        refine (h.quiet_read d cur).ends_call hB (by trivial) fun _ t hB => ?_
        exact ends_pure ⟨d, cur, key, iv, hB, hrecord, rfl⟩
    · rename_i hvalid
      have hrecord : recordKey P d = none := by simp [recordKey, hname, hc, hs, hvalid]
      simp only [printf, Prog.request_bind]
      refine (h.quiet_read d cur).ends_call hB (by trivial) fun _ t hB => ?_
      refine (h.quiet_read d cur).ends_call hB (by trivial) fun _ t hB => ?_
      exact ends_throw (h.stop d cur t _ hB (.inr ⟨hrecord, .inr (.inl rfl)⟩))

theorem RecordSteps.ends_bind {D : Except Stop α → T → Prop} {f : List β → Enclave β α}
    (h : RecordSteps W P u A B fun e => D (.error e))
    (hf : ∀ d cur key iv t, B d cur t → recordKey P d = some key →
      W.Ends D (f (P.encryptAesgcm iv key)) t) (hA : A t) :
    W.Ends D ((reencryptUserKey P u).bind f) t := by
  refine (h.ends hA).bind ?_ fun e t he => he
  rintro _ t ⟨d, cur, key, iv, hB, hkey, rfl⟩
  exact hf d cur key iv t hB hkey

end Records

section Users

variable {P : Primitives β} {u key : List β}

theorem ends_createUser {D : Except Stop Unit → T → Prop}
    (hA : W.Quiet Call.Silent A) (hD : ∀ r, W.Quiet Call.Silent (D r))
    (h : ∀ iv t, A t → W.pre (.insertOne .users (newUserDoc P u key iv)) t fun r => D (statusEnd r))
    (ha : A t) : W.Ends D (createUser P u key) t := by
  simp only [createUser, encryptData, create, destroy, insertOne, Prog.bind_eq, Prog.request_bind,
    Prog.call_bind, Prog.pure_eq, Prog.pure_bind]
  refine hA.ends_call ha (by trivial) fun iv t ha => ?_
  refine hA.ends_call ha (by trivial) fun _ t ha => ?_
  refine ends_call (h iv t ha) fun r t hr => ?_
  refine (hD _).ends_call hr (by trivial) fun _ t hr => ?_
  rw [throwUnless_eq]
  exact ends_ofExcept hr

end Users

section Groups

variable [DecidableEq β]

/-- What creating a group makes of the answer to its insertion. -/
def Inserted (again : T → Prop) (D : Except Stop Unit → T → Prop) :
    Except BsonError Unit → T → Prop
  | .ok (), t => D (.ok ()) t
  | .error e, t => if e.code = mongocErrorDuplicateKey then again t else D (statusEnd (.error e)) t

variable {P : Primitives β} {g u c : List β} {F : T → Prop} {D : Except Stop Unit → T → Prop}

theorem ends_createGroupWithKey (hA : W.Quiet Call.Silent A) (hF : W.Quiet Call.Silent F)
    (hD : ∀ r, W.Quiet Call.Silent (D r))
    (h : ∀ iv t, A t → W.pre (.insertOne .groups (newGroupDoc P g u c iv)) t (Inserted F D))
    (hedit : ∀ t, F t → W.Ends D (addUserToGroupWithKey P g u c) t) (ha : A t) :
    W.Ends D (createGroupWithKey P g u c) t := by
  simp only [createGroupWithKey, encryptData, create, destroy, insertOne, Prog.bind_eq,
    Prog.request_bind, Prog.call_bind, Prog.pure_eq, Prog.pure_bind]
  refine hA.ends_call ha (by trivial) fun iv t ha => ?_
  refine hA.ends_call ha (by trivial) fun _ t ha => ?_
  refine ends_read_bind (fun hnone => ?_) fun signature hsign => ?_
  · cases hnone.symm.trans (groupSignature_newGroup c iv)
  obtain rfl := Option.some.inj (hsign.symm.trans (groupSignature_newGroup c iv))
  refine ends_call (h iv t ha) ?_
  rintro (e | ⟨⟩) t hr
  · simp only [Inserted] at hr
    split at hr
    · rename_i hcode
      refine hF.ends_call hr (by trivial) fun _ t hr => ?_
      simp only [hcode, ↓reduceIte]
      exact hedit t hr
    · rename_i hcode
      refine (hD _).ends_call hr (by trivial) fun _ t hr => ?_
      simp only [hcode, ↓reduceIte, throwPotentialError_eq]
      exact ends_ofExcept hr
  · exact (hD _).ends_call hr (by trivial) fun _ _ hr => ends_pure hr

end Groups

section Reads

variable {P : Primitives β} {g u : List β}

def memberCursor (P : Primitives β) (g u : List β) : Cursor β :=
  findWithOpts .groups (nameSelector (hashName P g none) ++
    [(["users", "name"], .eq (.binary (hashName P u (some g)).toList))])
    (some [("limit", .scalar (.int32 1)),
      ("projection", .document [("_id", .scalar (.bool true))])]) (some .primaryPreferred)

theorem ends_isUserPartOfGroup {B : Option (Doc β) × Cursor β → T → Prop}
    {D : Except Stop Bool → T → Prop} (hA : W.Quiet Call.Silent A)
    (hB : ∀ x, W.Quiet Call.Silent (B x))
    (h : ∀ t, A t → W.pre (.cursorNext (memberCursor P g u)) t B)
    (hstop : ∀ x e t, B x t → x.2.error = some e → e.code ≠ 0 → D (.error (.thrown e)) t)
    (hdone : ∀ x t, B x t → (∀ e, x.2.error = some e → e.code = 0) → D (.ok x.1.isSome) t)
    (ha : A t) : W.Ends D (isUserPartOfGroup P g u) t := by
  simp only [isUserPartOfGroup, create, destroy, cursorNext, Prog.bind_eq, Prog.request_bind]
  iterate 7
    apply hA.ends_call ha (by trivial)
    clear ha
    intro _ t ha
  refine ends_call (h t ha) fun x t hb => ?_
  apply ends_throwCursorError_bind (hB x) hb
  · exact fun t e hb => hstop x e t hb
  intro t hb hzero
  exact (hB x).ends_call hb (by trivial) fun _ t hb => ends_pure (hdone x t hb hzero)

variable [DecidableEq β]

/-- The assertions of fetching the keys of a group: `A` before its document is read, `B d` after
it, and `D r` when the call has ended with the result `r`. -/
structure KeysSteps (W : CallRule (Call β) Reply T) (P : Primitives β) (g : List β) (A : T → Prop)
    (B : Doc β → T → Prop) (D : Except Stop (List (Key β)) → T → Prop) : Prop where
  quiet_start : W.Quiet Call.Silent A
  quiet_read : ∀ d, W.Quiet Call.Silent (B d)
  quiet_done : ∀ r, W.Quiet Call.Silent (D r)
  find : ∀ t, A t → W.pre (.cursorNext (findWithOpts .groups (nameSelector (hashName P g none)) none
    (some .secondaryPreferred))) t
    (Reading (fun _ => D (.error (.thrown (bsonError "No matching group to validate" 487))))
      fun d _ => B d)
  stop : ∀ d t e, B d t → KeysStop P d e → D (.error e) t
  done : ∀ d t ks, B d t → KeysOf P d ks → D (.ok ks) t

theorem KeysSteps.ends {B : Doc β → T → Prop} {D : Except Stop (List (Key β)) → T → Prop}
    (h : KeysSteps W P g A B D) (hA : A t) :
    W.Ends D (getKeysOfGroup P g) t := by
  simp only [getKeysOfGroup, create, destroy, cursorNext, Prog.bind_eq, Prog.request_bind,
    throwCursorError_findWithOpts, Prog.pure_bind]
  iterate 4
    apply h.quiet_start.ends_call hA (by trivial)
    clear hA
    intro _ t hA
  refine ends_call (h.find t hA) ?_
  rintro ⟨_ | d, cur⟩ t hr
  · refine (h.quiet_done _).ends_call hr (by trivial) fun _ t hD => ?_
    exact (h.quiet_done _).ends_call hD (by trivial) fun _ _ hD => ends_throw hD
  · have hB : B d t := hr
    have hstop : ∀ {t e}, B d t → KeysStop P d e → D (.error e) t := fun hB he => h.stop d _ _ hB he
    refine ends_read_bind (fun hv => hstop hB (.malformed hv)) fun valid hvalid => ?_
    cases valid with
    | false =>
      refine (h.quiet_read d).ends_call hB (by trivial) fun _ t hB => ?_
      exact ends_throw (hstop hB (.invalid hvalid))
    | true =>
      refine ends_read_bind (fun hnone => hstop hB (.noArray hnone)) fun arrayIter harray => ?_
      rcases readKeys_cases P none arrayIter.rest with ⟨ks, hks, hread⟩ | ⟨-, e, hread⟩
      · rw [hread]
        refine (h.quiet_read d).ends_call hB (by trivial) fun _ t hB => ?_
        refine ends_pure (h.done d t ks hB ⟨hvalid, ?_⟩)
        rw [keysHeld, keysRead, harray]
        exact hks
      · rw [hread]
        exact ends_throw (hstop hB (.entries harray hread))

end Reads

section Deletion

variable [DecidableEq β]

/-- The assertions of the reads of a deletion: `I cur bulk` while the cursor is read, `B cur bulk d`
when it has returned `d`, `F bulk` when it has ended, and `D e` when the deletion has stopped. -/
structure SweepSteps (W : CallRule (Call β) Reply T) (P : Primitives β) (u : List β)
    (I : Cursor β → Bulk β → T → Prop) (B : Cursor β → Bulk β → Doc β → T → Prop)
    (F : Bulk β → T → Prop) (D : Stop → T → Prop) : Prop where
  quiet_round : ∀ cur bulk, W.Quiet Call.Silent (I cur bulk)
  quiet_read : ∀ cur bulk d, W.Quiet Call.Silent (B cur bulk d)
  next : ∀ cur bulk t, I cur bulk t → W.pre (.cursorNext cur) t
    (Reading (fun _ => F bulk) fun d cur' => B cur' bulk d)
  stop : ∀ cur bulk d t e, B cur bulk d t → SweepStop P u d e → D e t
  queue : ∀ cur bulk d t op, B cur bulk d t → SweepOf P u d op → I cur (bulk ++ [op]) t

/-- How a round of the reads ends: either it has queued one more update, or the cursor has ended. -/
def RoundOver (I : Cursor β → Bulk β → T → Prop) (F : Bulk β → T → Prop) (D : Stop → T → Prop)
    (queued : Bulk β) : Except Stop ((Cursor β × Bulk β) ⊕ Bulk β) → T → Prop
  | .ok (.inl (cur, bulk)), t => bulk.length = queued.length + 1 ∧ I cur bulk t
  | .ok (.inr bulk), t => F bulk t
  | .error e, t => D e t

/-- The assertions of the writes of a deletion: `K bulk` while the updates in `bulk` are still to be
written, and `D r` at the end. -/
structure DropSteps (W : CallRule (Call β) Reply T) (P : Primitives β) (u : List β)
    (K : Bulk β → T → Prop) (D : Except Stop Unit → T → Prop) : Prop where
  quiet_write : ∀ bulk, W.Quiet Call.Silent (K bulk)
  quiet_done : ∀ r, W.Quiet Call.Silent (D r)
  write : ∀ sel upd bulk t, K ((sel, upd) :: bulk) t → W.pre (.bulkUpdateOne .groups sel upd) t
    fun r t => match r with
      | .ok () => K bulk t
      | .error e => if e.code ≠ 0 then D (.error (.thrown e)) t else K [] t
  delete : ∀ t, K [] t → W.pre (.deleteOne .users (nameSelector (hashName P u none))) t
    fun r => D (statusEnd r)

variable {P : Primitives β} {u : List β} {I : Cursor β → Bulk β → T → Prop}
  {B : Cursor β → Bulk β → Doc β → T → Prop} {F K : Bulk β → T → Prop} {cur : Cursor β}
  {bulk : Bulk β}

theorem SweepSteps.ends_sweepRound {D : Stop → T → Prop} (h : SweepSteps W P u I B F D)
    (hI : I cur bulk t) :
    W.Ends (RoundOver I F D bulk) (sweepRound P u (cur, bulk)) t := by
  simp only [sweepRound, cursorNext, Prog.bind_eq, Prog.request_bind]
  refine ends_call (h.next cur bulk t hI) ?_
  rintro ⟨_ | d, cur'⟩ t hr
  · exact ends_pure hr
  · have hB : B cur' bulk d t := hr
    have hstop : ∀ {e}, e = .fault ∨ e = .thrown (bsonError "Error decrypting data" 603) ∨
        e = .thrown (bsonError "Error in signature validation" 349) →
        (∀ op, ¬ SweepOf P u d op) → ∀ {t}, B cur' bulk d t → D e t :=
      fun he hno _ hB => h.stop _ _ _ _ _ hB ⟨he, hno⟩
    refine ends_read_bind (fun hc => hstop (.inl rfl) ?_ hB) fun c hc => ?_
    · rintro op ⟨-, _, _, _, hc', -⟩
      cases hc.symm.trans hc'
    cases hg : P.decryptAesgcm c with
    | none =>
      simp only [decryptData, hg, throw]
      refine ends_throw (hstop (.inr (.inl rfl)) ?_ hB)
      rintro op ⟨-, _, _, _, hc', hg', -⟩
      obtain rfl := Option.some.inj (hc.symm.trans hc')
      cases hg.symm.trans hg'
    | some g =>
      simp only [decryptData, hg, Prog.pure_bind, printf, Prog.request_bind]
      refine (h.quiet_read _ _ _).ends_call hB (by trivial) fun _ t hB => ?_
      refine ends_read_bind (fun hv => hstop (.inl rfl) ?_ hB) fun valid hvalid => ?_
      · rintro op ⟨hv', -⟩
        cases hv.symm.trans hv'
      cases valid with
      | false =>
        refine ends_throw (hstop (.inr (.inr rfl)) ?_ hB)
        rintro op ⟨hv', -⟩
        cases hvalid.symm.trans hv'
      | true =>
        refine ends_read_bind (fun hs => hstop (.inl rfl) ?_ hB) fun s hs => ?_
        · rintro op ⟨-, _, _, _, hc', hg', hs', -⟩
          obtain rfl := Option.some.inj (hc.symm.trans hc')
          obtain rfl := Option.some.inj (hg.symm.trans hg')
          cases hs.symm.trans hs'
        have hI := h.queue _ _ _ _ _ hB ⟨hvalid, c, g, s, hc, hg, hs, rfl⟩
        refine (h.quiet_round _ _).ends_call hI (by trivial) fun _ t hI => ?_
        refine (h.quiet_round _ _).ends_call hI (by trivial) fun _ t hI => ?_
        exact ends_pure ⟨List.length_append, hI⟩

/-- How a bulk ends: it has been written, or an error stops the deletion. -/
def BulkOver (K : Bulk β → T → Prop) (D : Except Stop Unit → T → Prop) :
    Except Stop (Except BsonError Unit) → T → Prop
  | .ok (.ok ()), t => K [] t
  | .ok (.error e), t => if e.code ≠ 0 then D (.error (.thrown e)) t else K [] t
  | .error _, _ => False

omit [DecidableEq β] in
theorem DropSteps.ends_bulkRun {D : Except Stop Unit → T → Prop} (h : DropSteps W P u K D)
    (hK : K bulk t) : W.Ends (BulkOver K D) (bulkRun .groups bulk) t := by
  induction bulk generalizing t with
  | nil => exact ends_pure hK
  | cons op bulk ih =>
    simp only [bulkRun, bulkUpdateOne, Prog.bind_eq, Prog.request_bind]
    refine ends_call (h.write op.1 op.2 bulk t hK) ?_
    rintro (e | ⟨⟩) t hr
    · exact ends_pure hr
    · exact ih hr

omit [DecidableEq β] in
/-- An empty bulk fails. -/
theorem DropSteps.ends_bulkExecute {D : Except Stop Unit → T → Prop} (h : DropSteps W P u K D)
    (hK : if bulk = [] then D (.error (.thrown emptyBulkError)) t else K bulk t) :
    W.Ends (BulkOver K D) (bulkExecute .groups bulk) t := by
  split at hK
  · rename_i hnil
    subst hnil
    have hcode : emptyBulkError.code ≠ 0 := by decide
    refine ends_pure ?_
    rw [BulkOver, if_pos hcode]
    exact hK
  · rename_i hne
    rw [show bulkExecute .groups bulk = bulkRun .groups bulk from
      if_neg (by simpa [List.isEmpty_iff] using hne)]
    exact h.ends_bulkRun hK

omit [DecidableEq β] in
theorem DropSteps.ends_finishDeletion {D : Except Stop Unit → T → Prop} (h : DropSteps W P u K D)
    (hK : if bulk = [] then D (.error (.thrown emptyBulkError)) t else K bulk t) :
    W.Ends D (finishDeletion P u bulk) t := by
  have hrest : ∀ t, K [] t → W.Ends D (.call (.create .selector) fun _ =>
      (deleteOne .users (nameSelector (hashName P u none))).bind fun status =>
        .call (.destroy .selector) fun _ => throwUnless status) t := by
    intro t hK
    refine (h.quiet_write []).ends_call hK (by trivial) fun _ t hK => ?_
    refine ends_call (h.delete t hK) fun r t hD => ?_
    refine (h.quiet_done _).ends_call hD (by trivial) fun _ t hD => ?_
    rw [throwUnless_eq]
    exact ends_ofExcept hD
  simp only [finishDeletion, create, destroy, Prog.bind_eq, Prog.request_bind]
  refine (h.ends_bulkExecute hK).bind ?_ fun e t he => he.elim
  rintro (e | ⟨⟩) t hr
  · simp only [BulkOver, throwUnless, throwPotentialError] at hr ⊢
    split at hr
    · rename_i hcode
      rw [if_pos hcode]
      exact ends_throw hr
    · rename_i hcode
      rw [if_neg hcode]
      exact hrest t hr
  · exact hrest t hr

/-- The reads of a deletion, where only so many updates can be queued. -/
theorem SweepSteps.judged_loop {J : Enclave β α → T → Prop} {k : Bulk β → Enclave β α}
    {D : Stop → T → Prop} (h : SweepSteps W P u I B F D) {n : ℕ}
    (hn : ∀ cur bulk t, I cur bulk t → bulk.length ≤ n) (hJ : W.Sound J) (hU : Unrolls J)
    (hD : ∀ e t, D e t → J (.throw e) t) (hk : ∀ bulk t, F bulk t → J (k bulk) t)
    (hI : I cur bulk t) : J (.loop (sweepRound P u) (cur, bulk) k) t := by
  refine hJ.loop_measure hU (fun x => I x.1 x.2) (fun x _ => n - x.2.length) (fun x t hI => ?_) hI
  apply (h.ends_sweepRound hI).mono
  rintro (e | ⟨cur', bulk'⟩ | bulk') t hr
  · exact hD e t hr
  · obtain ⟨hlen, hI'⟩ := hr
    have hle := hn _ _ _ hI'
    refine ⟨hI', ?_⟩
    simp only at hlen ⊢
    omega
  · exact hk bulk' t hr

theorem judged_deleteUser {J : Enclave β Unit → T → Prop} (hA : W.Quiet Call.Silent A)
    (hJ : W.Sound J) (ha : A t)
    (h : ∀ t, A t → J (.loop (sweepRound P u)
      (findWithOpts .groups [] none (some .primaryPreferred), []) (finishDeletion P u)) t) :
    J (deleteUser P u) t := by
  simp only [deleteUser_eq, create, destroy, Prog.bind_eq, Prog.request_bind]
  iterate 6
    apply hA.judged ha hJ (by trivial)
    clear ha
    intro _ t ha
  exact h t ha

theorem SweepSteps.judged_deleteUser {J : Enclave β Unit → T → Prop} {D : Except Stop Unit → T → Prop}
    (h : SweepSteps W P u I B F fun e => D (.error e)) (hdrop : DropSteps W P u K D)
    (hend : ∀ bulk t, F bulk t → if bulk = [] then D (.error (.thrown emptyBulkError)) t else K bulk t)
    (hJ : W.Sound J) (hL : W.Loops J) (hD : ∀ r t, D r t → J (Prog.ofExcept r) t)
    (hI : I (findWithOpts .groups [] none (some .primaryPreferred)) [] t) : J (deleteUser P u) t := by
  refine MongoSgx.judged_deleteUser (h.quiet_round _ _) hJ hI fun t hI => ?_
  refine hL (I := fun x => I x.1 x.2) (x := (_, [])) (fun x t hI => ?_) hI
  refine (h.ends_sweepRound hI).mono ?_
  rintro (e | ⟨cur, bulk⟩ | bulk) t hr
  · exact hD _ t hr
  · exact hr.2
  · exact (hdrop.ends_finishDeletion (hend bulk t hr)).judged hJ hD

end Deletion

section Reset

def Deleted (again next : T → Prop) (D : Except Stop Unit → T → Prop) :
    Except BsonError (Option (List ℕ)) → T → Prop
  | .ok (some _), t => again t
  | .ok none, t => next t
  | .error e, t => if e.code ≠ 0 then D (.error (.thrown e)) t else next t

/-- The assertions of deleting all data: `A` while the users are deleted, `B` while the groups are,
and `D r` at the end. -/
structure ResetSteps (W : CallRule (Call β) Reply T) (A B : T → Prop)
    (D : Except Stop Unit → T → Prop) : Prop where
  quiet_start : W.Quiet Call.Silent A
  quiet_done : W.Quiet Call.Silent (D (.ok ()))
  users : ∀ todo t, A t → W.pre (.deleteNext .users [] todo) t (Deleted A B D)
  groups : ∀ todo t, B t → W.pre (.deleteNext .groups [] todo) t (Deleted B (D (.ok ())) D)

def deleteManyRound (coll : Collection) (todo : Option (List ℕ)) :
    Enclave β (Option (List ℕ) ⊕ Except BsonError Unit) := do
  match ← deleteNext coll [] todo with
  | .error e => return .inr (.error e)
  | .ok none => return .inr (.ok ())
  | .ok (some todo) => return .inl (some todo)

theorem deleteAllData_eq : (deleteAllData : Enclave β Unit) =
    .call (.create .selector) fun _ => .loop (deleteManyRound .users) none fun status =>
      (throwUnless status).bind fun _ => .loop (deleteManyRound .groups) none fun status =>
        (throwUnless status).bind fun _ => destroy .selector := rfl

variable {N : T → Prop} {D : Except Stop Unit → T → Prop} {J : Enclave β Unit → T → Prop}

/-- How a round of the deletion of a collection ends, after an answer. -/
def ResetRoundOver (Φ : Except BsonError (Option (List ℕ)) → T → Prop) :
    Except Stop (Option (List ℕ) ⊕ Except BsonError Unit) → T → Prop
  | .ok (.inl todo), t => ∃ ids, todo = some ids ∧ Φ (.ok (some ids)) t
  | .ok (.inr (.ok ())), t => Φ (.ok none) t
  | .ok (.inr (.error e)), t => Φ (.error e) t
  | .error _, _ => False

theorem ends_deleteManyRound {coll : Collection} {todo : Option (List ℕ)}
    {Φ : Except BsonError (Option (List ℕ)) → T → Prop}
    (h : W.pre (.deleteNext coll [] todo) t Φ) :
    W.Ends (ResetRoundOver Φ) (deleteManyRound coll todo) t := by
  simp only [deleteManyRound, deleteNext, Prog.bind_eq, Prog.request_bind]
  refine ends_call h ?_
  rintro (e | _ | ids) t hr
  · exact ends_pure hr
  · exact ends_pure hr
  · exact ends_pure ⟨ids, rfl, hr⟩

theorem judged_status {again : T → Prop} {k : Unit → Enclave β Unit}
    (hD : ∀ r t, D r t → J (Prog.ofExcept r) t) (hk : ∀ t, N t → J (k ()) t)
    {status : Except BsonError Unit}
    (h : ResetRoundOver (Deleted again N D) (.ok (.inr status)) t) :
    J ((throwUnless status).bind k) t := by
  rcases status with e | ⟨⟩
  · simp only [ResetRoundOver, Deleted] at h
    simp only [throwUnless, throwPotentialError]
    split at h
    · rename_i hcode
      rw [if_pos hcode]
      exact hD _ t h
    · rename_i hcode
      rw [if_neg hcode]
      exact hk t h
  · exact hk t h

theorem judged_deleteMany {coll : Collection} {k : Unit → Enclave β Unit} (hL : W.Loops J)
    (hD : ∀ r t, D r t → J (Prog.ofExcept r) t)
    (h : ∀ todo t, A t → W.pre (.deleteNext coll [] todo) t (Deleted A N D))
    (hk : ∀ t, N t → J (k ()) t) (ha : A t) :
    J (.loop (deleteManyRound coll) none fun status => (throwUnless status).bind k) t := by
  refine hL (I := fun _ => A) (fun todo t ha => ?_) ha
  apply (ends_deleteManyRound (h todo t ha)).mono
  rintro (e | todo | status) t hr
  · exact hr.elim
  · obtain ⟨ids, -, ha⟩ := hr
    exact ha
  · exact judged_status hD hk hr

/-- A collection that is said to be empty, or a deletion that fails. -/
theorem judged_deleteMany_once {coll : Collection} {k : Unit → Enclave β Unit} (hJ : W.Sound J)
    (hU : Unrolls J) (hD : ∀ r t, D r t → J (Prog.ofExcept r) t)
    (h : W.pre (.deleteNext coll [] none) t (Deleted (fun _ => False) N D))
    (hk : ∀ t, N t → J (k ()) t) :
    J (.loop (deleteManyRound coll) none fun status => (throwUnless status).bind k) t := by
  refine hU (ends_deleteManyRound h _ J hJ _ ?_ fun e t he => he.elim)
  rintro (todo | status) t hr
  · obtain ⟨ids, -, hno⟩ := hr
    exact hno.elim
  · exact judged_status hD hk hr

theorem ResetSteps.judged_deleteAllData {B : T → Prop} (h : ResetSteps W A B D) (hJ : W.Sound J)
    (hL : W.Loops J) (hD : ∀ r t, D r t → J (Prog.ofExcept r) t) (ha : A t) :
    J deleteAllData t := by
  rw [deleteAllData_eq]
  refine h.quiet_start.judged ha hJ (by trivial) fun _ t ha => ?_
  refine judged_deleteMany hL hD h.users (fun t hb => ?_) ha
  refine judged_deleteMany hL hD h.groups (fun t hd => ?_) hb
  exact h.quiet_done.judged hd hJ (by trivial) fun _ t hd => hD _ t hd

end Reset

end MongoSgx
