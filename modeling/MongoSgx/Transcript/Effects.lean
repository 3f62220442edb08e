import MongoSgx.Concurrent.Calls
import MongoSgx.Interaction.History
import MongoSgx.Transcript.Failures

/-! # Effects of an operation

The reply to a write says whether it has changed anything. An operation that is not
a deletion changes the store at most once, and when it ends with an exception, nothing
was changed; a deletion has not begun to write when it stops by itself.
-/

namespace MongoSgx

open Bson Interaction

variable {β : Type}

def Effective : Line β → Prop
  | ⟨.insertOne _ _, .ok ()⟩ | ⟨.bulkUpdateOne _ _ _, .ok ()⟩ | ⟨.deleteOne _ _, .ok ()⟩ |
    ⟨.deleteNext _ _ _, .ok (some _)⟩ => True
  | ⟨.updateOne _ _ _, .ok reply⟩ => ∃ v, matchedCount reply = some v ∧ 1 ≤ v
  | _ => False

def Unmoved (log : Log β) : Prop := ∀ x ∈ log, ¬ Effective x

def Request.Deletes : Request β → Prop
  | .op (.deleteUser _) | .op .deleteAllData => True
  | _ => False

section Logs

variable {log : Log β} {x : Line β}

theorem Unmoved.append (h : Unmoved log) (hx : ¬ Effective x) : Unmoved (log ++ [x]) := by
  intro y hy
  rcases List.mem_append.mp hy with hy | hy
  · exact h y hy
  · rwa [List.mem_singleton.mp hy]

theorem not_effective_of_silent (hx : x.call.Silent) : ¬ Effective x := by
  obtain ⟨c, r⟩ := x
  cases c <;> first | exact hx.elim | exact id

theorem quiet_unmoved : Quiet (Unmoved (β := β)) :=
  fun _ _ h hx => h.append (not_effective_of_silent hx)

/-- Apart from deletions nothing is changed twice. -/
def effectWatch (q : Request β) : Watch β where
  allowed _ := True
  guar log x := ¬ q.Deletes → Effective x → Unmoved log
  silent _ _ hx _ heffect := absurd heffect (not_effective_of_silent hx)

def Settled {α : Type} (r : Except Stop α) (log : Log β) : Prop :=
  ∀ e, r = .error (.thrown e) → Unmoved log

/-- After an exception that no call has failed with nothing was changed. -/
def Owned {α : Type} (r : Except Stop α) (log : Log β) : Prop :=
  ∀ e, r = .error (.thrown e) → (∀ x ∈ log, failure x ≠ some e) → Unmoved log

theorem settled_ok {α : Type} {a : α} : Settled (.ok a) log := by
  rintro e ⟨⟩

theorem Unmoved.settled {α : Type} {r : Except Stop α} (h : Unmoved log) : Settled r log :=
  fun _ _ => h

theorem Settled.owned {α : Type} {r : Except Stop α} (h : Settled r log) : Owned r log :=
  fun e he _ => h e he

theorem Settled.map {α γ : Type} {r : Except Stop α} {f : α → γ} (h : Settled r log) :
    Settled (r.map f) log := by
  rcases r with e | a
  · exact fun e' he => h e' (congrArg _ (Except.error.inj he))
  · exact settled_ok

theorem Owned.map {α γ : Type} {r : Except Stop α} {f : α → γ} (h : Owned r log) :
    Owned (r.map f) log := by
  rcases r with e | a
  · exact fun e' he => h e' (congrArg _ (Except.error.inj he))
  · exact settled_ok.owned

theorem quiet_settled {α : Type} (r : Except Stop α) : Quiet (Settled (β := β) r) :=
  fun log x h hx e he => quiet_unmoved log x (h e he) hx

theorem quiet_owned {α : Type} (r : Except Stop α) : Quiet (Owned (β := β) r) := by
  intro log x h hx e he hno
  apply quiet_unmoved log x (h e he fun y hy => ?_) hx
  exact hno y (List.mem_append_left _ hy)

theorem owned_failure {α : Type} {e : BsonError} (hx : failure x = some e) :
    Owned (.error (.thrown e) : Except Stop α) (log ++ [x]) := by
  rintro e' he hno
  obtain rfl : e = e' := by simpa using he
  exact absurd hx (hno x (List.mem_append_right _ (List.mem_singleton_self x)))

end Logs

section Requests

variable [DecidableEq β] {P : Primitives β} {g u : List β} {q : Request β}

/-- An edit ends with its first update that has an effect. -/
theorem editRule_effects (edit : GroupEdit β) :
    EditRule (effectWatch q) P edit (fun _ => Unmoved) (fun _ _ => Unmoved) Settled where
  quiet_start _ := quiet_unmoved
  quiet_read _ _ := quiet_unmoved
  quiet_done := quiet_settled
  find _ _ _ _ _ _ := nofun
  absent _ _ _ _ _ := settled_ok
  present _ _ _ _ h _ := h.append id
  stop _ _ _ _ h _ := h.settled
  send _ _ _ _ _ _ h _ _ _ _ := h
  answer _ _ log sel upd r h _ _ := by
    cases r with
    | ok reply =>
      constructor
      · rintro - e ⟨⟩
      · intro v hv
        split
        · exact settled_ok
        · rename_i hone
          apply h.append
          rintro ⟨v', hv', hone'⟩
          exact hone (Option.some.inj (hv.symm.trans hv') ▸ hone')
    | error e =>
      simp only [Answered]
      split
      · exact (h.append id).settled
      · exact h.append id
  exhausted _ h := h.settled

omit [DecidableEq β] in
theorem recordRule_effects :
    RecordRule (effectWatch q) P u Unmoved (fun _ _ => Unmoved)
      (fun e => Settled (.error e : Except Stop Unit)) where
  quiet_start := quiet_unmoved
  quiet_read _ _ := quiet_unmoved
  find _ _ _ _ _ := nofun
  absent _ _ h _ := (h.append id).settled
  present _ _ _ h _ := h.append id
  stop _ _ _ _ h _ := h.settled

theorem joinRule_effects :
    JoinRule (effectWatch q) P g u Unmoved (fun _ _ => Unmoved) (fun _ _ => Unmoved)
      (fun _ _ _ => Unmoved) Settled where
  record := recordRule_effects
  edit _ := editRule_effects _
  start _ _ _ _ _ h _ := h

theorem foundRule_effects :
    FoundRule (effectWatch q) P g u Unmoved (fun _ _ => Unmoved) (fun _ => Unmoved)
      (fun _ _ => Unmoved) (fun _ _ _ => Unmoved) Settled where
  record := recordRule_effects
  edit _ := editRule_effects _
  quiet_insert _ := quiet_unmoved
  start _ _ _ _ _ h _ := h
  insert _ _ _ _ h _ _ _ := h
  inserted _ _ _ _ _ := settled_ok
  refused _ _ _ _ h _ _ := h.append id
  failed _ _ _ _ h _ _ := (h.append id).settled

/-- A deletion that stops by itself has not come to its writes. -/
theorem sweepRule_effects :
    SweepRule (effectWatch (.op (.deleteUser u))) P u (fun _ _ => Unmoved)
      (fun _ _ _ => Unmoved) (fun _ _ => True)
      Owned where
  quiet_round _ _ := quiet_unmoved
  quiet_read _ _ _ := quiet_unmoved
  quiet_write _ _ _ _ _ := trivial
  quiet_done := quiet_owned
  next _ _ _ _ _ _ _ := nofun
  visit _ _ _ _ _ h _ := h.append id
  stop _ _ _ _ _ h _ := h.settled.owned
  queue _ _ _ _ _ h _ := h
  idle _ _ _ h _ := (h.append id).settled.owned
  ended _ _ _ _ _ _ _ := trivial
  write _ _ _ _ _ _ hno := absurd trivial hno
  written _ _ _ _ _ := trivial
  broken _ _ _ e _ _ := by
    split
    · exact owned_failure rfl
    · trivial
  delete _ _ _ _ hno := absurd trivial hno
  deleted _ _ _ := settled_ok.owned
  failed _ e _ _ := by
    split
    · exact owned_failure rfl
    · exact settled_ok.owned

theorem records_effects_deletes {q : Request β} (hq : q.Deletes) :
    (effectWatch q).Records Owned (q.prog P) [] := by
  have hstart : Unmoved ([] : Log β) := by simp [Unmoved]
  cases q with
  | op o =>
    apply Records.map
    cases o with
    | deleteUser u => exact (sweepRule_effects.records_deleteUser hstart).mono fun _ _ => .map
    | deleteAllData =>
      apply Records.mono (Q := Owned) _ fun _ _ => .map
      apply records_deleteAllData (A := fun _ => True)
      · exact fun _ _ _ _ => trivial
      · intro coll todo r log _ _
        refine ⟨fun hno => absurd trivial hno, ?_⟩
        cases r with
        | ok => trivial
        | error e =>
          simp only
          split
          · exact owned_failure rfl
          · trivial
      · exact fun _ _ => settled_ok.owned
      · trivial
    | _ => exact hq.elim
  | _ => exact hq.elim

theorem records_effects_single {q : Request β} (hq : ¬ q.Deletes) :
    (effectWatch q).Records Settled (q.prog P) [] := by
  have hstart : Unmoved ([] : Log β) := by simp [Unmoved]
  cases q with
  | op o =>
    apply Records.map
    apply Records.mono (Q := Settled) _ fun _ _ => .map
    cases o with
    | createUser u key =>
      apply records_createUser quiet_unmoved quiet_settled _ hstart
      intro iv r log h _
      refine ⟨fun _ _ => h, ?_⟩
      rcases r with e | ⟨⟩
      · exact (h.append id).settled
      · exact settled_ok
    | createGroup g u => exact foundRule_effects.records_createGroup hstart
    | addUserToGroup g u => exact joinRule_effects.records_addUserToGroup hstart
    | removeUserFromGroup g u => exact (editRule_effects _).records_editAttempts 10 hstart
    | _ => exact (hq trivial).elim
  | getKeysOfGroup g =>
    apply Records.map
    apply Records.mono (Q := Settled) _ fun _ _ => .map
    apply records_getKeysOfGroup quiet_unmoved (B := fun _ => Unmoved) (fun _ => quiet_unmoved)
    · exact fun _ log h _ => ⟨fun _ => nofun, h.append id⟩
    · exact fun _ _ _ h => h.settled
    · exact fun _ _ _ _ _ _ => settled_ok
    · exact hstart
  | isUserPartOfGroup g u =>
    apply Records.map
    apply Records.mono (Q := Settled) _ fun _ _ => .map
    apply records_isUserPartOfGroup quiet_unmoved (B := fun _ => Unmoved) (fun _ => quiet_unmoved)
    · exact fun _ log h _ => ⟨fun _ => nofun, h.append id⟩
    · exact fun _ _ _ h _ _ => h.settled
    · exact fun _ _ _ _ => settled_ok
    · exact hstart

theorem records_effects (q : Request β) : (effectWatch q).Records Owned (q.prog P) [] := by
  by_cases hq : q.Deletes
  · exact records_effects_deletes hq
  · exact (records_effects_single hq).mono fun _ _ => Settled.owned

end Requests

section Stores

variable [DecidableEq β] {P : Primitives β}

theorem honest_unchanged {x : Line β} {w w' : World β} (h : Honest .int64 x.call w x.reply w')
    (hx : ¬ Effective x) : w' = w := by
  obtain ⟨c, r⟩ := x
  cases c with
  | insertOne coll doc =>
    rcases h with ⟨-, hw, -⟩ | ⟨-, rfl, -⟩
    · exact hw
    · exact absurd trivial hx
  | updateOne coll sel upd =>
    rcases h with ⟨n, ds, hu, rfl, rfl⟩ | ⟨-, hw, -⟩
    · generalize hds : w.docs coll = ds₀ at hu
      cases hu with
      | none =>
        subst hds
        cases coll <;> rfl
      | one => exact absurd ⟨1, read_matchedCount 1, le_refl 1⟩ hx
    · exact hw
  | bulkUpdateOne coll sel upd =>
    rcases h with ⟨n, ds, -, rfl, -⟩ | ⟨-, hw, -⟩
    · exact absurd trivial hx
    · exact hw
  | deleteOne coll sel =>
    obtain ⟨rfl, -⟩ := h
    exact absurd trivial hx
  | deleteNext coll sel todo =>
    rcases h with ⟨l, d, l', id, -, -, -, rfl, -⟩ | ⟨-, -, hw⟩
    · exact absurd trivial hx
    · exact hw
  | cursorNext cur => exact h.1
  | _ => exact h

variable {ι : Type} [DecidableEq ι] {E : Env (Call β) Reply (World β)}
  {prog : ι → Enclave β (Answer β)} {w : World β} {ms : List (Move ι (Call β) Reply (World β))}
  {cfg : Config ι (Call β) Reply Stop (Answer β) (World β)} {i : ι}

theorem changes_once {q : Request β} (h : History E prog (.start w) ms cfg)
    (hi : prog i = q.prog P) (hq : ¬ q.Deletes) {m n : Move ι (Call β) Reply (World β)}
    (hmn : [m, n].Sublist (ms.filter fun m => m.client = i)) (hm : Effective m.line) :
    ¬ Effective n.line := by
  have hrec : (effectWatch q).Records Settled (prog i) [] := by
    rw [hi]
    exact records_effects_single hq
  obtain ⟨hsend, -⟩ := h.of_records (fun _ _ _ _ _ => trivial) hrec
  obtain ⟨l, l', hl, hml⟩ := exists_callsOf_eq hmn
  exact fun hn => hsend l n.line l' hl hq hn m.line hml hm

theorem unmoved_of_error {q : Request β} {e : BsonError}
    (h : History E prog (.start w) ms cfg) (hi : prog i = q.prog P) (hq : ¬ q.Deletes)
    (he : cfg.status i = .finished (.error (.thrown e))) : Unmoved (callsOf i ms) := by
  have hrec : (effectWatch q).Records Settled (prog i) [] := by
    rw [hi]
    exact records_effects_single hq
  exact (h.of_records (fun _ _ _ _ _ => trivial) hrec).2 _ he e rfl

end Stores

end MongoSgx
