import MongoSgx.Execution.Rules
import MongoSgx.Interaction.Reach

/-! # Reads from an untrusted store

The store may answer a read with any document it likes. The readers check the
signature of what they get and nothing else, so each of them goes on exactly when
the signature is right. The name in the document is looked at by no reader; it is
the one asked for only if the store keeps to the selector that was sent.
-/

namespace MongoSgx

open Bson Interaction

variable {β : Type}

/-- A store that answers reads with the given documents, and everything else at will. -/
def Untrusted (answers : Collection → Doc β → Prop) : Env (Call β) Reply Unit
  | .cursorNext cursor, _, r, _ => ∀ d, r.1 = some d → answers cursor.collection d
  | _, _, _, _ => True

variable {P : Primitives β} {answers : Collection → Doc β → Prop}

section Keys

variable [DecidableEq β] {S : Type} {E : Env (Call β) Reply S} {g : List β} {ks : List (Key β)}
  {s t : S}

def keysCursor (P : Primitives β) (g : List β) : Cursor β :=
  findWithOpts .groups (nameSelector (hashName P g none)) none (some .secondaryPreferred)

omit [DecidableEq β] in
theorem Call.Silent.exists_reply {c : Call β} (hc : c.Silent) : Nonempty (Reply c) := by
  cases c <;> first | exact ⟨()⟩ | exact ⟨[]⟩ | exact hc.elim

variable (hE : ∀ c s r s', c.Silent → (E c s r s' ↔ s' = s))
include hE

omit [DecidableEq β] in
theorem quiet_rule {A : S → Prop} : E.rule.Quiet Call.Silent A :=
  fun c s hc ha r s' h => (hE c s r s' hc).mp h ▸ ha

omit [DecidableEq β] in
theorem quiet_choice {A : S → Prop} : E.choice.Quiet Call.Silent A := by
  intro c s hc ha
  obtain ⟨r⟩ := hc.exists_reply
  exact ⟨r, s, (hE c s r s hc).mpr rfl, ha⟩

theorem keysSteps_rule : KeysSteps E.rule P g (fun u => u = s)
    (fun d u => ∃ cur, E (.cursorNext (keysCursor P g)) s (some d, cur) u)
    (fun r u => ∀ ks, r = .ok ks → ∃ d cur,
      E (.cursorNext (keysCursor P g)) s (some d, cur) u ∧ KeysOf P d ks) where
  quiet_start := quiet_rule hE
  quiet_read _ := quiet_rule hE
  quiet_done _ := quiet_rule hE
  find := by
    rintro _ rfl ⟨_ | d, cur⟩ u hu
    · rintro ks ⟨⟩
    · exact ⟨cur, hu⟩
  stop := by rintro d u e - - ks ⟨⟩
  done := by
    rintro d u ks ⟨cur, hu⟩ hks _ ⟨⟩
    exact ⟨d, cur, hu, hks⟩

theorem keysSteps_choice {d : Doc β} {cur : Cursor β}
    (hd : E (.cursorNext (keysCursor P g)) s (some d, cur) t) (hks : KeysOf P d ks) :
    KeysSteps E.choice P g (fun u => u = s) (fun d' u => d' = d ∧ u = t)
      (fun r u => r = .ok ks ∧ u = t) where
  quiet_start := quiet_choice hE
  quiet_read _ := quiet_choice hE
  quiet_done _ := quiet_choice hE
  find := by
    rintro _ rfl
    exact ⟨_, _, hd, rfl, rfl⟩
  stop := by
    rintro _ _ e ⟨rfl, rfl⟩ he
    exact absurd hks (he.not_keysOf ks)
  done := by
    rintro _ _ ks' ⟨rfl, rfl⟩ hks'
    obtain rfl := Option.some.inj (hks.2.symm.trans hks'.2)
    exact ⟨rfl, rfl⟩

theorem evals_getKeysOfGroup_iff : (getKeysOfGroup P g).Evals E s (.ok ks) t ↔
    ∃ d cur, E (.cursorNext (keysCursor P g)) s (some d, cur) t ∧ KeysOf P d ks := by
  constructor
  · exact fun h => ((keysSteps_rule hE).ends rfl).wp.of_evals h ks rfl
  · rintro ⟨d, cur, hd, hks⟩
    exact ((keysSteps_choice hE hd hks).ends rfl).evals

end Keys

section Untrusted

variable [DecidableEq β] {g u : List β} {edit : GroupEdit β} {sel : Selector β} {upd : Update β}
  {n : ℕ}

omit [DecidableEq β] in
theorem untrusted_silent (c : Call β) (s : Unit) (r : Reply c) (s' : Unit) (hc : c.Silent) :
    Untrusted answers c s r s' ↔ s' = s := by
  cases c <;> first | exact ⟨fun _ => rfl, fun _ => trivial⟩ | cases hc

theorem evals_getKeysOfGroup {ks : List (Key β)} :
    (getKeysOfGroup P g).Evals (Untrusted answers) () (.ok ks) () ↔
      ∃ d, answers .groups d ∧ validateGroupSignature P d = some true ∧ keysHeld P d = some ks := by
  rw [evals_getKeysOfGroup_iff untrusted_silent]
  constructor
  · rintro ⟨d, cur, hd, h⟩
    exact ⟨d, hd d rfl, h⟩
  · rintro ⟨d, hd, h⟩
    refine ⟨d, keysCursor P g, ?_, h⟩
    rintro _ ⟨⟩
    exact hd

theorem recordSteps_untrusted : RecordSteps (Untrusted answers).rule P u (fun _ => True)
    (fun d _ _ => answers .users d) (fun _ _ => True) where
  quiet_start := quiet_rule untrusted_silent
  quiet_read _ _ := quiet_rule untrusted_silent
  find := by
    rintro _ - ⟨_ | d, cur⟩ _ hd
    · trivial
    · exact hd d rfl
  stop _ _ _ _ _ _ := trivial

theorem evals_reencryptUserKey {c : List β} :
    (reencryptUserKey P u).Evals (Untrusted answers) () (.ok c) () ↔
      ∃ d key iv, answers .users d ∧ recordKey P d = some key ∧ c = P.encryptAesgcm iv key := by
  constructor
  · intro h
    obtain ⟨d, cur, key, iv, hd, hkey, hc⟩ := (recordSteps_untrusted.ends trivial).wp.of_evals h
    exact ⟨d, key, iv, hd, hkey, hc⟩
  · -- the run is written out, since the vector that it draws is a given one
    rintro ⟨d, key, iv, hd, hk, rfl⟩
    simp only [recordKey, Option.bind_eq_bind, Option.bind_eq_some_iff] at hk
    obtain ⟨name, hn, c, hc, signature, hs, hk⟩ := hk
    split at hk
    · rename_i he
      simp only [reencryptUserKey, create, destroy, cursorNext, Prog.bind_eq, Prog.request_bind]
      iterate 5 refine Prog.evals_call_iff.mpr ⟨(), (), trivial, ?_⟩
      have hfind : Untrusted answers (.cursorNext (findWithOpts .users
          (nameSelector (hashName P u none)) none (some .primaryPreferred))) ()
          (some d, findWithOpts .users [] none none) () := by
        rintro _ ⟨⟩
        exact hd
      refine Prog.evals_call_iff.mpr ⟨_, (), hfind, ?_⟩
      simp only [throwCursorError_findWithOpts, Prog.pure_bind, hn, hc, hs, read_some, he,
        ↓reduceIte, decryptData, hk, encryptData, Prog.bind_eq, Prog.request_bind, Prog.call_bind,
        Prog.pure_eq]
      refine Prog.evals_call_iff.mpr ⟨iv, (), trivial, ?_⟩
      refine Prog.evals_call_iff.mpr ⟨(), (), trivial, ?_⟩
      exact .refl _ _
    · cases hk

def UpdatesOnly (φ : Selector β → Update β → Prop) (c : Call β) : Prop :=
  ∀ sel upd, c = .updateOne .groups sel upd → φ sel upd

variable {φ : Selector β → Update β → Prop}

omit [DecidableEq β] in
theorem updatesOnly_cursorNext {cur : Cursor β} : UpdatesOnly φ (.cursorNext cur) := by
  rintro sel upd ⟨⟩

omit [DecidableEq β] in
theorem quiet_sparing {A : Unit → Prop} :
    ((Untrusted answers).sparing (UpdatesOnly φ)).Quiet Call.Silent A := by
  refine fun c s hc ha => ⟨?_, quiet_rule untrusted_silent c s hc ha⟩
  rintro sel upd rfl
  exact hc.elim

theorem recordSteps_sparing : RecordSteps ((Untrusted answers).sparing (UpdatesOnly φ)) P u
    (fun _ => True) (fun d _ _ => answers .users d) (fun _ _ => True) where
  quiet_start := quiet_sparing
  quiet_read _ _ := quiet_sparing
  find t ht := ⟨updatesOnly_cursorNext, recordSteps_untrusted.find t ht⟩
  stop _ _ _ _ _ _ := trivial

theorem editSteps_sparing (h : ∀ d sel upd, answers .groups d → EditOf P edit d sel upd → φ sel upd) :
    EditSteps ((Untrusted answers).sparing (UpdatesOnly φ)) P edit (fun _ _ => True)
      (fun _ d _ => answers .groups d) (fun _ _ => True) where
  quiet_start _ := quiet_sparing
  quiet_read _ _ := quiet_sparing
  quiet_done _ := quiet_sparing
  find := by
    refine fun n t _ => ⟨updatesOnly_cursorNext, ?_⟩
    rintro ⟨_ | d, cur⟩ _ hd
    · trivial
    · exact hd d rfl
  stop _ _ _ _ _ _ := trivial
  send := by
    refine fun n d t sel upd hd hedit => ⟨?_, ?_⟩
    · rintro _ _ ⟨⟩
      exact h d sel upd hd hedit
    · rintro (e | reply) _ -
      · simp [Answered]
      · simp [Answered]
  exhausted _ _ := trivial

theorem editSteps_sending {d : Doc β} (hd : answers .groups d) (hedit : EditOf P edit d sel upd) :
    EditSteps ((Untrusted answers).sending (.updateOne .groups sel upd)) P edit (fun n _ => n ≠ 0)
      (fun _ d' _ => d' = d) (fun _ _ => False) where
  quiet_start _ c s hc ha := .inr (quiet_choice untrusted_silent c s hc ha)
  quiet_read _ _ c s hc ha := .inr (quiet_choice untrusted_silent c s hc ha)
  quiet_done _ _ _ _ h := h.elim
  find := by
    refine fun n t _ => .inr ⟨(some d, findWithOpts .groups [] none none), (), ?_, rfl⟩
    rintro _ ⟨⟩
    exact hd
  stop := by
    rintro n _ t e rfl he
    exact he.2 _ _ hedit
  send := by
    rintro n _ t sel' upd' rfl ⟨-, signature', newSignature', hσ', hs', rfl, rfl⟩
    obtain ⟨-, signature, newSignature, hσ, hs, rfl, rfl⟩ := hedit
    obtain rfl := Option.some.inj (hσ.symm.trans hσ')
    obtain rfl := Option.some.inj (hs.symm.trans hs')
    exact .inl rfl
  exhausted _ h := h rfl

theorem sends_editAttempts :
    (editAttempts P edit (n + 1)).Sends (Untrusted answers) () (.updateOne .groups sel upd) ↔
      ∃ d, answers .groups d ∧ EditOf P edit d sel upd := by
  constructor
  · intro h
    have hends : ((Untrusted answers).sparing (UpdatesOnly fun sel upd =>
        ∃ d, answers .groups d ∧ EditOf P edit d sel upd)).Ends
        (fun _ _ => True) (editAttempts P edit (n + 1)) () :=
      (editSteps_sparing fun d _ _ hd hedit => ⟨d, hd, hedit⟩).ends trivial
    exact hends.of_sends h _ _ rfl
  · rintro ⟨d, hd, hedit⟩
    exact ((editSteps_sending hd hedit).ends n.succ_ne_zero).sends

theorem sends_addUserToGroup :
    (addUserToGroup P g u).Sends (Untrusted answers) () (.updateOne .groups sel upd) ↔
      ∃ r key iv d, answers .users r ∧ recordKey P r = some key ∧ answers .groups d ∧
        EditOf P (addEdit P g u (P.encryptAesgcm iv key)) d sel upd := by
  constructor
  · intro h
    have hends : ((Untrusted answers).sparing (UpdatesOnly fun sel upd => ∃ r key iv d,
        answers .users r ∧ recordKey P r = some key ∧ answers .groups d ∧
        EditOf P (addEdit P g u (P.encryptAesgcm iv key)) d sel upd)).Ends
        (fun _ _ => True) (addUserToGroup P g u) () := by
      refine recordSteps_sparing.ends_bind (fun r cur key iv t hr hkey => ?_) trivial
      exact (editSteps_sparing fun d _ _ hd hedit => ⟨r, key, iv, d, hr, hkey, hd, hedit⟩).ends trivial
    exact hends.of_sends h _ _ rfl
  · rintro ⟨r, key, iv, d, hr, hk, hd, he⟩
    exact Prog.sends_bind_iff.mpr (.inr ⟨_, (), evals_reencryptUserKey.mpr ⟨r, key, iv, hr, hk, rfl⟩,
      sends_editAttempts.mpr ⟨d, hd, he⟩⟩)

omit [DecidableEq β] in
theorem matches_nameSelector_iff {hashed : Hashed β} {name : List β} {d : Doc β}
    (hd : Doc.get? d "name" = some (.binary name)) :
    (nameSelector hashed).Matches d ↔ name = hashed.toList := by
  have hres : (Value.document d).resolve ["name"] = [.binary name] := by
    simp [Value.resolve, Value.field, hd, Value.leaves]
  simp [nameSelector, hres, eq_comm]

/-- The readers go on with exactly the documents that have a right signature, whatever name they
carry. It is the name asked for in the documents that the selector matches. -/
theorem untrusted_readers (P : Primitives β) (answers : Collection → Doc β → Prop)
    (g u : List β) :
    (∀ ks, (getKeysOfGroup P g).Evals (Untrusted answers) () (.ok ks) () ↔
      ∃ d, answers .groups d ∧ validateGroupSignature P d = some true ∧ keysHeld P d = some ks) ∧
    (∀ c, (reencryptUserKey P u).Evals (Untrusted answers) () (.ok c) () ↔
      ∃ d key iv, answers .users d ∧ recordKey P d = some key ∧ c = P.encryptAesgcm iv key) ∧
    (∀ sel upd, (removeUserFromGroup P g u).Sends (Untrusted answers) ()
        (.updateOne .groups sel upd) ↔
      ∃ d, answers .groups d ∧ EditOf P (removeEdit P g u) d sel upd) ∧
    (∀ sel upd, (addUserToGroup P g u).Sends (Untrusted answers) ()
        (.updateOne .groups sel upd) ↔
      ∃ r key iv d, answers .users r ∧ recordKey P r = some key ∧ answers .groups d ∧
        EditOf P (addEdit P g u (P.encryptAesgcm iv key)) d sel upd) ∧
    (∀ d name, Doc.get? d "name" = some (.binary name) →
      ((nameSelector (hashName P g none)).Matches d ↔ name = (hashName P g none).toList) ∧
      ((nameSelector (hashName P u none)).Matches d ↔ name = (hashName P u none).toList) ∧
      ((removeEdit P g u).selector.Matches d → name = (hashName P g none).toList) ∧
      (∀ c, (addEdit P g u c).selector.Matches d → name = (hashName P g none).toList)) := by
  refine ⟨fun ks => evals_getKeysOfGroup, fun c => evals_reencryptUserKey,
    fun sel upd => sends_editAttempts, fun sel upd => sends_addUserToGroup, fun d name hd => ?_⟩
  refine ⟨matches_nameSelector_iff hd, matches_nameSelector_iff hd, fun h => ?_, fun c h => ?_⟩
  · exact (matches_nameSelector_iff hd).mp ((Selector.matches_append _ _ _).mp h).1
  · exact (matches_nameSelector_iff hd).mp ((Selector.matches_append _ _ _).mp h).1

end Untrusted

section Genuine

variable [DecidableEq β]

/-- For the group `[5]` and the user `[1]`, the readers accept the signed document of the group
`[6]` and the record of the user `[2]`. -/
theorem foreign_documents_pass : ∃ (G : Group ℕ) (r : Account ℕ),
    G.Signed Primitives.nat ∧ Doc.get? (G.toDoc Primitives.nat) "name" ≠
      some (.binary (hashName Primitives.nat [5] none).toList) ∧
    Doc.get? (r.toDoc Primitives.nat) "name" ≠
      some (.binary (hashName Primitives.nat [1] none).toList) ∧
    ∃ E : Env (Call ℕ) Reply Unit, E = Untrusted (fun
      | .groups, d => d = G.toDoc Primitives.nat
      | .users, d => d = r.toDoc Primitives.nat) ∧
    (∃ ks, (getKeysOfGroup Primitives.nat [5]).Evals E () (.ok ks) () ∧
      ks.map List.Vector.toList = G.members.map Member.key) ∧
    (∃ c, (reencryptUserKey Primitives.nat [1]).Evals E () (.ok c) () ∧
      Primitives.nat.decryptAesgcm c = some r.key) ∧
    (∃ sel upd, (removeUserFromGroup Primitives.nat [5] [1]).Sends E ()
      (.updateOne .groups sel upd)) ∧
    ∃ sel upd, (addUserToGroup Primitives.nat [5] [1]).Sends E ()
      (.updateOne .groups sel upd) := by
  have hP := Primitives.nat_ideal
  let G : Group ℕ := ⟨0, [6], [], [⟨[2], List.replicate keySize 7, []⟩], List.nodup_singleton _,
    Vault.foundingSignature Primitives.nat [6] [] ⟨[2], List.replicate keySize 7, []⟩⟩
  have hG : G.Signed Primitives.nat := rfl
  have hK : G.KeySized := by
    intro m hm
    obtain rfl := List.mem_singleton.mp hm
    exact List.length_replicate
  obtain ⟨ks, hks, hmap⟩ := keysHeld_toDoc hP hK
  have hname : ∀ {x y : List ℕ}, x ≠ y → (some (.binary (hashName Primitives.nat x none).toList) :
      Option (Value ℕ)) ≠ some (.binary (hashName Primitives.nat y none).toList) := by
    intro x y hxy he
    refine hxy ((hashName_none_inj hP).mp (List.Vector.toList_injective ?_))
    exact Value.binary.inj (Option.some.inj he)
  refine ⟨G, ⟨1, [2], List.replicate keySize 7, []⟩, hG, hname (by decide), hname (by decide), _,
    rfl, ⟨ks, ?_, hmap⟩, ⟨_, ?_, hP.decrypt_encrypt [] _⟩, ?_, ?_⟩
  · have hvalid : validateGroupSignature Primitives.nat (G.toDoc Primitives.nat) = true := by
      rw [validateGroupSignature_toDoc, decide_eq_true hG]
    exact evals_getKeysOfGroup.mpr ⟨_, rfl, hvalid, hks⟩
  · exact evals_reencryptUserKey.mpr ⟨_, _, [], rfl, recordKey_toDoc hP _, rfl⟩
  · obtain ⟨sel, upd, h⟩ := exists_editOf_toDoc hG (removeEdit _ [5] [1]) exists_sign_toDoc
    exact ⟨sel, upd, sends_editAttempts.mpr ⟨_, rfl, h⟩⟩
  · obtain ⟨sel, upd, h⟩ := exists_editOf_toDoc hG (addEdit _ [5] [1]
      (Primitives.nat.encryptAesgcm [] (List.replicate keySize 7))) exists_sign_toDoc
    exact ⟨sel, upd, sends_addUserToGroup.mpr ⟨_, _, [], _, rfl, recordKey_toDoc hP _, rfl, h⟩⟩

end Genuine

end MongoSgx
