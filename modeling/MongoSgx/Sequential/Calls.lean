import MongoSgx.Execution.Honest

/-! # The operations running alone

What each operation does when it runs alone on an honest store: it ends, with
the result and the vault that the specification names. Groups must be signed
correctly wherever the operation checks a signature.
-/

namespace MongoSgx

open Bson Interaction

variable {β : Type} [DecidableEq β]

variable {count : ℤ → Scalar} {P : Primitives β} {V : Vault β} {u g : List β}

theorem recordSteps_alone (hP : P.Ideal) : RecordSteps (Honest count).rule P u (· = V.toWorld P)
    (fun d cur w => w = V.toWorld P ∧ cur.error = none ∧
      ∃ a ∈ V.accounts, a.user = u ∧ d = a.toDoc P)
    (fun e w => w = V.toWorld P ∧ u ∉ V.accounts.keys ∧
      e = .thrown (bsonError "User does not exist" 539)) where
  quiet_start := quiet_honest
  quiet_read _ _ := quiet_honest
  find := by
    rintro _ rfl ⟨d, cur⟩ w h
    obtain ⟨rfl, herr, ⟨a, ha, hu, rfl⟩ | ⟨hu, rfl⟩⟩ := honest_findAccount hP h
    · exact ⟨rfl, herr, a, ha, hu, rfl⟩
    · exact ⟨rfl, hu, rfl⟩
  stop := by
    rintro _ cur _ e ⟨-, herr, a, -, -, rfl⟩ he
    exact absurd he (not_recordStop_toDoc hP herr)

theorem wp_reencryptUserKey (hP : P.Ideal) :
    Wp (Honest count) (fun r w => w = V.toWorld P ∧
      ((∃ a ∈ V.accounts, a.user = u ∧ ∃ iv, r = .ok (P.encryptAesgcm iv a.key)) ∨
        u ∉ V.accounts.keys ∧ r = .error (.thrown (bsonError "User does not exist" 539))))
      (reencryptUserKey P u) (V.toWorld P) := by
  apply ((recordSteps_alone hP).ends rfl).wp.mono
  rintro (e | c) w hr
  · obtain ⟨rfl, hu, rfl⟩ := hr
    exact ⟨rfl, .inr ⟨hu, rfl⟩⟩
  · obtain ⟨d, cur, key, iv, ⟨rfl, -, a, ha, hu, rfl⟩, hkey, rfl⟩ := hr
    obtain rfl := Option.some.inj ((recordKey_toDoc hP a).symm.trans hkey)
    exact ⟨rfl, .inl ⟨a, ha, hu, iv, rfl⟩⟩

/-- Two attempts are enough for a call that runs alone: when the number of matched documents
cannot be read, the second one finds the change made. Only a wrong signature stops it. -/
theorem editSteps_alone (hP : P.Ideal) (c : Change β) :
    EditSteps (Honest count).rule P (c.groupEdit P g)
      (fun n w => 2 ≤ n ∧ w = V.toWorld P ∨ 1 ≤ n ∧ w = (V.update P g c).toWorld P)
      (fun n d w => 1 ≤ n ∧ w = V.toWorld P ∧ ∃ G ∈ V.groups, G.name = g ∧ c.Applies G ∧
        d = G.toDoc P)
      (fun r w => (r = .ok () ∧ (w = (V.update P g c).toWorld P ∨
        (∀ G ∈ V.groups, G.name = g → ¬ c.Applies G) ∧ w = V.toWorld P)) ∨
      ((∃ e, r = .error e) ∧ ∃ G ∈ V.groups, ¬ G.Signed P)) where
  quiet_start _ := quiet_honest
  quiet_read _ _ := quiet_honest
  quiet_done _ := quiet_honest
  find := by
    rintro n w (⟨hn, rfl⟩ | ⟨hn, rfl⟩) ⟨d, cur⟩ w h
    · obtain ⟨rfl, ⟨G, hG, hg, hc, rfl⟩ | ⟨hno, rfl⟩⟩ := honest_findEdit hP h
      · exact ⟨Nat.le_of_succ_le_succ hn, rfl, G, hG, hg, hc, rfl⟩
      · exact .inl ⟨rfl, .inr ⟨hno, rfl⟩⟩
    · obtain ⟨rfl, ⟨G, hG, hg, hc, rfl⟩ | ⟨-, rfl⟩⟩ := honest_findEdit hP h
      · exact absurd hc (Vault.not_applies_update hG hg)
      · exact .inl ⟨rfl, .inl rfl⟩
  stop := by
    rintro n _ _ e ⟨-, rfl, G, hG, rfl, hc, rfl⟩ he
    exact .inr ⟨⟨e, rfl⟩, G, hG, fun hS => not_editStop_toDoc hP hS hc he⟩
  send := by
    rintro n _ _ sel upd ⟨hn, rfl, G, hG, rfl, hc, rfl⟩ hedit r w h
    rcases honest_editOf hP hc hedit h with ⟨-, -, hno⟩ | ⟨rfl, rfl, -⟩
    · exact absurd rfl (hno G hG rfl hc)
    · rw [Vault.modify_eq_update hG]
      exact answered_updateReply (.inl ⟨rfl, .inl rfl⟩) (.inr ⟨hn, rfl⟩)
  exhausted := by
    rintro w (⟨hn, -⟩ | ⟨hn, -⟩) <;> omega

theorem wp_editAttempts_any (hP : P.Ideal) (c : Change β) (n : ℕ) :
    Wp (Honest count) (fun r w =>
      (r = .ok () ∧ (w = (V.update P g c).toWorld P ∨
        (∀ G ∈ V.groups, G.name = g → ¬ c.Applies G) ∧ w = V.toWorld P)) ∨
      ((∃ e, r = .error e) ∧ ∃ G ∈ V.groups, ¬ G.Signed P))
      (editAttempts P (c.groupEdit P g) (n + 2)) (V.toWorld P) :=
  ((editSteps_alone hP c).ends (.inl ⟨Nat.le_add_left 2 n, rfl⟩)).wp

theorem ends_editAttempts (hP : P.Ideal) (hS : V.Signed P) (c : Change β) (n : ℕ) :
    (Honest count).rule.Ends (fun r w => r = .ok () ∧ w = (V.update P g c).toWorld P)
      (editAttempts P (c.groupEdit P g) (n + 2)) (V.toWorld P) := by
  apply ((editSteps_alone hP c).ends (.inl ⟨Nat.le_add_left 2 n, rfl⟩)).mono
  rintro r w (⟨rfl, rfl | ⟨hno, rfl⟩⟩ | ⟨-, G, hG, hn⟩)
  · exact ⟨rfl, rfl⟩
  · exact ⟨rfl, by rw [Vault.update_eq_self hS hno]⟩
  · exact absurd (hS G hG) hn

theorem wp_editAttempts (hP : P.Ideal) (hS : V.Signed P) (c : Change β) (n : ℕ) :
    Wp (Honest count) (fun r w => r = .ok () ∧ w = (V.update P g c).toWorld P)
      (editAttempts P (c.groupEdit P g) (n + 2)) (V.toWorld P) :=
  (ends_editAttempts hP hS c n).wp

theorem wp_addUserToGroupWithKey (hP : P.Ideal) (hS : V.Signed P) (m : Member β) :
    Wp (Honest count) (fun r w => r = .ok () ∧ w = (V.update P g (.join m)).toWorld P)
      (addUserToGroupWithKey P g m.user (P.encryptAesgcm m.iv m.key)) (V.toWorld P) :=
  wp_editAttempts hP hS (.join m) 8

theorem wp_removeUserFromGroup (hP : P.Ideal) (hS : V.Signed P) :
    Wp (Honest count) (fun r w => r = .ok () ∧ w = (V.update P g (.leave u)).toWorld P)
      (removeUserFromGroup P g u) (V.toWorld P) :=
  wp_editAttempts hP hS (.leave u) 8

theorem wp_addUserToGroup (hP : P.Ideal) (hS : V.Signed P) :
    Wp (Honest count) (fun r w =>
      (∃ a ∈ V.accounts, a.user = u ∧ ∃ iv, r = .ok () ∧
        w = (V.update P g (.join ⟨u, a.key, iv⟩)).toWorld P) ∨
      (u ∉ V.accounts.keys ∧ (∃ e, r = .error e) ∧ w = V.toWorld P))
      (addUserToGroup P g u) (V.toWorld P) := by
  apply Wp.bind
  apply (wp_reencryptUserKey hP).mono
  rintro r _ ⟨rfl, ⟨a, ha, hu, iv, rfl⟩ | ⟨hu, rfl⟩⟩
  · apply (wp_addUserToGroupWithKey hP hS ⟨u, a.key, iv⟩).mono
    rintro r w ⟨rfl, rfl⟩
    exact .inl ⟨a, ha, hu, iv, rfl, rfl⟩
  · exact .inr ⟨hu, ⟨_, rfl⟩, rfl⟩

theorem wp_createUser (hP : P.Ideal) (key : List β) :
    Wp (Honest count) (fun r w =>
      (u ∉ V.accounts.keys ∧ r = .ok () ∧ ∃ iv, w = (V.register u key iv).toWorld P) ∨
      (u ∈ V.accounts.keys ∧ (∃ e, r = .error (.thrown e) ∧ e.code = mongocErrorDuplicateKey) ∧
        w = V.toWorld P))
      (createUser P u key) (V.toWorld P) := by
  refine (ends_createUser (A := (· = V.toWorld P)) quiet_honest (fun _ => quiet_honest) ?_ rfl).wp
  rintro iv _ rfl r w h
  rcases honest_insertAccount hP h with ⟨hu, rfl, e, he, rfl⟩ | ⟨hu, rfl, rfl⟩
  · have hcode : e.code ≠ 0 := by rw [he]; decide
    rw [statusEnd, if_pos hcode]
    exact .inr ⟨hu, ⟨e, rfl, he⟩, rfl⟩
  · exact .inl ⟨hu, rfl, iv, rfl⟩

theorem wp_isUserPartOfGroup (hP : P.Ideal) :
    Wp (Honest count) (fun r w => w = V.toWorld P ∧
      ∃ b, r = .ok b ∧ (b = true ↔ ∃ G ∈ V.groups, G.name = g ∧ u ∈ G.users))
      (isUserPartOfGroup P g u) (V.toWorld P) := by
  refine (ends_isUserPartOfGroup (A := (· = V.toWorld P)) (B := fun x w => w = V.toWorld P ∧
    x.2.error = none ∧ (x.1.isSome = true ↔ ∃ G ∈ V.groups, G.name = g ∧ u ∈ G.users))
    quiet_honest (fun _ => quiet_honest) ?_ ?_ ?_ rfl).wp
  · rintro _ rfl x w h
    exact honest_findMember hP h
  · rintro x e w ⟨-, herr, -⟩ he
    cases herr.symm.trans he
  · rintro x w ⟨rfl, -, hmem⟩ -
    exact ⟨rfl, _, rfl, hmem⟩

theorem wp_createGroupWithKey (hP : P.Ideal) (hS : V.Signed P) (m : Member β) :
    Wp (Honest count) (fun r w => r = .ok () ∧
      ((g ∈ V.groups.keys ∧ w = (V.update P g (.join m)).toWorld P) ∨
        (g ∉ V.groups.keys ∧ ∃ iv, w = (V.establish P g iv m).toWorld P)))
      (createGroupWithKey P g m.user (P.encryptAesgcm m.iv m.key)) (V.toWorld P) := by
  refine (ends_createGroupWithKey (A := (· = V.toWorld P))
    (F := fun w => g ∈ V.groups.keys ∧ w = V.toWorld P) quiet_honest quiet_honest
    (fun _ => quiet_honest) ?_ ?_ rfl).wp
  · rintro iv _ rfl r w h
    rcases honest_insertNewGroup hP h with ⟨hg, rfl, e, he, rfl⟩ | ⟨hg, rfl, rfl⟩
    · rw [Inserted, if_pos he]
      exact ⟨hg, rfl⟩
    · exact ⟨rfl, .inr ⟨hg, iv, rfl⟩⟩
  · rintro _ ⟨hg, rfl⟩
    apply (ends_editAttempts hP hS (.join m) 8).mono
    rintro r w ⟨rfl, rfl⟩
    exact ⟨rfl, .inl ⟨hg, rfl⟩⟩

theorem wp_createGroup (hP : P.Ideal) (hS : V.Signed P) :
    Wp (Honest count) (fun r w =>
      (∃ a ∈ V.accounts, a.user = u ∧ r = .ok () ∧ ∃ iv,
        (g ∈ V.groups.keys ∧ w = (V.update P g (.join ⟨u, a.key, iv⟩)).toWorld P) ∨
        (g ∉ V.groups.keys ∧ ∃ iv', w = (V.establish P g iv' ⟨u, a.key, iv⟩).toWorld P)) ∨
      (u ∉ V.accounts.keys ∧ (∃ e, r = .error e) ∧ w = V.toWorld P))
      (createGroup P g u) (V.toWorld P) := by
  rw [createGroup_eq]
  apply Wp.bind
  apply (wp_reencryptUserKey hP).mono
  rintro r _ ⟨rfl, ⟨a, ha, hu, iv, rfl⟩ | ⟨hu, rfl⟩⟩
  · apply (wp_createGroupWithKey hP hS ⟨u, a.key, iv⟩).mono
    rintro r w ⟨rfl, h⟩
    exact .inl ⟨a, ha, hu, rfl, iv, h⟩
  · exact .inr ⟨hu, ⟨_, rfl⟩, rfl⟩

section Keys

theorem keysSteps_alone (hP : P.Ideal) : KeysSteps (Honest count).rule P g (· = V.toWorld P)
    (fun d w => w = V.toWorld P ∧ ∃ G ∈ V.groups, G.name = g ∧ d = G.toDoc P)
    (fun r w => w = V.toWorld P ∧
      ((∃ G ∈ V.groups, G.name = g ∧ (match r with
        | .ok ks => KeysOf P (G.toDoc P) ks
        | .error e => KeysStop P (G.toDoc P) e)) ∨
      g ∉ V.groups.keys ∧ r = .error (.thrown (bsonError "No matching group to validate" 487)))) where
  quiet_start := quiet_honest
  quiet_read _ := quiet_honest
  quiet_done _ := quiet_honest
  find := by
    rintro _ rfl ⟨d, cur⟩ w h
    obtain ⟨rfl, ⟨G, hG, hg, rfl⟩ | ⟨hg, rfl⟩⟩ := honest_findKeys hP h
    · exact ⟨rfl, G, hG, hg, rfl⟩
    · exact ⟨rfl, .inr ⟨hg, rfl⟩⟩
  stop := by
    rintro _ _ e ⟨rfl, G, hG, hg, rfl⟩ he
    exact ⟨rfl, .inl ⟨G, hG, hg, he⟩⟩
  done := by
    rintro _ _ ks ⟨rfl, G, hG, hg, rfl⟩ hks
    exact ⟨rfl, .inl ⟨G, hG, hg, hks⟩⟩

theorem wp_getKeysOfGroup (hP : P.Ideal) {G : Group β} (hG : G ∈ V.groups) (hS : G.Signed P)
    (hK : G.KeySized) :
    Wp (Honest count) (fun r w => w = V.toWorld P ∧
      ∃ ks, r = .ok ks ∧ ks.map List.Vector.toList = G.members.map Member.key)
      (getKeysOfGroup P G.name) (V.toWorld P) := by
  obtain ⟨ks, hks, hmap⟩ := keysHeld_toDoc hP hK
  have hof : KeysOf P (G.toDoc P) ks := ⟨by rw [validateGroupSignature_toDoc, decide_eq_true hS], hks⟩
  apply ((keysSteps_alone hP).ends rfl).wp.mono
  rintro r w ⟨rfl, ⟨H, hH, hn, hr⟩ | ⟨hg, -⟩⟩
  · obtain rfl := Keyed.eq_of_key_eq hH hG hn
    cases r with
    | error e => exact absurd hof (hr.not_keysOf ks)
    | ok ks' => exact ⟨rfl, ks, congrArg _ (Option.some.inj (hr.2.symm.trans hks)), hmap⟩
  · exact absurd (Keyed.mem_keys.mpr ⟨G, hG, rfl⟩) hg

theorem wp_getKeysOfGroup_missing (hP : P.Ideal) (hg : g ∉ V.groups.keys) :
    Wp (Honest count) (fun r w => w = V.toWorld P ∧
      r = .error (.thrown (bsonError "No matching group to validate" 487))) (getKeysOfGroup P g)
      (V.toWorld P) := by
  apply ((keysSteps_alone hP).ends rfl).wp.mono
  rintro r w ⟨rfl, ⟨G, hG, hn, -⟩ | ⟨-, rfl⟩⟩
  · exact absurd (Keyed.mem_keys.mpr ⟨G, hG, hn⟩) hg
  · exact ⟨rfl, rfl⟩

end Keys

end MongoSgx
