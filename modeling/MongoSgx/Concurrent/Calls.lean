import MongoSgx.Interaction.Pool
import MongoSgx.Sequential.Calls

/-! # The operations among others

What each operation needs to keep a contract while other clients move the store
between its driver calls. Between two calls it only knows assertions that the
others keep up; a document it has read tells it about the past. Each lemma asks
the contract to allow the writes of the operation, and nothing else.
-/

namespace MongoSgx

open Bson Interaction

variable {β : Type} {P : Primitives β} {K : Contract (World β)} {α : Type}

def Held (P : Primitives β) (A : Vault β → Prop) (w : World β) : Prop :=
  ∃ V : Vault β, w = V.toWorld P ∧ A V

/-- An assertion about the vault behind the database that the others keep up. -/
structure Standing (P : Primitives β) (K : Contract (World β)) (A : Vault β → Prop) : Prop where
  stable : ∀ {V t}, A V → K.rely (V.toWorld P) t → Held P A t

variable {E : Env (Call β) Reply (World β)} {A : Vault β → Prop} {V : Vault β}
  {Q : Except Stop α → World β → Prop}

theorem Standing.held (hA : Standing P K A) {w t : World β} (h : Held P A w) (ht : K.rely w t) :
    Held P A t := by
  obtain ⟨V, rfl, hV⟩ := h
  exact hA.stable hV ht

theorem Standing.pre (hA : Standing P K A) {w : World β} (hw : Held P A w) {c : Call β}
    {Φ : Reply c → World β → Prop} (h : ∀ W r w', A W → E c (W.toWorld P) r w' →
      K.guar (W.toWorld P) w' ∧ Φ r w') : (K.rule E).pre c w Φ := by
  intro t ht r u hE
  obtain ⟨W, rfl, hW⟩ := hA.held hw ht
  exact h W r u hW hE

variable [DecidableEq β] {count : ℤ → Scalar} {u g : List β}

def HonestAnswers (count : ℤ → Scalar) (E : Env (Call β) Reply (World β)) : Prop :=
  ∀ c w r w', E c w r w' → Honest count c w r w'

theorem honestAnswers_self : HonestAnswers count (Honest count : Env (Call β) Reply (World β)) :=
  fun _ _ _ _ h => h

theorem quiet_of_stable (hE : HonestAnswers count E) {φ : World β → Prop}
    (h : ∀ s t, φ s → K.rely s t → φ t) : (K.rule E).Quiet Call.Silent φ := by
  intro c s hc hs t ht r u hr
  obtain rfl := honest_silent hc (hE _ _ _ _ hr)
  exact ⟨K.guar_refl _, h _ _ hs ht⟩

theorem Standing.quiet (hA : Standing P K A) (hE : HonestAnswers count E) :
    (K.rule E).Quiet Call.Silent (Held P A) := quiet_of_stable hE fun _ _ => hA.held

theorem quiet_true (hE : HonestAnswers count E) :
    (K.rule E).Quiet Call.Silent fun _ => True := quiet_of_stable hE fun _ _ _ _ => trivial

section Records

def RecordSeen (P : Primitives β) (u : List β) (B : List β → Vault β → Prop) (d : Doc β)
    (cur : Cursor β) (w : World β) : Prop :=
  cur.error = none ∧ ∃ a : Account β, (a.user = u ∧ d = a.toDoc P) ∧ Held P (B a.key) w

theorem recordSteps_among (hP : P.Ideal) (hE : HonestAnswers count E)
    {B : List β → Vault β → Prop} (hA : Standing P K A) (hB : ∀ key, Standing P K (B key))
    (hAB : ∀ V key, A V → V.HasAccount u key → B key V) :
    RecordSteps (K.rule E) P u (Held P A) (RecordSeen P u B)
      (fun _ _ => ∃ W, A W ∧ u ∉ W.accounts.keys) where
  quiet_start := hA.quiet hE
  quiet_read _ _ := .and (.exists fun a => .and ((hB a.key).quiet hE))
  find := by
    rintro w hw
    refine hA.pre hw ?_
    rintro W ⟨d, cur⟩ w' hW h
    obtain ⟨rfl, herr, ⟨a, ha, rfl, rfl⟩ | ⟨hu, rfl⟩⟩ := honest_findAccount hP (hE _ _ _ _ h)
    · exact ⟨K.guar_refl _, herr, a, ⟨rfl, rfl⟩, W, rfl, hAB W _ hW ⟨a, ha, rfl, rfl⟩⟩
    · exact ⟨K.guar_refl _, W, hW, hu⟩
  stop := by
    rintro _ cur _ e ⟨herr, a, ⟨-, rfl⟩, -⟩ he
    exact absurd he (not_recordStop_toDoc hP herr)

theorem ends_withKey (hP : P.Ideal) (hE : HonestAnswers count E)
    {B : List β → Vault β → Prop} (hA : Standing P K A) (hB : ∀ key, Standing P K (B key))
    (hAB : ∀ V key, A V → V.HasAccount u key → B key V) {f : List β → Enclave β α}
    (hf : ∀ key iv w, Held P (B key) w →
      (K.rule E).Ends (fun _ _ => True) (f (P.encryptAesgcm iv key)) w) (hV : A V) :
    (K.rule E).Ends (fun _ _ => True) ((reencryptUserKey P u).bind f) (V.toWorld P) := by
  refine ((recordSteps_among hP hE hA hB hAB).ends ⟨V, rfl, hV⟩).bind ?_ fun _ _ _ => trivial
  rintro _ w ⟨d, cur, key, iv, ⟨-, a, ⟨-, rfl⟩, hB'⟩, hkey, rfl⟩
  obtain rfl := Option.some.inj ((recordKey_toDoc hP a).symm.trans hkey)
  exact hf a.key iv w hB'

end Records

section Edits

/-- The contract lets the call make a change of the group named `g` under the assertion `A`, with
a signature predicted from a group of that name as it was read. -/
structure Edits (P : Primitives β) (K : Contract (World β)) (A : Vault β → Prop) (g : List β)
    (c : Change β) (Seen : Group β → Prop) : Prop where
  standing : Standing P K A
  seen : ∀ V G, A V → G ∈ V.groups → Seen G
  write : ∀ V G H, A V → Seen G → H ∈ V.groups → G.name = g → H.name = g → c.Applies H →
    H.signature = G.signature →
    K.guar (V.toWorld P) ((V.modify g c (G.nextSignature P c)).toWorld P) ∧
      A (V.modify g c (G.nextSignature P c))

variable {c : Change β} {Seen : Group β → Prop}

def GroupSeen (P : Primitives β) (A : Vault β → Prop) (g : List β) (c : Change β)
    (Seen : Group β → Prop) (d : Doc β) (w : World β) : Prop :=
  ∃ G : Group β, (Seen G ∧ G.name = g ∧ c.Applies G ∧ d = G.toDoc P) ∧ Held P A w

theorem Edits.steps (hP : P.Ideal) (hE : HonestAnswers count E) (hc : Edits P K A g c Seen) :
    EditSteps (K.rule E) P (c.groupEdit P g) (fun _ => Held P A)
      (fun _ => GroupSeen P A g c Seen) (fun _ _ => True) where
  quiet_start _ := hc.standing.quiet hE
  quiet_read _ _ := .exists fun _ => .and (hc.standing.quiet hE)
  quiet_done _ := quiet_true hE
  find := by
    rintro _ w hw
    refine hc.standing.pre hw ?_
    rintro W ⟨d, cur⟩ w' hW h
    obtain ⟨rfl, ⟨G, hG, hg, happ, rfl⟩ | ⟨-, rfl⟩⟩ := honest_findEdit hP (hE _ _ _ _ h)
    · exact ⟨K.guar_refl _, G, ⟨hc.seen W G hW hG, hg, happ, rfl⟩, W, rfl, hW⟩
    · exact ⟨K.guar_refl _, trivial⟩
  stop _ _ _ _ _ _ := trivial
  send := by
    rintro _ _ w sel upd ⟨G, ⟨hseen, rfl, happ, rfl⟩, hw⟩ hedit
    refine hc.standing.pre hw ?_
    intro W r w' hW h
    rcases honest_editOf hP happ hedit (hE _ _ _ _ h) with
      ⟨rfl, rfl, -⟩ | ⟨rfl, rfl, H, hH, hn, ha, hs⟩
    · exact ⟨K.guar_refl _, answered_updateReply trivial ⟨W, rfl, hW⟩⟩
    · obtain ⟨hguar, hW'⟩ := hc.write W G H hW hseen hH rfl hn ha hs
      exact ⟨hguar, answered_updateReply trivial ⟨_, rfl, hW'⟩⟩
  exhausted _ _ := trivial

theorem ends_addKey (hP : P.Ideal) (hE : HonestAnswers count E) {key iv : List β}
    (hc : Edits P K A g (.join ⟨u, key, iv⟩) Seen) {w : World β} (hw : Held P A w) :
    (K.rule E).Ends (fun _ _ => True) (addUserToGroupWithKey P g u (P.encryptAesgcm iv key)) w :=
  (hc.steps hP hE).ends hw

end Edits

theorem safe_createGroup (hP : P.Ideal) (hE : HonestAnswers count E)
    {B : List β → Vault β → Prop} {Seen : Group β → Prop} (hA : Standing P K A)
    (hAB : ∀ V key, A V → V.HasAccount u key → B key V)
    (hfound : ∀ V iv m, m.user = u → B m.key V → g ∉ V.groups.keys →
      K.guar (V.toWorld P) ((V.establish P g iv m).toWorld P))
    (hedit : ∀ m, m.user = u → Edits P K (B m.key) g (.join m) Seen) (hV : A V) :
    Safe E K (fun _ _ => True) (createGroup P g u) (V.toWorld P) := by
  have hB : ∀ key, Standing P K (B key) := fun key => (hedit ⟨u, key, []⟩ rfl).standing
  rw [createGroup_eq]
  refine (ends_withKey hP hE hA hB hAB (fun key iv w hw => ?_) hV).safe fun _ _ _ _ _ => trivial
  have hc := hedit ⟨u, key, iv⟩ rfl
  refine ends_createGroupWithKey ((hB key).quiet hE) ((hB key).quiet hE) (fun _ => quiet_true hE)
    (fun iv' w hw => (hB key).pre hw ?_) (fun w hw => ends_addKey hP hE hc hw) hw
  intro W r w' hW h
  rcases honest_insertNewGroup (m := ⟨u, key, iv⟩) hP (hE _ _ _ _ h) with
    ⟨-, rfl, e, he, rfl⟩ | ⟨hg, rfl, rfl⟩
  · rw [Inserted, if_pos he]
    exact ⟨K.guar_refl _, W, rfl, hW⟩
  · exact ⟨hfound W iv' ⟨u, key, iv⟩ rfl hW hg, trivial⟩

theorem safe_addUserToGroup (hP : P.Ideal) (hE : HonestAnswers count E)
    {B : List β → Vault β → Prop} {Seen : Group β → Prop} (hA : Standing P K A)
    (hAB : ∀ V key, A V → V.HasAccount u key → B key V)
    (hedit : ∀ m, m.user = u → Edits P K (B m.key) g (.join m) Seen) (hV : A V) :
    Safe E K (fun _ _ => True) (addUserToGroup P g u) (V.toWorld P) := by
  have hB : ∀ key, Standing P K (B key) := fun key => (hedit ⟨u, key, []⟩ rfl).standing
  refine (ends_withKey hP hE hA hB hAB (fun key iv w hw => ?_) hV).safe fun _ _ _ _ _ => trivial
  exact ends_addKey hP hE (hedit ⟨u, key, iv⟩ rfl) hw

theorem safe_removeUserFromGroup (hP : P.Ideal) (hE : HonestAnswers count E)
    {Seen : Group β → Prop} (hedit : Edits P K A g (.leave u) Seen) (hV : A V) :
    Safe E K (fun _ _ => True) (removeUserFromGroup P g u) (V.toWorld P) :=
  ((hedit.steps hP hE).ends (n := 10) ⟨V, rfl, hV⟩).safe fun _ _ _ _ _ => trivial

theorem safe_createUser (hP : P.Ideal) (hE : HonestAnswers count E) {key : List β}
    (hA : Standing P K A)
    (hregister : ∀ V iv, A V → u ∉ V.accounts.keys →
      K.guar (V.toWorld P) ((V.register u key iv).toWorld P)) (hV : A V) :
    Safe E K (fun _ _ => True) (createUser P u key) (V.toWorld P) := by
  refine (ends_createUser (D := fun _ _ => True) (hA.quiet hE) (fun _ => quiet_true hE)
    (fun iv w hw => hA.pre hw ?_) ⟨V, rfl, hV⟩).safe fun _ _ _ _ _ => trivial
  intro W r w' hW h
  rcases honest_insertAccount hP (hE _ _ _ _ h) with ⟨-, rfl, -⟩ | ⟨hu, rfl, rfl⟩
  · exact ⟨K.guar_refl _, trivial⟩
  · exact ⟨hregister W iv hW hu, trivial⟩

theorem safe_deleteAllData (hE : HonestAnswers count E) (hA : Standing P K A)
    (hsub : ∀ V as gs has hgs, A V → K.guar (V.toWorld P) ((V.sub as gs has hgs).toWorld P) ∧
      A (V.sub as gs has hgs)) (hV : A V) :
    Safe E K (fun _ _ => True) deleteAllData (V.toWorld P) := by
  have hdelete : ∀ coll (next : World β → Prop), (∀ w, Held P A w → next w) → ∀ todo w,
      Held P A w → (K.rule E).pre (.deleteNext coll [] todo) w
        (Deleted (Held P A) next fun _ _ => True) := by
    intro coll next hnext todo w hw
    refine hA.pre hw ?_
    intro W r w' hW h
    obtain ⟨as, gs, has, hgs, rfl⟩ := honest_deleteNext (hE _ _ _ _ h)
    obtain ⟨hguar, hW'⟩ := hsub W as gs has hgs hW
    have hheld : Held P A ((W.sub as gs has hgs).toWorld P) := ⟨_, rfl, hW'⟩
    refine ⟨hguar, ?_⟩
    rcases r with e | _ | todo
    · simp only [Deleted]
      split
      · trivial
      · exact hnext _ hheld
    · exact hnext _ hheld
    · exact hheld
  have hsteps : ResetSteps (K.rule E) (Held P A) (Held P A) fun _ _ => True :=
    ⟨hA.quiet hE, quiet_true hE, hdelete .users _ fun _ hw => hw, hdelete .groups _ fun _ _ => trivial⟩
  exact hsteps.judged_deleteAllData sound_safe loops_safe
    (fun _ _ _ => safe_ofExcept_iff.mpr fun _ _ => trivial) ⟨V, rfl, hV⟩

/-- Another call can run to its end between the fetch of a key and what is done with it. -/
theorem exists_run_behind_key {ι : Type} [DecidableEq ι] (hP : P.Ideal)
    {prog : ι → Enclave β α} (cfg : Config ι (Call β) Reply Stop α (World β)) {i j : ι}
    {k : List β → Enclave β α} (hij : i ≠ j) (hk : prog i = (reencryptUserKey P u).bind k)
    (hi : cfg.status i = .idle) (hj : cfg.status j = .idle) (hw : cfg.world = V.toWorld P)
    (hu : u ∈ V.accounts.keys) {Q : Except Stop α → Except Stop α → World β → Prop}
    (h : ∀ a iv, a ∈ V.accounts → a.user = u → Wp (Honest count)
      (fun r w => Wp (Honest count) (Q r) (k (P.encryptAesgcm iv a.key)) w) (prog j)
      (V.toWorld P)) :
    ∃ evs cfg' r r', Run (Honest count) prog (fun _ _ => True) cfg evs cfg' ∧
      cfg'.status i = .finished r' ∧ cfg'.status j = .finished r ∧ Q r r' cfg'.world ∧
      Within i j evs := by
  obtain ⟨r, _, hkey, rfl, ⟨a, ha, hau, iv, rfl⟩ | ⟨hno, -⟩⟩ :=
    (wp_reencryptUserKey (u := u) (V := V) hP).exists_evals (honest_total count)
  · have hs := hkey.steps_bind k
    have hrest := h a iv ha hau
    rw [← hk, ← hw] at hs
    rw [← hw] at hrest
    exact hrest.exists_run_between cfg (honest_total count) hij hi hj hs
  · exact absurd hu hno

end MongoSgx
