import Mathlib.Data.Finset.Option
import MongoSgx.Concurrent.Signed
import MongoSgx.Interaction.Linearization

/-! # No lost updates on a group

The calls on one group behave as if each took effect in one instant between its
invocation and its return. An addition or removal takes effect when its
conditional update finds the old signature, or when it reads a group that needs no
change; a call that gives up takes effect, as nothing, at its last failed update.
-/

namespace MongoSgx

open Bson Interaction

variable {β : Type} [DecidableEq β] {P : Primitives β} {V W : Vault β} {u g : List β}

section Members

def Vault.membersOf (g : List β) (V : Vault β) : Option (Finset (List β)) :=
  (V.groups.find g).map fun G => G.users.toFinset

def Change.act : Change β → Finset (List β) → Finset (List β)
  | .join m, us => insert m.user us
  | .leave u, us => us.erase u

theorem Vault.membersOf_eq_none : V.membersOf g = none ↔ g ∉ V.groups.keys := by
  unfold membersOf
  rw [Option.map_eq_none_iff, Keyed.find_eq_none_iff_keys]

theorem Vault.membersOf_eq_some {us : Finset (List β)} : V.membersOf g = some us ↔
    ∃ G ∈ V.groups, G.name = g ∧ G.users.toFinset = us := by
  simp only [membersOf, Option.map_eq_some_iff, Keyed.find_eq_some_iff, and_assoc]

theorem Group.users_change {G : Group β} {c : Change β} {s : Hashed β} :
    (G.change c s).users.toFinset = c.act G.users.toFinset := by
  cases c with
  | leave u =>
    ext v
    simp [users_leave, Change.act, and_comm]
  | join m =>
    rw [users_join, Change.act]
    ext v
    split <;> simp_all

theorem Vault.membersOf_modify {c : Change β} {s : Hashed β} :
    (V.modify g c s).membersOf g = (V.membersOf g).map c.act := by
  have hfind : (V.modify g c s).groups.find g = (V.groups.find g).map (Group.change c s) :=
    (Keyed.find_modify fun _ => Group.change_name).trans (if_pos rfl)
  unfold membersOf
  rw [hfind, Option.map_map, Option.map_map]
  congr 1
  funext G
  exact Group.users_change

theorem Vault.membersOf_idle {c : Change β} (h : ∀ G ∈ V.groups, G.name = g → ¬ c.Applies G) :
    (V.membersOf g).map c.act = V.membersOf g := by
  cases hm : V.membersOf g with
  | none => rfl
  | some us =>
    obtain ⟨G, hG, hg, rfl⟩ := membersOf_eq_some.mp hm
    have hno := h G hG hg
    rw [Option.map_some, Option.some.injEq]
    cases c with
    | join m => exact Finset.insert_eq_of_mem (by simpa [Change.Applies] using hno)
    | leave u => exact Finset.erase_eq_of_notMem (by simpa [Change.Applies] using hno)

theorem Vault.membersOf_establish {iv : List β} {m : Member β} (hg : g ∉ V.groups.keys) :
    (V.establish P g iv m).membersOf g = some {m.user} := by
  refine membersOf_eq_some.mpr ⟨_, (mem_groups_found hg).mpr (.inr rfl), rfl, ?_⟩
  simp [Group.users]

def GroupMembers (P : Primitives β) (g : List β) (w : World β) (a : Option (Finset (List β))) :
    Prop := ∃ V : Vault β, w = V.toWorld P ∧ V.membersOf g = a

theorem groupMembers_iff (hP : P.Ideal) {a : Option (Finset (List β))} :
    GroupMembers P g (V.toWorld P) a ↔ V.membersOf g = a := by
  have key : ∀ {V W : Vault β} {us}, V.toWorld P = W.toWorld P → V.membersOf g = some us →
      W.membersOf g = some us := by
    intro V W us he hV
    obtain ⟨G, hG, hg, rfl⟩ := Vault.membersOf_eq_some.mp hV
    have hd : G.toDoc P ∈ (W.toWorld P).groups := he ▸ List.mem_map_of_mem hG
    obtain ⟨H, hH, hHG⟩ := List.mem_map.mp hd
    obtain ⟨-, hname, hentries, -⟩ := Group.eq_of_toDoc_eq hP hHG
    refine Vault.membersOf_eq_some.mpr ⟨H, hH, hname.trans hg, ?_⟩
    rw [Group.users_eq_of_entries_eq hP hname hentries]
  constructor
  · rintro ⟨W, hW, rfl⟩
    cases hm : W.membersOf g with
    | some us => exact key hW.symm hm
    | none =>
      cases hV : V.membersOf g with
      | none => rfl
      | some us =>
        rw [key hW hV] at hm
        cases hm
  · exact fun h => ⟨V, rfl, h⟩

end Members

section Steady

variable {us : List β → Prop} {φ founded : Prop}

/-- A sound vault in which certain users have records. -/
structure Vault.Known (P : Primitives β) (us : List β → Prop) (V : Vault β) : Prop where
  sound : V.Sound P
  account : ∀ u, us u → u ∈ V.accounts.keys

def steady (P : Primitives β) (us : List β → Prop) (g : List β) : Frame (World β) where
  Keeps s t := (∃ V : Vault β, s = V.toWorld P ∧ V.Known P us) →
    (∃ V : Vault β, t = V.toWorld P ∧ V.Known P us) ∧
      (GroupMembers P g t none → GroupMembers P g s none)
  refl _ h := ⟨h, id⟩
  trans h h' hs := by
    obtain ⟨ht, hg⟩ := h hs
    obtain ⟨hu, hg'⟩ := h' ht
    exact ⟨hu, hg ∘ hg'⟩

/-- What a call knows between its steps: the frame, what it has learned of the key it holds, and
whether it has seen the group. -/
def Vault.Stays (P : Primitives β) (us : List β → Prop) (g : List β) (φ founded : Prop)
    (V : Vault β) : Prop := V.Known P us ∧ φ ∧ (founded → g ∈ V.groups.keys)

theorem keeps_steady (hP : P.Ideal) (hW : W.Known P us)
    (hg : g ∈ V.groups.keys → g ∈ W.groups.keys) :
    (steady P us g).Keeps (V.toWorld P) (W.toWorld P) := by
  refine fun _ => ⟨⟨W, rfl, hW⟩, fun h => ?_⟩
  rw [groupMembers_iff hP, Vault.membersOf_eq_none] at h ⊢
  exact mt hg h

theorem standing_steady (hP : P.Ideal) :
    Standing P (steady P us g).contract (Vault.Stays P us g φ founded) where
  stable := by
    rintro V t ⟨hV, hφ, hg⟩ ht
    obtain ⟨⟨W, rfl, hW⟩, hnone⟩ := ht ⟨V, rfl, hV⟩
    refine ⟨W, rfl, hW, hφ, fun hf => ?_⟩
    simp only [groupMembers_iff hP, Vault.membersOf_eq_none] at hnone
    exact not_not.mp fun hn => hnone hn (hg hf)

theorem edits_steady (hP : P.Ideal) (hL : P.LengthRegular) {c : Change β}
    (hk : φ → ∀ m, c = .join m → m.key.length = keySize) :
    Edits P (steady P us g).contract (Vault.Stays P us g φ founded) g c (Group.Sound P) where
  standing := standing_steady hP
  seen V G hV hG := hV.1.sound.group hG
  write := by
    rintro V G H ⟨hV, hφ, hg⟩ hG hH hGg rfl hc hsig
    have hkeys : ∀ s, (V.modify H.name c s).groups.keys = V.groups.keys := fun s =>
      Keyed.keys_modify fun _ => Group.change_name
    have hW : (V.modify H.name c (G.nextSignature P c)).Known P us :=
      ⟨hV.sound.modify hP hL hG hH hGg hsig.symm (fun _ => Group.signature_change hc) (hk hφ),
        hV.account⟩
    exact ⟨keeps_steady hP hW (by rw [hkeys]; exact id), hW, hφ, by rwa [hkeys]⟩

end Steady

section Calls

variable {γ σ : Type} {F : Frame (World β)} {Rep : World β → σ → Prop}
  {effect : Except Stop γ → σ → σ} {promise : Except Stop γ → Prop} {A : Vault β → Prop}
  {x : World β × Option (Except Stop γ)}

def Before (P : Primitives β) (A : Vault β → Prop) (x : World β × Option (Except Stop γ)) : Prop :=
  x.2 = none ∧ Held P A x.1

theorem quiet_linear {φ : World β × Option (Except Stop γ) → Prop}
    (h : ∀ s t o, φ (s, o) → F.Keeps s t → φ (t, o)) :
    (linearRule (Honest .int64) F Rep effect promise).Quiet Call.Silent φ := by
  intro c x hc hx t ht r u hr
  obtain rfl := honest_silent hc hr
  exact .inl ⟨Contract.guar_refl _ _, h _ _ _ hx ht⟩

theorem quiet_fixed (r : Except Stop γ) :
    (linearRule (Honest .int64) F Rep effect promise).Quiet Call.Silent fun x => x.2 = some r :=
  quiet_linear fun _ _ _ h _ => h

theorem Standing.quiet_before (hA : Standing P F.contract A) :
    (linearRule (Honest .int64) F Rep effect promise).Quiet Call.Silent (Before P A) :=
  quiet_linear fun _ _ _ ⟨hnone, hw⟩ ht => ⟨hnone, hA.held hw ht⟩

theorem Standing.linear_pre (hA : Standing P F.contract A) (hx : Before P A x) {c : Call β}
    {Φ : Reply c → World β × Option (Except Stop γ) → Prop}
    (h : ∀ W r w, A W → Honest .int64 c (W.toWorld P) r w →
      ((Contract.around F Rep).guar (W.toWorld P) w ∧ Φ r (w, none)) ∨
      ∃ res, (promise res ∧ Commits F Rep (effect res) (W.toWorld P) w) ∧ Φ r (w, some res)) :
    (linearRule (Honest .int64) F Rep effect promise).pre c x Φ := by
  obtain ⟨w, o⟩ := x
  obtain ⟨rfl, hw⟩ := hx
  intro t ht r u hr
  obtain ⟨W, rfl, hW⟩ := hA.held hw ht
  rcases h W r u hW hr with hk | ⟨res, hres, hk⟩
  · exact .inl hk
  · exact .inr ⟨rfl, res, hres.1, hres.2, hk⟩

/-- What the effect of a call has to be for its attempts at a change to have it. -/
structure Commitments (P : Primitives β) (F : Frame (World β)) (Rep : World β → σ → Prop)
    (effect : Except Stop Unit → σ → σ) (promise : Except Stop Unit → Prop) (A : Vault β → Prop)
    (g : List β) (c : Change β) : Prop where
  edits : Edits P F.contract A g c (Group.Sound P)
  made : ∀ (V : Vault β) (G H : Group β), A V → G.Sound P → H ∈ V.groups → G.name = g → H.name = g → c.Applies H →
    H.signature = G.signature → promise (.ok ()) ∧ Commits F Rep (effect (.ok ())) (V.toWorld P)
      ((V.modify g c (G.nextSignature P c)).toWorld P)
  idle : ∀ V : Vault β, A V → (∀ G ∈ V.groups, G.name = g → ¬ c.Applies G) →
    promise (.ok ()) ∧ Commits F Rep (effect (.ok ())) (V.toWorld P) (V.toWorld P)
  gaveUp : ∀ V : Vault β, A V → promise (.error (.thrown (c.groupEdit P g).exhausted)) ∧
    Commits F Rep (effect (.error (.thrown (c.groupEdit P g).exhausted))) (V.toWorld P)
      (V.toWorld P)

def AttemptsLeft (P : Primitives β) (A : Vault β → Prop) (edit : GroupEdit β) :
    ℕ → World β × Option (Except Stop Unit) → Prop
  | 0, x => x.2 = some (.error (.thrown edit.exhausted))
  | _ + 1, x => Before P A x

section Edits

variable {effect : Except Stop Unit → σ → σ} {promise : Except Stop Unit → Prop} {c : Change β}

/-- An attempt takes effect at the read that finds nothing to change or at the update that finds
the old signature. The last one takes effect, as nothing, when the update finds another one. -/
theorem Commitments.editSteps (hP : P.Ideal)
    (hc : Commitments P F Rep effect promise A g c) :
    EditSteps (linearRule (Honest .int64) F Rep effect promise) P (c.groupEdit P g)
      (AttemptsLeft P A (c.groupEdit P g))
      (fun _ d x => x.2 = none ∧ GroupSeen P A g c (Group.Sound P) d x.1)
      (fun r x => x.2 = some r) where
  quiet_start n := by
    cases n with
    | zero => exact quiet_fixed _
    | succ n => exact hc.edits.standing.quiet_before
  quiet_read _ _ := quiet_linear fun _ _ _ ⟨hnone, G, hG, hw⟩ ht =>
    ⟨hnone, G, hG, hc.edits.standing.held hw ht⟩
  quiet_done := quiet_fixed
  find := by
    rintro _ x hx
    refine hc.edits.standing.linear_pre hx ?_
    rintro W ⟨d, cur⟩ w hW h
    obtain ⟨rfl, ⟨G, hG, hg, happ, rfl⟩ | ⟨hno, rfl⟩⟩ := honest_findEdit hP h
    · exact .inl ⟨Contract.guar_refl _ _, rfl, G, ⟨hc.edits.seen W G hW hG, hg, happ, rfl⟩, W, rfl, hW⟩
    · exact .inr ⟨.ok (), hc.idle W hW hno, rfl⟩
  stop := by
    rintro _ _ _ e ⟨-, G, ⟨hG, rfl, happ, rfl⟩, -⟩ he
    exact absurd he (not_editStop_toDoc hP hG.signed happ)
  send := by
    rintro n _ x sel upd ⟨hnone, G, ⟨hG, rfl, happ, rfl⟩, hw⟩ hedit
    refine hc.edits.standing.linear_pre ⟨hnone, hw⟩ ?_
    intro W r w hW h
    rcases honest_editOf hP happ hedit h with ⟨rfl, rfl, -⟩ | ⟨rfl, rfl, H, hH, hn, ha, hs⟩
    · simp only [answered_int64_zero]
      cases n with
      | zero => exact .inr ⟨_, hc.gaveUp W hW, rfl⟩
      | succ n => exact .inl ⟨Contract.guar_refl _ _, rfl, W, rfl, hW⟩
    · simp only [answered_int64_one]
      exact .inr ⟨.ok (), hc.made W G H hW hG hH rfl hn ha hs, rfl⟩
  exhausted _ h := h

theorem Commitments.linear (hP : P.Ideal) (hc : Commitments P F Rep effect promise A g c) (n : ℕ)
    (hV : A V) : Linear (Honest .int64) F Rep effect promise
      (editAttempts P (c.groupEdit P g) (n + 1)) (V.toWorld P) :=
  ((hc.editSteps hP).ends (n := n + 1) ⟨rfl, V, rfl, hV⟩).linear

end Edits

/-- Looking a user up is neutral where it finds a record, and else it takes effect as an error. -/
theorem recordSteps_linear (hP : P.Ideal) {B : List β → Vault β → Prop}
    (hA : Standing P F.contract A) (hB : ∀ key, Standing P F.contract (B key))
    (hAB : ∀ V key, A V → V.HasAccount u key → B key V)
    (hno : ∀ V, A V → u ∉ V.accounts.keys →
      promise (.error (.thrown (bsonError "User does not exist" 539))) ∧
      Commits F Rep (effect (.error (.thrown (bsonError "User does not exist" 539))))
        (V.toWorld P) (V.toWorld P)) :
    RecordSteps (linearRule (Honest .int64) F Rep effect promise) P u (Before P A)
      (fun d cur x => x.2 = none ∧ RecordSeen P u B d cur x.1) (fun e x => x.2 = some (.error e)) where
  quiet_start := hA.quiet_before
  quiet_read _ _ := quiet_linear fun _ _ _ ⟨hnone, herr, a, ha, hw⟩ ht =>
    ⟨hnone, herr, a, ha, (hB a.key).held hw ht⟩
  find := by
    intro x hx
    refine hA.linear_pre hx ?_
    rintro W ⟨d, cur⟩ w hW h
    obtain ⟨rfl, herr, ⟨a, ha, rfl, rfl⟩ | ⟨hu, rfl⟩⟩ := honest_findAccount hP h
    · exact .inl ⟨Contract.guar_refl _ _, rfl, herr, a, ⟨rfl, rfl⟩, W, rfl, hAB W _ hW ⟨a, ha, rfl, rfl⟩⟩
    · exact .inr ⟨_, hno W hW hu, rfl⟩
  stop := by
    rintro _ cur _ e ⟨-, herr, a, ⟨-, rfl⟩, -⟩ he
    exact absurd he (not_recordStop_toDoc hP herr)

theorem ends_linear_withKey (hP : P.Ideal) {B : List β → Vault β → Prop}
    (hA : Standing P F.contract A) (hB : ∀ key, Standing P F.contract (B key))
    (hAB : ∀ V key, A V → V.HasAccount u key → B key V)
    (hno : ∀ V, A V → u ∉ V.accounts.keys →
      promise (.error (.thrown (bsonError "User does not exist" 539))) ∧
      Commits F Rep (effect (.error (.thrown (bsonError "User does not exist" 539))))
        (V.toWorld P) (V.toWorld P)) {k : List β → Enclave β γ}
    (hk : ∀ key iv x, Before P (B key) x →
      (linearRule (Honest .int64) F Rep effect promise).Ends (fun r x => x.2 = some r)
        (k (P.encryptAesgcm iv key)) x) (hV : A V) :
    Linear (Honest .int64) F Rep effect promise ((reencryptUserKey P u).bind k) (V.toWorld P) := by
  refine CallRule.Ends.linear ?_
  refine (recordSteps_linear hP hA hB hAB hno).ends_bind ?_ ⟨rfl, V, rfl, hV⟩
  rintro d cur key iv x ⟨hnone, -, a, ⟨-, rfl⟩, hw⟩ hkey
  obtain rfl := Option.some.inj ((recordKey_toDoc hP a).symm.trans hkey)
  exact hk a.key iv x ⟨hnone, hw⟩

section Founding

variable {effect : Except Stop Unit → σ → σ} {promise : Except Stop Unit → Prop} {key iv : List β}

/-- Creating a group takes effect at the insertion, or as an addition to the group that is
already there. -/
theorem ends_linear_createGroup (hP : P.Ideal) {B : Vault β → Prop} (hA : Standing P F.contract A)
    (hfound : ∀ V iv', A V → g ∉ V.groups.keys → promise (.ok ()) ∧
      Commits F Rep (effect (.ok ())) (V.toWorld P) ((V.establish P g iv' ⟨u, key, iv⟩).toWorld P))
    (hB : ∀ V, A V → g ∈ V.groups.keys → B V)
    (hc : Commitments P F Rep effect promise B g (.join ⟨u, key, iv⟩))
    {x : World β × Option (Except Stop Unit)} (hx : Before P A x) :
    (linearRule (Honest .int64) F Rep effect promise).Ends (fun r x => x.2 = some r)
      (createGroupWithKey P g u (P.encryptAesgcm iv key)) x := by
  refine ends_createGroupWithKey (A := Before P A) (F := Before P B) hA.quiet_before
    hc.edits.standing.quiet_before quiet_fixed (fun iv' x hx => hA.linear_pre hx ?_)
    (fun x hx => (hc.editSteps hP).ends hx) hx
  intro W r w hW h
  rcases honest_insertNewGroup (m := ⟨u, key, iv⟩) hP h with
    ⟨hg, rfl, e, he, rfl⟩ | ⟨hg, rfl, rfl⟩
  · simp only [Inserted, he, ↓reduceIte]
    exact .inl ⟨Contract.guar_refl _ _, rfl, W, rfl, hB W hW hg⟩
  · exact .inr ⟨.ok (), hfound W iv' hW hg, rfl⟩

end Founding

end Calls

section Operations

def Op.groupEffect : Op β → Except Stop Unit → Option (Finset (List β)) → Option (Finset (List β))
  | .createGroup _ u, .ok _, a => some (insert u (a.getD ∅))
  | .addUserToGroup _ u, .ok _, a => a.map (insert u)
  | .removeUserFromGroup _ u, .ok _, a => a.map (Finset.erase · u)
  | _, _, a => a

theorem Op.groupEffect_error (o : Op β) (e : Stop) (a : Option (Finset (List β))) :
    o.groupEffect (.error e) a = a := by
  cases o <;> rfl

def Op.gaveUp : Op β → BsonError
  | .removeUserFromGroup _ _ =>
    bsonError "Unable to remove user from group after multiple attempts" 322
  | _ => bsonError "Unable to add user to group after multiple attempts" 247

def Op.Promises (o : Op β) (r : Except Stop Unit) : Prop := r = .ok () ∨ r = .error (.thrown o.gaveUp)

/-- The calls on one group for certain users. -/
def Op.OnGroup (g : List β) (us : List β → Prop) : Op β → Prop
  | .createGroup g' u | .addUserToGroup g' u | .removeUserFromGroup g' u => g' = g ∧ us u
  | _ => False

variable {us : List β → Prop} {founded : Prop}
  {effect : Except Stop Unit → Option (Finset (List β)) → Option (Finset (List β))}
  {promise : Except Stop Unit → Prop}

theorem commitments_members (hP : P.Ideal) {F : Frame (World β)} {A : Vault β → Prop} {o : Op β}
    {c : Change β} (hedits : Edits P F.contract A g c (Group.Sound P))
    (ho : o.gaveUp = (c.groupEdit P g).exhausted)
    (hok : ∀ V, A V → o.groupEffect (.ok ()) (V.membersOf g) = (V.membersOf g).map c.act) :
    Commitments P F (GroupMembers P g) o.groupEffect o.Promises A g c where
  edits := hedits
  made V G H hV hG hH hGg hn ha hs := by
    refine ⟨.inl rfl, (hedits.write V G H hV hG hH hGg hn ha hs).1, fun a hrep => ?_⟩
    rw [groupMembers_iff hP] at hrep ⊢
    rw [← hrep, hok V hV, Vault.membersOf_modify]
  idle V hV hno := by
    refine ⟨.inl rfl, F.refl _, fun a hrep => ?_⟩
    rw [groupMembers_iff hP] at hrep ⊢
    rw [← hrep, hok V hV, Vault.membersOf_idle hno]
  gaveUp V _ := by
    refine ⟨.inr (by rw [ho]), F.refl _, fun a hrep => ?_⟩
    rwa [o.groupEffect_error]

theorem commitments_join (hP : P.Ideal) (hL : P.LengthRegular) {o : Op β} {m : Member β}
    (ho : o.gaveUp = bsonError "Unable to add user to group after multiple attempts" 247)
    (hok : ∀ a, (founded → a ≠ none) → o.groupEffect (.ok ()) a = a.map (insert m.user)) :
    Commitments P (steady P us g) (GroupMembers P g) o.groupEffect o.Promises
      (Vault.Stays P us g (m.key.length = keySize) founded) g (.join m) := by
  refine commitments_members hP (edits_steady hP hL (by rintro hm _ ⟨⟩; exact hm)) ho ?_
  refine fun V hV => hok _ fun hf => ?_
  rw [Ne, Vault.membersOf_eq_none, not_not]
  exact hV.2.2 hf

theorem linear_withKey (hP : P.Ideal) (hu : us u) (hV : V.Known P us) {k : List β → Enclave β Unit}
    (hk : ∀ key iv x, Before P (Vault.Stays P us g (key.length = keySize) False) x →
      (linearRule (Honest .int64) (steady P us g) (GroupMembers P g) effect promise).Ends
        (fun r x => x.2 = some r) (k (P.encryptAesgcm iv key)) x) :
    Linear (Honest .int64) (steady P us g) (GroupMembers P g) effect promise
      ((reencryptUserKey P u).bind k) (V.toWorld P) := by
  have hA : Standing P (steady P us g).contract (Vault.Stays P us g True False) :=
    standing_steady hP
  refine ends_linear_withKey hP hA (B := fun key => Vault.Stays P us g (key.length = keySize) False)
    (fun _ => standing_steady hP) ?_ ?_ hk ⟨hV, trivial, nofun⟩
  · rintro W _ ⟨hW, -, hf⟩ ⟨a, ha, -, rfl⟩
    exact ⟨hW, hW.sound.keySized.account a ha, hf⟩
  · exact fun W hW hno => absurd (hW.1.account u hu) hno

theorem linear_addUserToGroup (hP : P.Ideal) (hL : P.LengthRegular) (hu : us u)
    (hV : V.Known P us) : Linear (Honest .int64) (steady P us g) (GroupMembers P g)
      (Op.addUserToGroup g u).groupEffect (Op.addUserToGroup g u).Promises
      (addUserToGroup P g u) (V.toWorld P) := by
  refine linear_withKey hP hu hV fun key iv x hx => ?_
  have hc : Commitments P (steady P us g) (GroupMembers P g) (Op.addUserToGroup g u).groupEffect
      (Op.addUserToGroup g u).Promises (Vault.Stays P us g (key.length = keySize) False) g
      (.join ⟨u, key, iv⟩) := commitments_join (m := ⟨u, key, iv⟩) hP hL rfl fun _ _ => rfl
  exact (hc.editSteps hP).ends (n := 10) hx

theorem linear_removeUserFromGroup (hP : P.Ideal) (hL : P.LengthRegular) (hV : V.Known P us) :
    Linear (Honest .int64) (steady P us g) (GroupMembers P g)
      (Op.removeUserFromGroup g u).groupEffect (Op.removeUserFromGroup g u).Promises
      (removeUserFromGroup P g u) (V.toWorld P) := by
  have hedits : Edits P (steady P us g).contract (Vault.Stays P us g True False) g (.leave u)
      (Group.Sound P) := edits_steady hP hL (by nofun)
  have hc := commitments_members (o := .removeUserFromGroup g u) hP hedits rfl fun _ _ => rfl
  exact hc.linear hP 9 ⟨hV, trivial, nofun⟩

theorem linear_createGroup (hP : P.Ideal) (hL : P.LengthRegular) (hu : us u) (hV : V.Known P us) :
    Linear (Honest .int64) (steady P us g) (GroupMembers P g)
      (Op.createGroup g u).groupEffect (Op.createGroup g u).Promises
      (createGroup P g u) (V.toWorld P) := by
  rw [createGroup_eq]
  refine linear_withKey hP hu hV fun key iv x hx => ?_
  have hc : Commitments P (steady P us g) (GroupMembers P g) (Op.createGroup g u).groupEffect
      (Op.createGroup g u).Promises (Vault.Stays P us g (key.length = keySize) True) g
      (.join ⟨u, key, iv⟩) := by
    apply commitments_join (m := ⟨u, key, iv⟩) hP hL rfl
    intro a ha
    obtain ⟨vs, rfl⟩ := Option.ne_none_iff_exists'.mp (ha trivial)
    rfl
  refine ends_linear_createGroup hP (standing_steady hP) (fun U iv' hU hg => ?_)
    (fun U hU hg => ⟨hU.1, hU.2.1, fun _ => hg⟩) hc hx
  have hU' : (U.establish P g iv' ⟨u, key, iv⟩).Known P us :=
    ⟨⟨hU.1.sound.signed.establish hg, hU.1.sound.keySized.establish hg hU.2.1⟩, hU.1.account⟩
  refine ⟨.inl rfl, keeps_steady hP hU' fun h => absurd h hg, fun a hrep => ?_⟩
  rw [groupMembers_iff hP] at hrep ⊢
  rw [Vault.membersOf_eq_none.mpr hg] at hrep
  rw [← hrep]
  exact Vault.membersOf_establish hg

theorem linear_onGroup (hP : P.Ideal) (hL : P.LengthRegular) {o : Op β} (ho : o.OnGroup g us)
    (hV : V.Known P us) : Linear (Honest .int64) (steady P us g) (GroupMembers P g) o.groupEffect
      o.Promises (o.prog P) (V.toWorld P) := by
  cases o with
  | createGroup g' u =>
    obtain ⟨rfl, hu⟩ := ho
    exact linear_createGroup hP hL hu hV
  | addUserToGroup g' u =>
    obtain ⟨rfl, hu⟩ := ho
    exact linear_addUserToGroup hP hL hu hV
  | removeUserFromGroup g' u =>
    obtain ⟨rfl, -⟩ := ho
    exact linear_removeUserFromGroup hP hL hV
  | createUser => cases ho
  | deleteUser => cases ho
  | deleteAllData => cases ho

end Operations

section Runs

/-- The documents say that the group has exactly these members, each with one entry, or that there
is no such group. -/
def HoldsMembers (P : Primitives β) (g : List β) (w : World β) : Option (Finset (List β)) → Prop
  | none => ∀ d ∈ w.groups, Doc.get? d "name" ≠ some (.binary (hashName P g none).toList)
  | some us => (∃ d ∈ w.groups, Doc.get? d "name" = some (.binary (hashName P g none).toList)) ∧
    ∀ d ∈ w.groups, Doc.get? d "name" = some (.binary (hashName P g none).toList) →
      ((usersArray d).map entryName).Nodup ∧
      ∀ n, n ∈ (usersArray d).map entryName ↔ ∃ u ∈ us, n = pseudonymIn P u d

omit [DecidableEq β] in
theorem Group.get?_name (hP : P.Ideal) {G : Group β} :
    Doc.get? (G.toDoc P) "name" = some (.binary (hashName P g none).toList) ↔ G.name = g := by
  rw [← hashName_none_inj hP, ← List.Vector.toList_injective.eq_iff]
  simp [toDoc, Doc.get?, List.lookup_cons]

theorem GroupMembers.holds (hP : P.Ideal) {w : World β} {a : Option (Finset (List β))}
    (h : GroupMembers P g w a) : HoldsMembers P g w a := by
  obtain ⟨V, rfl, ha⟩ := h
  cases a with
  | none =>
    intro d hd hname
    obtain ⟨G, hG, rfl⟩ := List.mem_map.mp hd
    exact Vault.membersOf_eq_none.mp ha (Keyed.mem_keys.mpr ⟨G, hG, (Group.get?_name hP).mp hname⟩)
  | some us =>
    obtain ⟨G, hG, hg, rfl⟩ := Vault.membersOf_eq_some.mp ha
    refine ⟨⟨_, List.mem_map_of_mem hG, (Group.get?_name hP).mpr hg⟩, fun d hd hname => ?_⟩
    obtain ⟨H, hH, rfl⟩ := List.mem_map.mp hd
    obtain rfl := Keyed.eq_of_key_eq hG hH (hg.trans ((Group.get?_name hP).mp hname).symm)
    refine ⟨nodup_pseudonyms hP G, fun n => ?_⟩
    simp only [List.mem_map, mem_usersArray_toDoc, exists_exists_and_eq_and, List.mem_toFinset,
      Group.users, pseudonymIn_toDoc hP, entryName_entryValue]
    exact exists_congr fun m => and_congr_right fun _ => eq_comm

/-- A sequential order of the calls of a run, each with its result, that explains the run. -/
structure Explains {ι : Type} (P : Primitives β) (ops : ι → Op β) (g : List β)
    (a : Option (Finset (List β))) (evs : List (Event ι (Call β)))
    (cfg : Config ι (Call β) Reply Stop Unit (World β)) (order : List (ι × Except Stop Unit)) :
    Prop where
  nodup : (order.map Prod.fst).Nodup
  invoked : ∀ x ∈ order, cfg.status x.1 ≠ .idle
  returned : ∀ i r, cfg.status i = .finished r → (i, r) ∈ order
  results : ∀ x ∈ order, x.2 = .ok () ∨ x.2 = .error (.thrown (ops x.1).gaveUp)
  realtime : ∀ i j, Precedes evs i j → j ∈ order.map Prod.fst →
    List.Sublist [i, j] (order.map Prod.fst)
  members : HoldsMembers P g cfg.world (replay (fun i => (ops i).groupEffect) a order)

/-- Every run of calls on one group is explained by a sequential order: calls that return insert
or remove their user, calls that give up do nothing, and a call that returned before another one
was invoked comes before it. -/
theorem run_linearizable {ι : Type} [DecidableEq ι] (hP : P.Ideal) (hL : P.LengthRegular)
    (ops : ι → Op β) (g : List β) (V : Vault β) (hV : V.Sound P)
    (hops : ∀ i, (ops i).OnGroup g (· ∈ V.accounts.keys)) {evs : List (Event ι (Call β))}
    {cfg : Config ι (Call β) Reply Stop Unit (World β)}
    (hr : Run (Honest .int64) (fun i => (ops i).prog P) (fun _ _ => True) (.start (V.toWorld P)) evs
      cfg) :
    HoldsMembers P g (V.toWorld P) (V.membersOf g) ∧
      ∃ order, Explains P ops g (V.membersOf g) evs cfg order := by
  have hknown : V.Known P (· ∈ V.accounts.keys) := ⟨hV, fun _ h => h⟩
  obtain ⟨order, h⟩ := Run.linearized (fun i => linear_onGroup hP hL (hops i) hknown)
    ⟨V, rfl, rfl⟩ hr
  refine ⟨GroupMembers.holds hP ⟨V, rfl, rfl⟩, order, h.nodup, fun x hx hi => ?_,
    fun i r => h.mem_of_finished, h.promised, h.realtime, h.rep.holds hP⟩
  have hs := h.settled x hx
  rw [hi] at hs
  exact hs

/-- One client adds a user and has fetched the key when another one creates the group. -/
theorem run_linearizable_sample : ∃ ops : Bool → Op ℕ,
    ops false = .createGroup [5] [1] ∧ ops true = .addUserToGroup [5] [2] ∧
    ∃ (V : Vault ℕ) (evs : List (Event Bool (Call ℕ)))
      (cfg : Config Bool (Call ℕ) Reply Stop Unit (World ℕ))
      (order : List (Bool × Except Stop Unit)),
      Run (Honest .int64) (fun i => (ops i).prog Primitives.nat) (fun _ _ => True)
        (.start (V.toWorld Primitives.nat)) evs cfg ∧
      (∀ i, cfg.status i = .finished (.ok ())) ∧ Within true false evs ∧
      Explains Primitives.nat ops [5] (V.membersOf [5]) evs cfg order := by
  have hP := Primitives.nat_ideal
  let ops (b : Bool) : Op ℕ := cond b (.addUserToGroup [5] [2]) (.createGroup [5] [1])
  let V : Vault ℕ :=
    (Vault.empty.register [1] (.replicate 32 7) []).register [2] (.replicate 32 8) []
  have hkeys : V.accounts.keys = [[1], [2]] := rfl
  have hV : V.Sound Primitives.nat := by
    refine ⟨by rintro _ ⟨⟩, ⟨?_, by rintro _ ⟨⟩⟩⟩
    decide
  have hops : ∀ i, (ops i).OnGroup [5] (· ∈ V.accounts.keys) := by
    rintro (_ | _) <;> exact ⟨rfl, by rw [hkeys]; decide⟩
  let prog : Bool → Enclave ℕ Unit := fun i => (ops i).prog Primitives.nat
  have hrace : ∀ a iv, a ∈ V.accounts → a.user = [2] → Wp (Honest .int64) (fun r w =>
      Wp (Honest .int64) (fun r' _ => r = .ok () ∧ r' = .ok ())
        (addUserToGroupWithKey Primitives.nat [5] [2] (Primitives.nat.encryptAesgcm iv a.key)) w)
      (prog false) (V.toWorld Primitives.nat) := by
    intro a iv _ _
    apply (wp_createGroup hP hV.signed).mono
    rintro _ _ (⟨b, -, -, rfl, iv', ⟨hg, -⟩ | ⟨hg, iv'', rfl⟩⟩ | ⟨hno, -⟩)
    · cases hg
    · exact (wp_addUserToGroupWithKey hP (hV.signed.establish hg) ⟨[2], a.key, iv⟩).mono
        fun _ _ h => ⟨rfl, h.1⟩
    · rw [hkeys] at hno
      exact absurd (by decide) hno
  obtain ⟨evs, cfg, _, _, hrun, hret, hret', ⟨rfl, rfl⟩, hwithin⟩ := exists_run_behind_key
    (i := true) (u := [2]) hP (.start (V.toWorld Primitives.nat)) (by decide) rfl rfl rfl rfl
    (by rw [hkeys]; decide) hrace
  obtain ⟨-, order, h⟩ := run_linearizable hP Primitives.nat_lengthRegular ops [5] V hV hops hrun
  refine ⟨ops, rfl, rfl, V, evs, cfg, order, hrun, ?_, hwithin, h⟩
  rintro (_ | _)
  · exact hret'
  · exact hret

end Runs

end MongoSgx
