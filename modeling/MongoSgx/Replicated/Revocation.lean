import MongoSgx.Adversary.Signing
import MongoSgx.Concurrent.Linearizable
import MongoSgx.Replicated.Store

/-! # Revocation on a replica set

Removing a user from a group goes through the primary and leaves a state without
an entry of the user; no other operation than an addition brings one back. So
`get_keys_of_group` does not show the key of the removed entry when it is answered
from a state since the removal. It asks for secondaries, and an old state still
shows the key: its document was signed and stays signed.
-/

namespace MongoSgx

open Bson Interaction

variable {β : Type} {P : Primitives β} {V W : Vault β} {g h u v : List β} {φ : Prop}

section Contracts

def Vault.Lacks (g u : List β) (V : Vault β) : Prop := ∀ G ∈ V.groups, G.name = g → u ∉ G.users

def Outside (P : Primitives β) (g u : List β) (w : World β) : Prop := ∀ id, ¬ Enrolled P w u id g

theorem outside_iff (hP : P.Ideal) : Outside P g u (V.toWorld P) ↔ V.Lacks g u := by
  simp only [Outside, enrolled_iff hP]
  constructor
  · intro hno G hG hn hu
    exact hno G.id ⟨G, hG, rfl, hn, hu⟩
  · rintro hV id ⟨G, hG, -, hn, hu⟩
    exact hV G hG hn hu

def Request.Enters (g u : List β) : Request β → Prop
  | .op (.createGroup h v) | .op (.addUserToGroup h v) => h = g ∧ v = u
  | _ => False

/-- Among others who do as they like with the vault, an operation that does not enter the user
into the group keeps it outside. -/
def outsideContract (P : Primitives β) (g u : List β) (φ : Prop) : Contract (World β) where
  rely s t := VaultStore P s → VaultStore P t
  guar s t := VaultStore P s → VaultStore P t ∧ (¬ φ → Outside P g u s → Outside P g u t)
  rely_refl _ h := h
  rely_trans := (bystanderContract P u).rely_trans
  guar_refl _ h := ⟨h, fun _ h => h⟩

theorem standing_outside : Standing P (outsideContract P g u φ) (fun _ => True) where
  stable := by
    rintro V t - ht
    obtain ⟨W, hW⟩ := ht ⟨V, rfl⟩
    exact ⟨W, hW, trivial⟩

theorem guar_outside (hP : P.Ideal) (hW : ¬ φ → V.Lacks g u → W.Lacks g u) :
    (outsideContract P g u φ).guar (V.toWorld P) (W.toWorld P) :=
  fun _ => ⟨⟨W, rfl⟩, fun hφ hV => (outside_iff hP).mpr (hW hφ ((outside_iff hP).mp hV))⟩

theorem Vault.Lacks.of_groups (hV : V.Lacks g u) (hW : ∀ G ∈ W.groups, G ∈ V.groups) :
    W.Lacks g u := fun G hG => hV G (hW G hG)

variable [DecidableEq β]

theorem Vault.Lacks.modify {c : Change β} {s : Hashed β} (hV : V.Lacks g u)
    (hc : h = g → ∀ m, c = .join m → m.user ≠ u) : (V.modify h c s).Lacks g u := by
  intro H hH hn hu
  obtain ⟨G, hG, rfl⟩ := Vault.mem_groups_modify.mp hH
  by_cases hh : G.name = h
  · rw [if_pos hh] at hn hu
    rw [Group.change_name] at hn
    obtain ⟨m, hm, rfl⟩ := List.mem_map.mp hu
    rcases Group.mem_members_change hm with hm | hm
    · exact hV G hG hn (List.mem_map_of_mem hm)
    · exact hc (hh.symm.trans hn) m hm rfl
  · rw [if_neg hh] at hn hu
    exact hV G hG hn hu

theorem Vault.Lacks.establish {iv : List β} {m : Member β} (hV : V.Lacks g u)
    (hh : h ∉ V.groups.keys) (hm : h = g → m.user ≠ u) : (V.establish P h iv m).Lacks g u := by
  intro H hH hn hu
  rcases (Vault.mem_groups_found hh).mp hH with hH | rfl
  · exact hV H hH hn hu
  · exact hm hn (List.mem_singleton.mp hu).symm

end Contracts

variable [DecidableEq β] {count : ℤ → Scalar}

section Operations

theorem edits_outside (hP : P.Ideal) {c : Change β}
    (hc : ¬ φ → h = g → ∀ m, c = .join m → m.user ≠ u) :
    Edits P (outsideContract P g u φ) (fun _ => True) h c (fun _ => True) where
  standing := standing_outside
  seen _ _ _ _ := trivial
  write _ _ _ _ _ _ _ _ _ _ := ⟨guar_outside hP fun hφ hV => hV.modify (hc hφ), trivial⟩

theorem sweeps_outside (hP : P.Ideal) : Sweeps P (Honest count) (outsideContract P g u φ) v
    (fun cur _ _ => OverGroups cur) (fun _ _ => True) where
  reading _ _ := {
    stable := fun {V t} hcur ht => by
      obtain ⟨W, hW⟩ := ht ⟨V, rfl⟩
      exact ⟨W, hW, hcur⟩ }
  writing _ := standing_outside
  overGroups _ _ _ hcur := hcur
  visit _ _ _ _ _ _ _ hover _ := hover
  finish _ _ _ _ _ := trivial
  write _ _ _ _ _ _ _ := ⟨guar_outside hP fun _ hV => hV.modify fun _ => by nofun, trivial⟩
  miss _ _ _ _ _ _ := trivial
  forget _ _ := ⟨guar_outside hP fun _ hV => hV.of_groups fun _ hG => hG, trivial⟩

theorem safe_outside (hP : P.Ideal) (o : Op β) :
    Safe (Honest count) (outsideContract P g u ((Request.op o).Enters g u)) (fun _ _ => True)
      (o.prog P) (V.toWorld P) := by
  have hA : ∀ φ, Standing P (outsideContract P g u φ) (fun _ => True) :=
    fun _ => standing_outside
  cases o with
  | createUser v key =>
    refine safe_createUser hP honestAnswers_self (hA _) (fun V iv _ hv => ?_) trivial
    exact guar_outside hP fun _ hV => hV.of_groups fun _ hG => hG
  | createGroup h v =>
    refine safe_createGroup (B := fun _ _ => True) hP honestAnswers_self (hA _)
      (fun _ _ _ _ => trivial) ?_ (fun m hm => edits_outside hP ?_) trivial
    · rintro V iv m rfl - hh
      exact guar_outside hP fun hφ hV => hV.establish hh fun hg hu => hφ ⟨hg, hu⟩
    · rintro hφ hg _ ⟨⟩ hu
      exact hφ ⟨hg, hm.symm.trans hu⟩
  | addUserToGroup h v =>
    refine safe_addUserToGroup (B := fun _ _ => True) hP honestAnswers_self (hA _)
      (fun _ _ _ _ => trivial) (fun m hm => edits_outside hP ?_) trivial
    rintro hφ hg _ ⟨⟩ hu
    exact hφ ⟨hg, hm.symm.trans hu⟩
  | removeUserFromGroup h v =>
    exact safe_removeUserFromGroup hP honestAnswers_self (edits_outside hP (by nofun)) trivial
  | deleteUser v =>
    exact ((sweeps_outside hP).safe_deleteUser hP honestAnswers_self ⟨rfl, rfl, rfl⟩).mono
      fun _ _ _ => trivial
  | deleteAllData =>
    refine safe_deleteAllData honestAnswers_self (hA _) (fun V as gs has hgs _ => ?_) trivial
    exact ⟨guar_outside hP fun _ hV => hV.of_groups fun G hG => hgs.subset hG, trivial⟩

end Operations

section Requests

theorem honest_of_not_writes {c : Call β} (hc : ¬ c.Writes) {r : Reply c} {w w' : World β}
    (hr : Honest count c w r w') : w' = w := by
  cases c <;> first | exact hr | exact hr.1 | exact absurd trivial hc

def readWatch : Watch β where
  allowed _ := True
  guar _ x := ¬ x.call.Writes
  silent _ _ hx := hx.not_writes

theorem records_reads {q : Request β} (hq : ∀ o, q ≠ .op o) :
    readWatch.Records (fun _ _ => True) (q.prog P) [] := by
  cases q with
  | op o => exact absurd rfl (hq o)
  | getKeysOfGroup h =>
    apply Records.map
    apply records_getKeysOfGroup (A := fun _ => True) (B := fun _ _ => True)
    · exact fun _ _ _ _ => trivial
    · exact fun _ _ _ _ _ => trivial
    · exact fun _ _ _ _ => ⟨id, trivial⟩
    · exact fun _ _ _ _ => trivial
    · exact fun _ _ _ _ _ _ => trivial
    · trivial
  | isUserPartOfGroup h v =>
    apply Records.map
    apply records_isUserPartOfGroup (A := fun _ => True) (B := fun _ _ => True)
    · exact fun _ _ _ _ => trivial
    · exact fun _ _ _ _ _ => trivial
    · exact fun _ _ _ _ => ⟨id, trivial⟩
    · exact fun _ _ _ _ _ _ => trivial
    · exact fun _ _ _ _ => trivial
    · trivial

theorem safe_request (hP : P.Ideal) (q : Request β) :
    Safe (Honest count) (outsideContract P g u (q.Enters g u)) (fun _ _ => True) (q.prog P)
      (V.toWorld P) := by
  have hreads : ∀ φ, (∀ o, q ≠ .op o) → Safe (Honest count) (outsideContract P g u φ)
      (fun _ _ => True) (q.prog P) (V.toWorld P) := by
    intro φ hq
    refine (records_reads hq).safe (fun _ _ _ _ _ => trivial) ?_ _
    intro _ c w r w' hc hr
    rw [honest_of_not_writes hc hr]
    exact Contract.guar_refl _ w
  cases q with
  | op o =>
    apply Safe.bind
    apply (safe_outside hP o).mono
    rintro (e | a) t -
    · trivial
    · exact safe_pure_iff.mpr fun _ _ => trivial
  | getKeysOfGroup h => exact hreads _ (by nofun)
  | isUserPartOfGroup h v => exact hreads _ (by nofun)

end Requests

section Runs

variable {s t : Replica β} {view : Replica β → List (World β)} {n : ℕ}

/-- What is known of a replica set since its primary has had `n` states. -/
structure Replica.OutsideSince (P : Primitives β) (g u : List β) (n : ℕ) (s : Replica β) :
    Prop where
  le : n ≤ s.past.length
  outside : ∀ w ∈ s.since n, Outside P g u w

omit [DecidableEq β] in
theorem Replica.OutsideSince.write {w : World β} (hs : s.OutsideSince P g u n)
    (hw : Outside P g u w) : (s.write w).OutsideSince P g u n where
  le := by
    have hle := hs.le
    simp only [Replica.write, Replica.states, List.length_append, List.length_singleton]
    omega
  outside w' hw' := by
    rw [Replica.since_write hs.le] at hw'
    rcases List.mem_append.mp hw' with hw' | hw'
    · exact hs.outside w' hw'
    · exact List.mem_singleton.mp hw' ▸ hw

def Replica.Kept (P : Primitives β) (s : Replica β) : Prop := ∀ w ∈ s.states, VaultStore P w

theorem keeps_outside (hP : P.Ideal) (hview : ∀ s, ∀ w ∈ view s, w ∈ s.states) {q : Request β}
    {x : Except Stop (Answer β)} (h : (q.prog P).Evals (Replicated count view) s x t)
    (hs : s.Kept P) : t.Kept P ∧
      (¬ q.Enters g u → s.OutsideSince P g u n → t.OutsideSince P g u n) := by
  obtain ⟨V, hV⟩ := hs _ Replica.now_mem_states
  have hsafe : Safe (Honest count) (outsideContract P g u (q.Enters g u)) (fun _ _ => True)
      (q.prog P) s.now := hV ▸ safe_request hP q
  have hkeep : ∀ J : Replica β → Prop, J s → (∀ s w, J s → VaultStore P s.now →
      (outsideContract P g u (q.Enters g u)).guar s.now w → J (s.write w)) →
      t.Kept P ∧ J t := fun J hJs hJ =>
    steps_keep hview (fun _ _ _ hw _ => hw) (fun _ _ hg hw => (hg hw).1) hJ hsafe h hs hJs
  refine ⟨(hkeep (fun _ => True) trivial fun _ _ _ _ _ => trivial).1, fun hq hout => ?_⟩
  refine (hkeep (Replica.OutsideSince P g u n) hout fun s w hs hnow hg => hs.write ?_).2
  exact (hg hnow).2 hq (hs.outside _ (Replica.now_mem_since hs.le))

theorem session_outside (hP : P.Ideal) {hist : List (Request β × Except Stop (Answer β))}
    (h : Session (Replicated count Replica.states) (Request.prog P) s hist t) (hs : s.Kept P) :
    t.Kept P ∧ ((∀ x ∈ hist, ¬ x.1.Enters g u) → s.OutsideSince P g u n →
      t.OutsideSince P g u n) := by
  induction h with
  | nil => exact ⟨hs, fun _ h => h⟩
  | cons hcall _ ih =>
    obtain ⟨ht, hout⟩ := keeps_outside (g := g) (u := u) (n := n) hP (fun _ _ hw => hw) hcall hs
    obtain ⟨hu, hout'⟩ := ih ht
    refine ⟨hu, fun hno hs => hout' (fun x hx => hno x (List.mem_cons_of_mem _ hx)) ?_⟩
    exact hout (hno _ (List.mem_cons_self ..)) hs

end Runs

section Revocation

variable {s t t' t'' : Replica β} {view : Replica β → List (World β)}

def primaryWatch : Watch β where
  allowed _ := True
  guar _ x := x.call.Primary
  silent _ x hx := by
    obtain ⟨c, r⟩ := x
    cases c <;> first | exact trivial | cases hx

theorem records_primary (edit : GroupEdit β) (n : ℕ) :
    primaryWatch.Records (fun _ _ => True) (editAttempts P edit n) [] := by
  apply EditRule.records_editAttempts (A := fun _ _ => True) (B := fun _ _ _ => True)
  · exact {
      quiet_start := fun _ _ _ _ _ => trivial
      quiet_read := fun _ _ _ _ _ _ => trivial
      quiet_done := fun _ _ _ _ _ => trivial
      find := fun _ _ _ _ _ => rfl
      absent := fun _ _ _ _ _ => trivial
      present := fun _ _ _ _ _ _ => trivial
      stop := fun _ _ _ _ _ _ => trivial
      send := fun _ _ _ _ _ _ _ _ _ => trivial
      answer := fun _ _ _ _ _ r _ _ _ => by cases r <;> simp [Answered]
      exhausted := fun _ _ => trivial }
  · trivial

theorem outside_of_removal (hP : P.Ideal) (hs : VaultStore P s.now)
    (h : (removeUserFromGroup P g u).Evals (Replicated count view) s (.ok ()) t) :
    Outside P g u t.now := by
  have h : (removeUserFromGroup P g u).Evals (Honest count) s.now (.ok ()) t.now :=
    steps_honest_of_primary (records_primary (removeEdit P g u) 10) h
  obtain ⟨V, hV⟩ := hs
  rw [hV] at h
  rcases (wp_editAttempts_any hP (.leave u) 8).of_evals h with ⟨-, ht⟩ | ⟨⟨e, he⟩, -⟩
  · rcases ht with ht | ⟨hno, ht⟩
    · rw [ht, outside_iff hP]
      exact fun G hG hn => Vault.not_applies_update hG hn
    · rw [ht, outside_iff hP]
      exact hno
  · cases he

/-- A deletion that returns, and was answered from the current state, leaves the user outside
every group. -/
theorem outside_of_deletion (hP : P.Ideal) (hs : VaultStore P s.now)
    (h : (deleteUser P u).Evals (Replicated count Replica.current) s (.ok ()) t) :
    Outside P g u t.now := by
  have h := evals_honest_of_current h
  obtain ⟨V, hV⟩ := hs
  rw [hV] at h
  have hsweep : Sweeps P (Honest count) (.alone (VaultStore P)) u _ _ :=
    sweeps_alone (A := fun _ => True) (fun V _ => ⟨V, rfl⟩) (fun _ _ _ _ => trivial)
      fun _ _ _ => trivial
  obtain ⟨W, hW, -, hleft⟩ := (hsweep.safe_deleteUser hP honestAnswers_self
    ⟨trivial, ⟨rfl, rfl, rfl⟩, fun G hG _ => .inl (List.mem_map_of_mem hG)⟩).of_evals h rfl
  rw [hW, outside_iff hP]
  exact fun G hG _ hu => List.not_mem_nil (hleft G hG hu)

/-- A call that returns and takes the user out of the group. What a deletion reads comes from the
current state. -/
inductive Revokes (P : Primitives β) (count : ℤ → Scalar) (g u : List β) (s t : Replica β) : Prop
  | removal (h : (removeUserFromGroup P g u).Evals (Replicated count Replica.states) s (.ok ()) t)
  | deletion (h : (deleteUser P u).Evals (Replicated count Replica.current) s (.ok ()) t)

theorem Revokes.kept_outside (hP : P.Ideal) (h : Revokes P count g u s t) (hs : s.Kept P) :
    t.Kept P ∧ Outside P g u t.now := by
  have hnow : VaultStore P s.now := hs _ Replica.now_mem_states
  have hkept : ∀ view (o : Op β), (∀ s, ∀ w ∈ view s, w ∈ Replica.states s) →
      (o.prog P).Evals (Replicated count view) s (.ok ()) t → t.Kept P := by
    intro view o hview ho
    have hreq : ((Request.op o).prog P).Evals (Replicated count view) s (.ok .done) t :=
      ho.steps_bind fun _ => .pure Answer.done
    exact (keeps_outside (g := g) (u := u) (n := 0) hP hview hreq hs).1
  cases h with
  | removal h =>
    exact ⟨hkept _ (.removeUserFromGroup g u) (fun _ _ hw => hw) h, outside_of_removal hP hnow h⟩
  | deletion h =>
    refine ⟨hkept _ (.deleteUser u) (fun s w hw => ?_) h, outside_of_deletion hP hnow h⟩
    rw [List.mem_singleton.mp hw]
    exact Replica.now_mem_states

/-- After a call that takes a user out of a group has returned, and as long as no request enters
the user into the group again, every call of `get_keys_of_group` that is answered from a state
since that return gives the keys of a document of the group that has no entry of the user. -/
theorem revocation_seen (hP : P.Ideal) (count : ℤ → Scalar)
    {hist hist' : List (Request β × Except Stop (Answer β))} {ks : List (Key β)}
    (h : Session (Replicated count Replica.states) (Request.prog P) .start hist s)
    (hrev : Revokes P count g u s t)
    (h' : Session (Replicated count Replica.states) (Request.prog P) t hist' t')
    (hadd : ∀ x ∈ hist', ¬ x.1.Enters g u)
    (hget : (getKeysOfGroup P g).Evals (Replicated count (Replica.since t.past.length)) t'
      (.ok ks) t'') :
    ∃ w ∈ t'.since t.past.length, ∃ d ∈ w.groups,
      Doc.get? d "name" = some (.binary (hashName P g none).toList) ∧ keysHeld P d = some ks ∧
      ∀ v ∈ usersArray d, entryName v ≠ pseudonymIn P u d := by
  have hstart : (Replica.start : Replica β).Kept P := fun w hw =>
    ⟨.empty, List.mem_singleton.mp hw⟩
  have hs := (session_outside (g := g) (u := u) (n := 0) hP h hstart).1
  obtain ⟨hkept, hout⟩ := hrev.kept_outside hP hs
  have ht : t.OutsideSince P g u t.past.length := by
    refine ⟨le_rfl, fun w hw => ?_⟩
    rw [Replica.since_past] at hw
    rwa [List.mem_singleton.mp hw]
  obtain ⟨hkept', hout'⟩ := session_outside hP h' hkept
  obtain ⟨d, cur, ⟨-, w, hw, hr⟩, -, hks⟩ :=
    (evals_getKeysOfGroup_iff fun _ _ _ _ => replicated_silent).mp hget
  have hw : w ∈ t'.since t.past.length := hw
  obtain ⟨V, rfl⟩ := hkept' w (List.mem_of_mem_drop hw)
  have hread : Honest count (.cursorNext (keysCursor P g)) (V.toWorld P) (some d, cur)
    (V.toWorld P) := ⟨rfl, hr⟩
  obtain ⟨-, -, ⟨G, hG, hm, hd⟩ | ⟨-, hd⟩⟩ := honest_findGroup hread
  · obtain rfl := Option.some.inj hd
    have hname := (matches_nameSelector hP).mp hm
    refine ⟨_, hw, _, List.mem_map_of_mem hG, (Group.get?_name hP).mpr hname, hks, ?_⟩
    intro v hv he
    have hu : u ∈ G.users := (exists_entry_iff hP).mp ⟨v, hv, he⟩
    exact (outside_iff hP).mp ((hout' hadd ht).outside _ hw) G hG hname hu
  · cases hd

end Revocation

section Samples

variable {s t : Replica β} {view : Replica β → List (World β)}

theorem exists_session_replicated {hist : List (Op β × Except Stop Unit)} {w w' : World β}
    (h : Session (Honest count) (Op.prog P) w hist w') (hs : s.now = w) :
    ∃ hist' t, Session (Replicated count Replica.states) (Request.prog P) s hist' t ∧
      hist'.map Prod.fst = hist.map (fun x => .op x.1) ∧ t.now = w' := by
  induction h generalizing s with
  | nil => exact ⟨[], s, .nil s, rfl, hs⟩
  | @cons w _ _ o r hist hcall _ ih =>
    subst hs
    obtain ⟨t, ht, hnow⟩ : ∃ t, (o.prog P).Evals (Replicated count Replica.states) s r t ∧ _ :=
      exists_evals_replicated (fun _ => Replica.now_mem_states) hcall
    obtain ⟨hist', u, hu, hfst, hend⟩ := ih hnow
    have hreq : ((Request.op o).prog P).Evals (Replicated count Replica.states) s
        (r.map fun _ => Answer.done) t := by
      have hbind := Prog.Steps.bind ht fun _ => .pure (Answer.done : Answer β)
      cases r <;> exact hbind
    refine ⟨_ :: hist', u, .cons hreq hu, ?_, hend⟩
    rw [List.map_cons, List.map_cons, hfst]

theorem evals_getKeysOfGroup_view {w w' w'' : World β} {ks : List (Key β)} (hw : w' ∈ view s)
    (hgroups : w'.groups = w.groups)
    (h : (getKeysOfGroup P g).Evals (Honest count) w (.ok ks) w'') :
    (getKeysOfGroup P g).Evals (Replicated count view) s (.ok ks) s := by
  have hsilent : ∀ c (w : World β) (r : Reply c) (w' : World β), c.Silent →
      (Honest count c w r w' ↔ w' = w) := by
    intro c w r w' hc
    refine ⟨honest_silent hc, ?_⟩
    rintro rfl
    exact honest_of_silent hc r _
  obtain ⟨d, cur, ⟨-, hr⟩, hd⟩ := (evals_getKeysOfGroup_iff hsilent).mp h
  refine (evals_getKeysOfGroup_iff fun _ _ _ _ => replicated_silent).mpr ⟨d, cur, ?_, hd⟩
  refine ⟨rfl, w', hw, ?_⟩
  change CursorNext w'.groups _ _
  rw [hgroups]
  exact hr

theorem exists_keys_of_session (hP : P.Ideal) (count : ℤ → Scalar)
    {hist : List (Op β × Except Stop Unit)} {os : List (Op β)} {w : World β}
    {us : List (List β)} (h : Session (Honest count) (Op.prog P) World.empty hist w)
    (hops : hist.map Prod.fst = os) (hk : ∀ o ∈ os, o.KeySized)
    (hD : (runMachine Directory.step Directory.empty os).2.groups.elems = [(g, us)]) :
    ∃ ks, (getKeysOfGroup P g).Evals (Honest count) w (.ok ks) w ∧
      ks.map (fun k => some k.toList) =
        us.map (runMachine Directory.step Directory.empty os).2.keyOf := by
  subst hops
  have hrep := (h.simulation (simulates_directory hP count) (fun _ _ => trivial)
    represents_empty).2
  have hg : w.HasGroup P g := (hrep.mem_groups_iff hP).mpr (by
    rw [Keyed.keys, hD]
    exact List.mem_singleton_self _)
  obtain ⟨us', hus, hwp⟩ := session_keys_of_group hP count hist
    (fun x hx => hk x.1 (List.mem_map_of_mem hx)) h g hg
  obtain ⟨_, _, hr, rfl, ks, rfl, -, hks⟩ := hwp.exists_evals (honest_total count)
  rw [Keyed.mem_def, hD] at hus
  obtain rfl := (Prod.mk.inj (List.mem_singleton.mp hus)).2
  exact ⟨ks, hr, hks⟩

/-- A run that ends with the removal of a user, on a single server and on a replica set. -/
structure RemovalRun (P : Primitives β) (count : ℤ → Scalar) (os : List (Op β)) (g u : List β)
    (V : Vault β) (s t : Replica β) : Prop where
  before : ∃ hist, Session (Honest count) (Op.prog P) World.empty hist (V.toWorld P) ∧
    hist.map Prod.fst = os
  after : ∃ hist, Session (Honest count) (Op.prog P) World.empty hist
    ((V.update P g (.leave u)).toWorld P) ∧ hist.map Prod.fst = os ++ [.removeUserFromGroup g u]
  session : ∃ hist, Session (Replicated count Replica.states) (Request.prog P) .start hist s ∧
    hist.map Prod.fst = os.map .op
  removal : (removeUserFromGroup P g u).Evals (Replicated count Replica.states) s (.ok ()) t
  now : t.now = (V.update P g (.leave u)).toWorld P
  old : V.toWorld P ∈ t.states

theorem exists_removalRun (hP : P.Ideal) (count : ℤ → Scalar) (os : List (Op β)) (u : List β)
    {us : List (List β)}
    (h : (runMachine Directory.step Directory.empty os).2.groups.elems = [(g, us)]) :
    ∃ V G s t, RemovalRun P count os g u V s t ∧ V.Signed P ∧ V.groups.elems = [G] ∧
      G.name = g ∧ G.users = us := by
  obtain ⟨hist, V, G, hs, rfl, hS, -, -, hV, hg, hu⟩ := exists_group_session hP count os h
  obtain ⟨_, _, hrem, rfl, rfl⟩ := (wp_removeUserFromGroup (g := g) (u := u) hP hS).exists_evals
    (honest_total count)
  obtain ⟨hist', s, hs', hfst, hnow⟩ := exists_session_replicated (s := .start) hs rfl
  obtain ⟨t, ht, hnow'⟩ := exists_evals_replicated (s := s) (fun _ => Replica.now_mem_states)
    (hnow ▸ hrem)
  have hlast : Session (Honest count) (Op.prog P) (V.toWorld P)
      [(.removeUserFromGroup g u, .ok ())] ((V.update P g (.leave u)).toWorld P) :=
    .cons hrem (.nil _)
  refine ⟨V, G, s, t, ⟨⟨hist, hs, rfl⟩, ⟨_, hs.append hlast, by simp⟩, ⟨hist', hs', ?_⟩, ht, hnow',
    ?_⟩, hS, hV, hg, hu⟩
  · rw [hfst, List.map_map]
    rfl
  · exact states_subset ht _ (hnow ▸ Replica.now_mem_states)

/-- A user is removed and another one stays: the keys since then are those of the other. -/
theorem revocation_seen_sample : ∃ hist s t ks,
    Session (Replicated .int64 Replica.states) (Request.prog Primitives.nat) .start hist s ∧
    hist.map Prod.fst = shareOps.map .op ∧
    (removeUserFromGroup Primitives.nat [5] [1]).Evals (Replicated .int64 Replica.states) s
      (.ok ()) t ∧
    (getKeysOfGroup Primitives.nat [5]).Evals
      (Replicated .int64 (Replica.since t.past.length)) t (.ok ks) t ∧
    ks.map (fun k => some k.toList) = [some (.replicate 32 8)] ∧
    ∃ w ∈ t.since t.past.length, ∃ d ∈ w.groups,
      Doc.get? d "name" = some (.binary (hashName Primitives.nat [5] none).toList) ∧
      keysHeld Primitives.nat d = some ks ∧
      ∀ v ∈ usersArray d, entryName v ≠ pseudonymIn Primitives.nat [1] d := by
  have hP := Primitives.nat_ideal
  obtain ⟨V, G, s, t, hrun, -⟩ := exists_removalRun hP .int64 shareOps [1] shareOps_groups
  obtain ⟨hist, h, hops⟩ := hrun.session
  obtain ⟨_, hafter, hops'⟩ := hrun.after
  obtain ⟨ks, hread, hks⟩ := exists_keys_of_session (g := [5]) hP .int64 hafter hops'
    (by simp [shareOps, Op.KeySized, keySize]) rfl
  have hnow : t.now ∈ t.since t.past.length := Replica.now_mem_since le_rfl
  have hget : (getKeysOfGroup Primitives.nat [5]).Evals
      (Replicated .int64 (Replica.since t.past.length)) t (.ok ks) t :=
    evals_getKeysOfGroup_view hnow (congrArg World.groups hrun.now) hread
  refine ⟨hist, s, t, ks, h, hops, hrun.removal, hget, hks, ?_⟩
  exact revocation_seen hP .int64 h (.removal hrun.removal) (.nil t) (by rintro _ ⟨⟩) hget

/-- After a removal a secondary that lags behind still shows the key. After a deletion that was
answered by one, the current state does. -/
theorem stale_keys :
    (∃ hist s t ks,
      Session (Replicated .int64 Replica.states) (Request.prog Primitives.nat) .start hist s ∧
      hist.map Prod.fst = [.op (.createUser [1] (.replicate 32 7)), .op (.createGroup [5] [1])] ∧
      (removeUserFromGroup Primitives.nat [5] [1]).Evals (Replicated .int64 Replica.states) s
        (.ok ()) t ∧
      (getKeysOfGroup Primitives.nat [5]).Evals (Replicated .int64 Replica.states) t (.ok ks) t ∧
      ks.map (fun k => some k.toList) = [some (.replicate 32 7)]) ∧
    ∃ hist s t ks,
      Session (Replicated .int64 Replica.states) (Request.prog Primitives.nat) .start hist s ∧
      hist.map Prod.fst = shareOps.map .op ++ [.op (.removeUserFromGroup [5] [2])] ∧
      (deleteUser Primitives.nat [1]).Evals (Replicated .int64 Replica.states) s (.ok ()) t ∧
      (getKeysOfGroup Primitives.nat [5]).Evals (Replicated .int64 Replica.current) t (.ok ks) t ∧
      ks.map (fun k => some k.toList) = [some (.replicate 32 7)] := by
  have hP := Primitives.nat_ideal
  constructor
  · obtain ⟨V, G, s, t, hrun, -⟩ := exists_removalRun (g := [5]) hP .int64
      [.createUser [1] (.replicate 32 7), .createGroup [5] [1]] [1] rfl
    obtain ⟨hist, h, hops⟩ := hrun.session
    obtain ⟨_, hbefore, hops'⟩ := hrun.before
    obtain ⟨ks, hread, hks⟩ := exists_keys_of_session (g := [5]) hP .int64 hbefore hops'
      (by simp [Op.KeySized, keySize]) rfl
    exact ⟨hist, s, t, ks, h, hops, hrun.removal, evals_getKeysOfGroup_view hrun.old rfl hread, hks⟩
  · obtain ⟨V, G, s, t, hrun, hS, hV, hg, hu⟩ :=
      exists_removalRun hP .int64 shareOps [2] shareOps_groups
    obtain ⟨hist, h, hops⟩ := hrun.session
    obtain ⟨_, hafter, hops'⟩ := hrun.after
    obtain ⟨ks, hread, hks⟩ := exists_keys_of_session (g := [5]) hP .int64 hafter hops'
      (by simp [shareOps, Op.KeySized, keySize]) rfl
    -- the deletion reads the group as it was before the removal
    have hG : G.Signed Primitives.nat := hS G (by simp [Keyed.mem_def, hV])
    have hold : ∀ cur r, OverGroups cur → cur.readPrefs = some .primaryPreferred →
        CursorNext (V.toWorld Primitives.nat).groups cur r →
        Replicated .int64 Replica.states (.cursorNext cur) t r t := by
      intro cur r hcur hprefs hr
      refine ⟨rfl, V.toWorld Primitives.nat, ?_, ?_⟩
      · rw [hprefs]
        exact hrun.old
      · rw [hcur.1]
        exact hr
    obtain ⟨cur, hcur, hsweep⟩ : ∃ cur, PastGroup G cur ∧ (deleteUser Primitives.nat [1]).Steps
        (Replicated .int64 Replica.states) t _ _ :=
      steps_deleteUser hP (fun _ _ hc => (replicated_silent hc).mpr rfl) hold hV hG
    -- its update misses the document as it is now
    have huser : [2] ∈ G.users := by
      rw [hu]
      decide
    obtain ⟨_, _, hrest, rfl, rfl⟩ := (wp_deleteUser_missed .int64 hP hcur
      (changed_removal hP hV hg huser)).exists_evals (honest_total .int64)
    rw [← hrun.now] at hrest
    obtain ⟨t', ht', hnow⟩ : ∃ t', Prog.Evals (Replicated .int64 Replica.states) _ t _ t' ∧ _ :=
      exists_evals_replicated (fun _ => Replica.now_mem_states) hrest
    have hlast : Session (Replicated .int64 Replica.states) (Request.prog Primitives.nat) s
        [(.op (.removeUserFromGroup [5] [2]), .ok .done)] t :=
      .cons (hrun.removal.steps_bind fun _ => .pure (Answer.done : Answer ℕ)) (.nil t)
    have hgroups : t'.now.groups =
        ((V.update Primitives.nat [5] (.leave [2])).toWorld Primitives.nat).groups := by
      rw [hnow]
      rfl
    refine ⟨_, t, t', ks, h.append hlast, by simp [hops], hsweep.trans ht', ?_, hks⟩
    exact evals_getKeysOfGroup_view (List.mem_singleton_self _) hgroups hread

end Samples

end MongoSgx
