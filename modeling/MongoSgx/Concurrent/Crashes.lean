import MongoSgx.Concurrent.Service
import MongoSgx.Interaction.Retry
import MongoSgx.Replicated.Revocation

/-! # Clients that stop

A client may stop in the middle of a call for good. The others are not blocked:
whatever state the stopped calls have left, a call that runs from there answers as
the directory in the database does. And a client that starts its call over where it
was cut off gets the directory of a call that was not cut off.
-/

namespace MongoSgx

open Bson Interaction

variable {β : Type} {P : Primitives β} {V W : Vault β} {u g key : List β}

/-- The database of a sound vault with the given directory; members may have lost their records. -/
def Carries (P : Primitives β) (D : Directory β) (w : World β) : Prop :=
  ∃ V : Vault β, w = V.toWorld P ∧ V.Sound P ∧ V.directory = D

theorem Carries.eq (hP : P.Ideal) {D : Directory β} (h : Carries P D (V.toWorld P)) :
    D = V.directory := by
  obtain ⟨W, hW, -, rfl⟩ := h
  exact (Vault.directory_eq hP hW).symm

theorem carries_empty : Carries P Directory.empty (World.empty : World β) :=
  ⟨.empty, rfl, ⟨by nofun, ⟨by nofun, by nofun⟩⟩, rfl⟩

variable [DecidableEq β] {o : Op β} {count : ℤ → Scalar}

section Again

namespace Directory

variable {D : Directory β}

theorem joinEntry_joinEntry (e : List β × List (List β)) :
    joinEntry u (joinEntry u e) = joinEntry u e := by
  by_cases h : u ∈ e.2
  · simp [joinEntry, h]
  · simp [joinEntry, h]

theorem leaveEntry_leaveEntry (e : List β × List (List β)) :
    leaveEntry u (leaveEntry u e) = leaveEntry u e := by
  simp [leaveEntry]

theorem join_join : (D.join g u).join g u = D.join g u := by
  refine congrArg (Directory.mk D.users) (Keyed.modify_eq_self _ ?_)
  intro e he hg
  obtain ⟨e, -, rfl⟩ := List.mem_map.mp he
  split at hg
  · rename_i h
    rw [if_pos h, joinEntry_joinEntry]
  · contradiction

theorem leave_leave : (D.leave g u).leave g u = D.leave g u := by
  refine congrArg (Directory.mk D.users) (Keyed.modify_eq_self _ ?_)
  intro e he hg
  obtain ⟨e, -, rfl⟩ := List.mem_map.mp he
  split at hg
  · rename_i h
    rw [if_pos h, leaveEntry_leaveEntry]
  · contradiction

theorem join_founded (hg : g ∉ D.groups.keys) :
    ({ D with groups := D.groups.add (g, [u]) } : Directory β).join g u =
      { D with groups := D.groups.add (g, [u]) } := by
  refine congrArg (Directory.mk D.users) (Keyed.modify_eq_self _ ?_)
  intro e he hk
  rcases (Keyed.mem_add hg).mp he with he | rfl
  · exact absurd (Keyed.mem_keys.mpr ⟨e, he, hk⟩) hg
  · simp [joinEntry]

theorem createUser_add (hu : u ∉ D.users.keys) : (step (.createUser u key)
    { D with users := D.users.add (u, key) }).2 = (step (.createUser u key) D).2 := by
  have hin : u ∈ (D.users.add (u, key)).keys :=
    Keyed.mem_keys.mpr ⟨_, (Keyed.mem_add hu).mpr (.inr rfl), rfl⟩
  rw [step, step, if_pos hin, if_neg hu]

theorem createGroup_add (hu : u ∈ D.users.keys) (hg : g ∉ D.groups.keys) :
    (step (.createGroup g u) { D with groups := D.groups.add (g, [u]) }).2 =
      (step (.createGroup g u) D).2 := by
  have hin : g ∈ (D.groups.add (g, [u])).keys :=
    Keyed.mem_keys.mpr ⟨_, (Keyed.mem_add hg).mpr (.inr rfl), rfl⟩
  rw [step, step, if_pos hu, if_neg hg, if_pos hu, if_pos hin, join_founded hg]

theorem createGroup_join (hu : u ∈ D.users.keys) (hg : g ∈ D.groups.keys) :
    (step (.createGroup g u) (D.join g u)).2 = (step (.createGroup g u) D).2 := by
  have hu' : u ∈ (D.join g u).users.keys := hu
  have hg' : g ∈ (D.join g u).groups.keys := by rwa [join, Keyed.keys_modify]
  rw [step, step, if_pos hu, if_pos hg, if_pos hu', if_pos hg', join_join]

theorem addUserToGroup_join (hu : u ∈ D.users.keys) :
    (step (.addUserToGroup g u) (D.join g u)).2 = (step (.addUserToGroup g u) D).2 := by
  have hu' : u ∈ (D.join g u).users.keys := hu
  rw [step, step, if_pos hu, if_pos hu', join_join]

theorem elems_leave_eq_nil : (D.leave g u).groups.elems = [] ↔ D.groups.elems = [] :=
  List.map_eq_nil_iff

theorem deleteUser_leave :
    (step (.deleteUser u) (D.leave g u)).2 = (step (.deleteUser u) D).2 := by
  by_cases h : D.groups.elems = []
  · have hself : D.leave g u = D := by
      refine congrArg (Directory.mk D.users) (Keyed.modify_eq_self _ fun e he _ => ?_)
      rw [Keyed.mem_def, h] at he
      cases he
    rw [hself]
  · have hgroups : (D.leave g u).groups.map (leaveEntry u) (leaveEntry_fst u) =
        D.groups.map (leaveEntry u) (leaveEntry_fst u) := by
      ext1
      change (List.map _ D.groups.elems).map _ = D.groups.elems.map _
      rw [List.map_map]
      refine List.map_congr_left fun e _ => ?_
      rw [Function.comp_apply]
      split
      · exact leaveEntry_leaveEntry e
      · rfl
    rw [step, step, if_neg h, if_neg (mt elems_leave_eq_nil.mp h), hgroups]
    rfl

theorem deleteUser_erase (h : D.groups.elems ≠ []) :
    (step (.deleteUser u) { D with users := D.users.erase u }).2 =
      (step (.deleteUser u) D).2 := by
  have husers : (D.users.erase u).erase u = D.users.erase u := by
    ext1
    simp [Keyed.erase, Keyed.sub, List.filter_filter]
  rw [step, step, if_neg h, if_neg h, husers]

end Directory

end Again

section Cut

variable {T : Directory β}

/-- The calls that have come to a sound database from which the operation leads to `T`. -/
def Vault.Toward (P : Primitives β) (o : Op β) (T : Directory β) (V : Vault β) : Prop :=
  V.Sound P ∧ (Directory.step o V.directory).2 = T

theorem Vault.Toward.register (hV : V.Toward P (.createUser u key) T) (hkey : key.length = keySize)
    (hu : u ∉ V.accounts.keys) : (V.register u key iv).Toward P (.createUser u key) T := by
  have hu' : u ∉ V.directory.users.keys := by rwa [Vault.directory_users_keys]
  refine ⟨⟨hV.1.signed.register, hV.1.keySized.register hu hkey⟩, ?_⟩
  rw [Vault.directory_register, Directory.createUser_add hu', hV.2]

theorem Vault.Toward.establish {m : Member β} (hV : V.Toward P (.createGroup g m.user) T)
    (hm : V.HasAccount m.user m.key) (hg : g ∉ V.groups.keys) :
    (V.establish P g iv m).Toward P (.createGroup g m.user) T := by
  obtain ⟨a, ha, hau, hk⟩ := hm
  have hkey : m.key.length = keySize := hk ▸ hV.1.keySized.account a ha
  have hu : m.user ∈ V.directory.users.keys := by
    rw [Vault.directory_users_keys]
    exact Keyed.mem_keys.mpr ⟨a, ha, hau⟩
  have hg' : g ∉ V.directory.groups.keys := by rwa [Vault.directory_groups_keys]
  refine ⟨⟨hV.1.signed.establish hg, hV.1.keySized.establish hg hkey⟩, ?_⟩
  rw [Vault.directory_establish, Directory.createGroup_add hu hg', hV.2]

abbrev towardContract (P : Primitives β) (o : Op β) (T : Directory β) : Contract (World β) :=
  .alone (Toward Directory.step (Carries P) o T)

theorem guar_toward (h : W.Toward P o T) :
    (towardContract P o T).guar (V.toWorld P) (W.toWorld P) :=
  fun _ => ⟨_, ⟨W, rfl, h.1, rfl⟩, h.2⟩

/-- A change of a group goes on toward the same directory if the operation would do the same
after it. -/
theorem edits_toward (hP : P.Ideal) (hL : P.LengthRegular) {c : Change β}
    (hstep : ∀ D : Directory β, g ∈ D.groups.keys →
      (∀ m, c = .join m → (m.user, m.key) ∈ D.users) →
      (Directory.step o (c.onDirectory g D)).2 = (Directory.step o D).2) :
    Edits P (towardContract P o T)
      (fun V => V.Toward P o T ∧ ∀ m, c = .join m → V.HasAccount m.user m.key) g c
      (Group.Sound P) where
  standing := standing_alone
  seen V G hV hG := hV.1.1.group hG
  write := by
    rintro V G H ⟨⟨hV, hT⟩, hm⟩ hG hH hGg rfl hc hsig
    have hkey : ∀ m, c = .join m → m.key.length = keySize := by
      intro m hcm
      obtain ⟨a, ha, -, hk⟩ := hm m hcm
      exact hk ▸ hV.keySized.account a ha
    have husers : ∀ m, c = .join m → (m.user, m.key) ∈ V.directory.users := by
      intro m hcm
      obtain ⟨a, ha, hu, hk⟩ := hm m hcm
      exact List.mem_map.mpr ⟨a, ha, Prod.ext hu hk⟩
    have hgroup : H.name ∈ V.directory.groups.keys := by
      rw [Vault.directory_groups_keys]
      exact Keyed.mem_keys.mpr ⟨H, hH, rfl⟩
    have hW : (V.modify H.name c (G.nextSignature P c)).Toward P o T := by
      refine ⟨hV.modify hP hL hG hH hGg hsig.symm (fun _ => Group.signature_change hc) hkey, ?_⟩
      rw [Vault.directory_modify, hstep _ hgroup husers, hT]
    exact ⟨guar_toward hW, hW, hm⟩

theorem edits_join_toward (hP : P.Ideal) (hL : P.LengthRegular) {m : Member β}
    (hstep : ∀ D : Directory β, g ∈ D.groups.keys → (m.user, m.key) ∈ D.users →
      (Directory.step o (D.join g m.user)).2 = (Directory.step o D).2) :
    Edits P (towardContract P o T) (fun V => V.Toward P o T ∧ V.HasAccount m.user m.key) g
      (.join m) (Group.Sound P) := by
  have h : Edits P (towardContract P o T) _ g (.join m) (Group.Sound P) :=
    edits_toward hP hL fun D hg hm => hstep D hg (hm m rfl)
  have hiff : ∀ V : Vault β, (∀ n, Change.join m = .join n → V.HasAccount n.user n.key) ↔
      V.HasAccount m.user m.key :=
    fun V => ⟨fun hn => hn m rfl, by rintro hm _ ⟨⟩; exact hm⟩
  simpa only [hiff] using h

theorem edits_leave_toward (hP : P.Ideal) (hL : P.LengthRegular)
    (hstep : ∀ D : Directory β, g ∈ D.groups.keys →
      (Directory.step o (D.leave g u)).2 = (Directory.step o D).2) :
    Edits P (towardContract P o T) (Vault.Toward P o T) g (.leave u) (Group.Sound P) := by
  have h : Edits P (towardContract P o T) _ g (.leave u) (Group.Sound P) :=
    edits_toward hP hL fun D hg _ => hstep D hg
  simpa using h

theorem sweeps_toward (hP : P.Ideal) (hL : P.LengthRegular) :
    Sweeps P (Honest count) (towardContract P (.deleteUser u) T) u
      (fun cur Gs V => (V.Toward P (.deleteUser u) T ∧ V.groups.elems ≠ []) ∧ OverGroups cur ∧
        ∀ G ∈ Gs, G.Sound P)
      (fun Gs V => (V.Toward P (.deleteUser u) T ∧ V.groups.elems ≠ []) ∧
        ∀ G ∈ Gs, G.Sound P) where
  reading _ _ := standing_alone
  writing _ := standing_alone
  overGroups _ _ _ h := h.2.1
  visit := by
    rintro V cur cur' Gs G ⟨hV, -, hGs⟩ hG hover -
    refine ⟨hV, hover, fun H hH => ?_⟩
    rcases List.mem_append.mp hH with hH | hH
    · exact hGs H hH
    · exact List.mem_singleton.mp hH ▸ hV.1.1.group hG
  finish _ _ _ h _ := ⟨h.1, h.2.2⟩
  write := by
    rintro V G H Gs ⟨⟨⟨hV, hT⟩, hne⟩, hGs⟩ hH he
    obtain ⟨-, hname, -, hsig⟩ := Group.eq_of_toDoc_eq hP he
    have hW : (V.modify G.name (.leave u) (G.nextSignature P (.leave u))).Toward P (.deleteUser u)
        T := by
      constructor
      · rw [← hname]
        exact hV.modify hP hL (hGs G (List.mem_cons_self ..)) hH hname.symm hsig.symm
          (c := .leave u) (fun _ => rfl) (by nofun)
      · rw [Vault.directory_modify]
        exact Directory.deleteUser_leave.trans hT
    have hne' : (V.modify G.name (.leave u) (G.nextSignature P (.leave u))).groups.elems ≠ [] :=
      fun hnil => hne (List.map_eq_nil_iff.mp hnil)
    exact ⟨guar_toward hW, ⟨hW, hne'⟩, fun G hG => hGs G (List.mem_cons_of_mem _ hG)⟩
  miss _ _ _ h _ _ := ⟨h.1, fun G hG => h.2 G (List.mem_cons_of_mem _ hG)⟩
  forget := by
    rintro V ⟨⟨⟨hV, hT⟩, hne⟩, hGs⟩
    have hdir : (V.forget u).directory =
        { V.directory with users := V.directory.users.erase u } := by
      simp only [Vault.directory, ← Keyed.map_erase]
      rfl
    have hW : (V.forget u).Toward P (.deleteUser u) T := by
      refine ⟨⟨hV.signed.sub, hV.keySized.sub⟩, ?_⟩
      rw [hdir, Directory.deleteUser_erase (mt Vault.directory_groups_nil.mp hne), hT]
    exact ⟨guar_toward hW, ⟨hW, hne⟩, hGs⟩

theorem sweepSteps_idle {K : Contract (World β)} {A : Vault β → Prop} (hA : Standing P K A)
    (hno : ∀ V, A V → V.groups.elems = []) : SweepSteps (K.rule (Honest count)) P u
      (fun cur bulk w => (OverGroups cur ∧ bulk = []) ∧ Held P A w) (fun _ _ _ _ => False)
      (fun bulk _ => bulk = []) (fun _ _ => True) where
  quiet_round _ _ := .and (hA.quiet honestAnswers_self)
  quiet_read _ _ _ := fun _ _ _ h => h.elim
  next := by
    rintro cur _ w ⟨⟨hcur, rfl⟩, hw⟩
    refine hA.pre hw ?_
    rintro W ⟨d, cur'⟩ w' hW h
    obtain ⟨rfl, ⟨G, hG, -⟩ | ⟨-, rfl⟩⟩ := honest_nextGroup hcur h
    · rw [Keyed.mem_def, hno W hW] at hG
      cases hG
    · exact ⟨K.guar_refl _, rfl⟩
  stop _ _ _ _ _ h := h.elim
  queue _ _ _ _ _ h := h.elim

theorem safe_deleteUser_idle {K : Contract (World β)} {A : Vault β → Prop} (hA : Standing P K A)
    (hno : ∀ V, A V → V.groups.elems = []) (hV : A V) :
    Safe (Honest count) K (fun _ _ => True) (deleteUser P u) (V.toWorld P) := by
  have hdrop : DropSteps (K.rule (Honest count)) P u (fun _ _ => False) (fun _ _ => True) := {
    quiet_write := fun _ _ _ _ h => h.elim
    quiet_done := fun _ => quiet_true honestAnswers_self
    write := fun _ _ _ _ h => h.elim
    delete := fun _ h => h.elim }
  refine (sweepSteps_idle hA hno).judged_deleteUser hdrop (fun bulk w hbulk => ?_) sound_safe
    loops_safe (fun _ _ _ => safe_ofExcept_iff.mpr fun _ _ => trivial)
    ⟨⟨⟨rfl, rfl, rfl⟩, rfl⟩, V, rfl, hV⟩
  rw [if_pos hbulk]
  trivial

/-- Each write of an operation that runs alone keeps it on the way to the same directory. -/
theorem safe_toward (hP : P.Ideal) (hL : P.LengthRegular) (ho : o.KeySized)
    (hV : V.Toward P o T) :
    Safe (Honest count) (towardContract P o T) (fun _ _ => True) (o.prog P) (V.toWorld P) := by
  have hA : Standing P (towardContract P o T) (Vault.Toward P o T) := standing_alone
  cases o with
  | createUser u key =>
    refine safe_createUser hP honestAnswers_self hA (fun W iv hW hu => ?_) hV
    exact guar_toward (hW.register ho hu)
  | createGroup g u =>
    have hedit : ∀ m : Member β, m.user = u → Edits P (towardContract P (.createGroup g u) T)
        (fun V => V.Toward P (.createGroup g u) T ∧ V.HasAccount u m.key) g (.join m)
        (Group.Sound P) := by
      rintro m rfl
      exact edits_join_toward hP hL fun D hg hm =>
        Directory.createGroup_join (Directory.mem_users_keys hm) hg
    refine safe_createGroup (B := fun key V => V.Toward P (.createGroup g u) T ∧
      V.HasAccount u key) hP honestAnswers_self hA (fun _ _ => .intro) ?_ hedit hV
    rintro W iv m rfl ⟨hW, hacc⟩ hg
    exact guar_toward (hW.establish hacc hg)
  | addUserToGroup g u =>
    have hedit : ∀ m : Member β, m.user = u → Edits P (towardContract P (.addUserToGroup g u) T)
        (fun V => V.Toward P (.addUserToGroup g u) T ∧ V.HasAccount u m.key) g (.join m)
        (Group.Sound P) := by
      rintro m rfl
      exact edits_join_toward hP hL fun D _ hm =>
        Directory.addUserToGroup_join (Directory.mem_users_keys hm)
    exact safe_addUserToGroup (B := fun key V => V.Toward P (.addUserToGroup g u) T ∧
      V.HasAccount u key) hP honestAnswers_self hA (fun _ _ => .intro) hedit hV
  | removeUserFromGroup g u =>
    refine safe_removeUserFromGroup hP honestAnswers_self (edits_leave_toward hP hL ?_) hV
    intro D _
    exact Directory.leave_leave
  | deleteUser u =>
    by_cases hne : V.groups.elems = []
    · have hidle : Standing P (towardContract P (.deleteUser u) T)
          (fun V => V.groups.elems = []) := standing_alone
      exact safe_deleteUser_idle hidle (fun _ => id) hne
    · have hnil : ∀ G ∈ ([] : List (Group β)), G.Sound P := fun G hG =>
        absurd hG List.not_mem_nil
      exact ((sweeps_toward hP hL).safe_deleteUser hP honestAnswers_self
        ⟨⟨hV, hne⟩, ⟨rfl, rfl, rfl⟩, hnil⟩).mono fun _ _ _ => trivial
  | deleteAllData =>
    refine safe_deleteAllData honestAnswers_self hA (fun W as gs has hgs hW => ?_) hV
    have hW' : (W.sub as gs has hgs).Toward P .deleteAllData T :=
      ⟨⟨hW.1.signed.sub, hW.1.keySized.sub⟩, hW.2⟩
    exact ⟨guar_toward hW', hW'⟩

theorem restartable_directory (hP : P.Ideal) (hL : P.LengthRegular) (count : ℤ → Scalar) :
    Restartable (Honest count) (Op.prog P) Directory.step Op.KeySized (Carries P) := by
  apply restartable_of_safe
  rintro o ho _ _ ⟨V, rfl, hV, rfl⟩
  exact safe_toward hP hL ho ⟨hV, rfl⟩

end Cut

section Stopped

theorem soundStore_evals (hP : P.Ideal) (hL : P.LengthRegular) (ho : o.KeySized)
    (hV : V.Sound P) {r : Except Stop Unit} {w : World β}
    (h : (o.prog P).Evals (Honest count) (V.toWorld P) r w) : SoundStore P w :=
  (safe_sound hP hL ho hV).invariant (fun hguar => hguar) h ⟨V, rfl, hV⟩

theorem simulates_carried (hP : P.Ideal) (hL : P.LengthRegular) (count : ℤ → Scalar) :
    Simulates (Honest count) (Op.prog P) Directory.step Except.isOk Op.KeySized (Carries P) := by
  rintro o ho _ _ ⟨V, rfl, hV, rfl⟩
  apply ((wp_step hP count hV.signed o).and_evals fun r t => soundStore_evals hP hL ho hV).mono
  rintro r w ⟨⟨hr, W, rfl, -, -, hD⟩, U, hU, hsound⟩
  refine ⟨hr, U, hU, hsound, ?_⟩
  rw [← hD, Vault.directory_eq hP hU]

/-- Sessions of operations that are started over wherever they are cut off change the directory as
sessions in which nothing is cut off. -/
theorem retried_directory (hP : P.Ideal) (hL : P.LengthRegular) (count : ℤ → Scalar)
    {hist : List (Op β × Except Stop Unit)} (hk : ∀ x ∈ hist, x.1.KeySized) {D : Directory β}
    {w w' : World β} (hw : Carries P D w) (h : Retried (Honest count) (Op.prog P) w hist w') :
    Carries P (runMachine Directory.step D (hist.map Prod.fst)).2 w' :=
  h.simulation (simulates_carried hP hL count) (restartable_directory hP hL count) hk hw

/-- A registration that is cut off before its answer arrives, and then refused. -/
theorem retried_directory_sample : ∃ hist w,
    Retried (Honest .int64) (Op.prog Primitives.nat) World.empty hist w ∧
    hist.map Prod.fst = [.createUser [1] (.replicate 32 7)] ∧
    hist.map (fun x => x.2.isOk) = [false] ∧
    Carries Primitives.nat (runMachine Directory.step Directory.empty (hist.map Prod.fst)).2 w := by
  have hP := Primitives.nat_ideal
  have hL := Primitives.nat_lengthRegular
  let o : Op ℕ := .createUser [1] (.replicate 32 7)
  have ho : o.KeySized := rfl
  have hsim := simulates_carried hP hL .int64
  obtain ⟨r, t, hr, hok, ht⟩ := (hsim o ho _ _ carries_empty).exists_evals (honest_total .int64)
  obtain ⟨r', w, hr', hok', -⟩ := (hsim o ho _ t ht).exists_evals (honest_total .int64)
  have h : Retried (Honest .int64) (Op.prog Primitives.nat) World.empty [(o, r')] w :=
    .cut hr (.cons hr' (.nil w))
  have hk : ∀ x ∈ [(o, r')], x.1.KeySized := by
    intro x hx
    rw [List.mem_singleton.mp hx]
    exact ho
  exact ⟨_, w, h, rfl, congrArg (fun b => [b]) hok',
    retried_directory hP hL .int64 hk carries_empty h⟩

section Requests

def Request.KeySized : Request β → Prop
  | .op o => o.KeySized
  | _ => True

def Directory.next : Request β → Directory β → Directory β
  | .op o, D => (step o D).2
  | _, D => D

/-- What the database answers to a request that nobody disturbs: what its directory does, and for a
group the keys that its documents hold. -/
def Vault.Answers (V : Vault β) : Request β → Except Stop (Answer β) → Prop
  | .op o, r => r.isOk = (Directory.step o V.directory).1
  | .getKeysOfGroup g, r =>
      (g ∉ V.groups.keys ∧
        r = .error (.thrown (bsonError "No matching group to validate" 487))) ∨
      ∃ G ∈ V.groups, G.name = g ∧ ∃ ks, r = .ok (.keys ks) ∧
        ks.map List.Vector.toList = G.members.map Member.key
  | .isUserPartOfGroup g u, r => r = .ok (.member (decide (u ∈ V.directory.membersOf g)))

variable {q : Request β}

theorem wp_request (hP : P.Ideal) (hL : P.LengthRegular) (hq : q.KeySized) (hV : V.Sound P) :
    Wp (Honest count) (fun r w => V.Answers q r ∧ Carries P (V.directory.next q) w)
      (q.prog P) (V.toWorld P) := by
  have hcarries : Carries P V.directory (V.toWorld P) := ⟨V, rfl, hV, rfl⟩
  cases q with
  | op o =>
    apply Wp.bind
    apply (simulates_carried hP hL count o hq _ _ hcarries).mono
    rintro (e | a) w ⟨hr, hw⟩
    · exact ⟨hr, hw⟩
    · exact .pure ⟨hr, hw⟩
  | getKeysOfGroup g =>
    apply Wp.bind
    by_cases hg : g ∈ V.groups.keys
    · obtain ⟨G, hG, rfl⟩ := Keyed.mem_keys.mp hg
      apply (wp_getKeysOfGroup hP hG (hV.signed G hG) (hV.keySized.group G hG)).mono
      rintro r w ⟨rfl, ks, rfl, hks⟩
      exact .pure ⟨.inr ⟨G, hG, rfl, ks, rfl, hks⟩, hcarries⟩
    · apply (wp_getKeysOfGroup_missing hP hg).mono
      rintro r w ⟨rfl, rfl⟩
      exact ⟨.inl ⟨hg, rfl⟩, hcarries⟩
  | isUserPartOfGroup g u =>
    apply Wp.bind
    apply (wp_isUserPartOfGroup hP).mono
    rintro r w ⟨rfl, b, rfl, hb⟩
    have hb' : b = decide (u ∈ V.directory.membersOf g) := by
      rw [Bool.eq_iff_iff, decide_eq_true_iff, Vault.mem_membersOf_directory]
      exact hb
    exact .pure ⟨by rw [hb']; rfl, hcarries⟩

theorem safe_sound_request (hP : P.Ideal) (hL : P.LengthRegular) (hq : q.KeySized)
    (hV : V.Sound P) :
    Safe (Honest count) (.keeping (SoundStore P)) (fun _ _ => True) (q.prog P) (V.toWorld P) := by
  have hreads : (∀ o, q ≠ .op o) → Safe (Honest count) (.keeping (SoundStore P))
      (fun _ _ => True) (q.prog P) (V.toWorld P) := by
    intro hq
    refine (records_reads hq).safe (fun _ _ _ _ _ => trivial) ?_ _
    intro _ c w r w' hc hr
    rw [honest_of_not_writes hc hr]
    exact Contract.guar_refl _ w
  cases q with
  | op o =>
    apply Safe.bind
    apply (safe_sound hP hL hq hV).mono
    rintro (e | a) t -
    · trivial
    · exact safe_pure_iff.mpr fun _ _ => trivial
  | getKeysOfGroup g => exact hreads (by nofun)
  | isUserPartOfGroup g u => exact hreads (by nofun)

/-- Wherever the calls of a run stand, and should none of them go on, the database is sound, and
every request that is then made returns with its answer and with the effect on its directory. -/
theorem run_stopped {ι : Type} [DecidableEq ι] (hP : P.Ideal) (hL : P.LengthRegular)
    (count : ℤ → Scalar) (reqs : ι → Request β) (hk : ∀ i, (reqs i).KeySized)
    {evs : List (Event ι (Call β))} {cfg : Config ι (Call β) Reply Stop (Answer β) (World β)}
    (hr : Run (Honest count) (fun i => (reqs i).prog P) (fun _ _ => True) (.start World.empty) evs
      cfg) :
    ∃ V : Vault β, cfg.world = V.toWorld P ∧ V.Sound P ∧ ∀ q : Request β, q.KeySized →
      Wp (Honest count) (fun r w => V.Answers q r ∧ Carries P (V.directory.next q) w) (q.prog P)
        cfg.world := by
  have hsound : SoundStore P cfg.world := by
    refine hr.invariant ?_ soundStore_empty
    rintro i _ ⟨V, rfl, hV⟩
    exact safe_sound_request hP hL (hk i) hV
  obtain ⟨V, hw, hV⟩ := hsound
  refine ⟨V, hw, hV, fun q hq => ?_⟩
  rw [hw]
  exact wp_request hP hL hq hV

/-- A registration is stopped when its record is written; a group can be created with the user. -/
theorem run_stopped_sample :
    ∃ (evs : List (Event Unit (Call ℕ)))
      (cfg : Config Unit (Call ℕ) Reply Stop (Answer ℕ) (World ℕ)),
      Run (Honest .int64)
        (fun _ => (Request.op (.createUser [1] (.replicate 32 7))).prog Primitives.nat)
        (fun _ _ => True) (.start World.empty) evs cfg ∧
      (∃ p, cfg.status () = .running p) ∧
      Wp (Honest .int64) (fun r _ => r.isOk = true)
        ((Request.op (.createGroup [5] [1])).prog Primitives.nat) cfg.world := by
  have hP := Primitives.nat_ideal
  have hL := Primitives.nat_lengthRegular
  let q : Request ℕ := .op (.createUser [1] (.replicate 32 7))
  have hq : Wp (Honest .int64) (fun _ w => ∃ iv,
      w = (Vault.empty.register [1] (.replicate 32 7) iv).toWorld Primitives.nat)
      (q.prog Primitives.nat) World.empty := by
    apply Wp.bind
    apply (wp_createUser (V := .empty) hP _).mono
    rintro r w (⟨-, rfl, iv, rfl⟩ | ⟨hu, -⟩)
    · exact .pure ⟨iv, rfl⟩
    · cases hu
  obtain ⟨r, w, hr, iv, rfl⟩ := hq.exists_evals (honest_total .int64)
  let cfg : Config Unit (Call ℕ) Reply Stop (Answer ℕ) (World ℕ) :=
    (Config.start World.empty).set World.empty () (.running (q.prog Primitives.nat))
  have hstart : Run (Honest .int64) (fun _ : Unit => q.prog Primitives.nat) (fun _ _ => True)
      (.start World.empty) _ cfg := .snoc (.nil _) trivial (.invoke (i := ()) rfl)
  have hrunning : cfg.status () = .running (q.prog Primitives.nat) := Config.set_status_self ..
  obtain ⟨evs, hrun⟩ := Prog.Steps.run .refl hr hrunning rfl
  have hrun' := hstart.trans hrun
  obtain ⟨V, hV, -, hrest⟩ := run_stopped hP hL .int64 (fun _ => q) (fun _ => rfl) hrun'
  have hdir : V.directory = (Vault.empty.register [1] (.replicate 32 7) iv).directory :=
    (Vault.directory_eq hP hV).symm
  refine ⟨_, _, hrun', ⟨_, Config.set_status_self ..⟩, ?_⟩
  apply (hrest (.op (.createGroup [5] [1])) trivial).mono
  rintro r w ⟨hok, -⟩
  rw [Vault.Answers, hdir] at hok
  exact hok.trans rfl

end Requests

end Stopped

end MongoSgx
