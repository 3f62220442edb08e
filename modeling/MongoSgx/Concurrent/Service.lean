import Mathlib.Data.Set.Basic
import MongoSgx.Concurrent.Growing

/-! # The directory service

As long as nobody deletes users or empties the database, the whole interface is
linearizable: registrations, group changes, key lists and membership questions of
any number of clients answer as one directory does that serves them one at a time.
A call takes effect at the driver call that decides its answer.
-/

namespace MongoSgx

open Bson Interaction

variable {β : Type} [DecidableEq β] {P : Primitives β} {V W : Vault β} {u g key : List β}
  {α : Type}

section Specification

def Op.Growing : Op β → Prop
  | .createUser _ key => key.length = keySize
  | .createGroup _ _ | .addUserToGroup _ _ | .removeUserFromGroup _ _ => True
  | .deleteUser _ | .deleteAllData => False

def Request.Growing : Request β → Prop
  | .op o => o.Growing
  | .getKeysOfGroup _ | .isUserPartOfGroup _ _ => True

/-- What an operation throws when the directory refuses it. -/
def Op.Refusal : Op β → Stop → Prop
  | .createUser _ _, e => ∃ m : BsonError, e = .thrown m ∧ m.code = mongocErrorDuplicateKey
  | _, e => e = .thrown (bsonError "User does not exist" 539)

/-- The operation edits a group in attempts, of which there are ten. -/
def Op.Attempted : Op β → Prop
  | .createGroup _ _ | .addUserToGroup _ _ | .removeUserFromGroup _ _ => True
  | _ => False

/-- The directory may give the answer to the request, and then is the second one. -/
inductive Directory.Responds :
    Request β → Except Stop (Answer β) → Directory β → Directory β → Prop
  | done {o : Op β} {D : Directory β} (h : (step o D).1 = true) :
      Responds (.op o) (.ok .done) D (step o D).2
  | refused {o : Op β} {e : Stop} {D : Directory β} (h : (step o D).1 = false) (he : o.Refusal e) :
      Responds (.op o) (.error e) D D
  /-- A call whose attempts are used up has changed nothing. -/
  | gaveUp {o : Op β} {D : Directory β} (h : (step o D).1 = true) (ho : o.Attempted) :
      Responds (.op o) (.error (.thrown o.gaveUp)) D D
  | keys {g : List β} {us : List (List β)} {ks : List (Key β)} {D : Directory β}
      (h : (g, us) ∈ D.groups) (hk : ks.map (fun k => some k.toList) = us.map D.keyOf) :
      Responds (.getKeysOfGroup g) (.ok (.keys ks)) D D
  | missing {g : List β} {D : Directory β} (h : g ∉ D.groups.keys) :
      Responds (.getKeysOfGroup g)
        (.error (.thrown (bsonError "No matching group to validate" 487))) D D
  | member {g u : List β} {D : Directory β} :
      Responds (.isUserPartOfGroup g u) (.ok (.member (decide (u ∈ D.membersOf g)))) D D

/-- The directory serves requests one at a time. -/
inductive Directory.History :
    Directory β → List (Request β × Except Stop (Answer β)) → Directory β → Prop
  | nil (D : Directory β) : History D [] D
  | cons {q : Request β} {r : Except Stop (Answer β)} {D D' D'' : Directory β}
      {xs : List (Request β × Except Stop (Answer β))} (h : Responds q r D D')
      (ht : History D' xs D'') : History D ((q, r) :: xs) D''

def Directory.after (q : Request β) (r : Except Stop (Answer β)) (S : Set (Directory β)) :
    Set (Directory β) := {D' | ∃ D ∈ S, Responds q r D D'}

theorem Directory.mem_replay {ι : Type} {reqs : ι → Request β}
    {order : List (ι × Except Stop (Answer β))} {S : Set (Directory β)} {D' : Directory β}
    (h : D' ∈ replay (fun i => after (reqs i)) S order) :
    ∃ D ∈ S, History D (order.map fun x => (reqs x.1, x.2)) D' := by
  induction order generalizing S with
  | nil => exact ⟨D', h, .nil D'⟩
  | cons x order ih =>
    obtain ⟨D₁, ⟨D, hD, hx⟩, h₁⟩ := ih h
    exact ⟨D, hD, .cons hx h₁⟩

def HoldsOne (P : Primitives β) (w : World β) (S : Set (Directory β)) : Prop :=
  ∃ D ∈ S, Holds P w D

/-- One step of the call is where the directory responds to the request, with the answer the call
goes on to return. -/
def Serves (P : Primitives β) (q : Request β) (f : α → Answer β) (p : Enclave β α) (V : Vault β) :
    Prop :=
  Linear (Honest .int64) (growing P) (HoldsOne P) (fun r => Directory.after q (r.map f))
    (fun _ => True) p (V.toWorld P)

end Specification

section Attempts

variable {q : Request β} {r : Except Stop (Answer β)} {φ : Directory β → Prop}

theorem commits_responds (hP : P.Ideal) (hW : W.Kept P) (hgrows : V.directory.Grows W.directory)
    (h : Directory.Responds q r V.directory W.directory) :
    Commits (growing P) (HoldsOne P) (Directory.after q r) (V.toWorld P) (W.toWorld P) := by
  refine ⟨keeps_growing hP hW hgrows, ?_⟩
  rintro S ⟨D, hD, hold⟩
  obtain rfl := hold.eq hP
  exact ⟨_, ⟨_, hD, h⟩, hW.holds⟩

theorem commits_idle (hP : P.Ideal) (hV : V.Kept P)
    (h : Directory.Responds q r V.directory V.directory) :
    Commits (growing P) (HoldsOne P) (Directory.after q r) (V.toWorld P) (V.toWorld P) :=
  commits_responds hP hV (.refl _) h

/-- What a request has to be for the attempts at a change to serve it. -/
structure Revises (P : Primitives β) (q : Request β) (g : List β) (c : Change β)
    (φ : Directory β → Prop) : Prop where
  lasting : Directory.Lasting φ
  member : ∀ m D, c = .join m → φ D → (m.user, m.key) ∈ D.users
  done : ∀ D, φ D → Directory.Responds q (.ok .done) D (c.onDirectory g D)
  exhausted : ∀ D, φ D → Directory.Responds q (.error (.thrown (c.groupEdit P g).exhausted)) D D

theorem Revises.commitments (hP : P.Ideal) (hL : P.LengthRegular) {c : Change β}
    (hc : Revises P q g c φ) :
    Commitments P (growing P) (HoldsOne P)
      (fun r : Except Stop Unit => Directory.after q (r.map fun _ => .done)) (fun _ => True)
      (fun V => V.Kept P ∧ φ V.directory) g c where
  edits := edits_growing hP hL hc.lasting hc.member
  made V G H hV hG hH hGg hn ha hs := by
    obtain ⟨-, hV'⟩ := (edits_growing hP hL hc.lasting hc.member).write V G H hV hG hH hGg hn ha hs
    have hgrows := c.grows g V.directory
    have hdone := hc.done _ hV.2
    rw [← Vault.directory_modify (s := G.nextSignature P c)] at hgrows hdone
    exact ⟨trivial, commits_responds hP hV'.1 hgrows hdone⟩
  idle V hV hno := by
    have hdone := hc.done _ hV.2
    rw [Vault.onDirectory_idle hno] at hdone
    exact ⟨trivial, commits_idle hP hV.1 hdone⟩
  gaveUp V hV := ⟨trivial, commits_idle hP hV.1 (hc.exhausted _ hV.2)⟩

end Attempts

section Requests

variable {q : Request β} {f : α → Answer β}

theorem Directory.Responds.of_step {o : Op β} {D D' : Directory β} (h : step o D = (true, D')) :
    Responds (.op o) (.ok .done) D D' := by
  have hdone := Responds.done (o := o) (D := D) (by rw [h])
  rwa [h] at hdone

/-- The rule under which the directory responds to a request. -/
def servingRule (P : Primitives β) (q : Request β) (f : α → Answer β) :
    CallRule (Call β) Reply (World β × Option (Except Stop α)) :=
  linearRule (Honest .int64) (growing P) (HoldsOne P) (fun r => Directory.after q (r.map f))
    fun _ => True

theorem serves_withKey (hP : P.Ideal) {k : List β → Enclave β α} (hV : V.Kept P)
    (hno : ∀ D : Directory β, u ∉ D.users.keys →
      D.Responds q (.error (.thrown (bsonError "User does not exist" 539))) D)
    (hk : ∀ key iv x, Before P (fun W => W.Kept P ∧ (u, key) ∈ W.directory.users) x →
      (servingRule P q f).Ends (fun r x => x.2 = some r) (k (P.encryptAesgcm iv key)) x) :
    Serves P q f ((reencryptUserKey P u).bind k) V := by
  refine ends_linear_withKey hP (standing_growing Directory.lasting_true)
    (fun key => standing_growing (@Directory.lasting_user β u key)) ?_ (fun W hW hu => ⟨trivial, ?_⟩)
    hk ⟨hV, trivial⟩
  · rintro W key ⟨hW, -⟩ ⟨a, ha, rfl, rfl⟩
    exact ⟨hW, List.mem_map_of_mem (f := Account.listing) ha⟩
  · exact commits_idle hP hW.1 (hno W.directory (by rwa [Vault.directory_users_keys]))

theorem serves_createUser (hP : P.Ideal) (hV : V.Kept P) (hk : key.length = keySize) :
    Serves P (.op (.createUser u key)) (fun _ => .done) (createUser P u key) V := by
  have hA := standing_growing (P := P) Directory.lasting_true
  refine (ends_createUser (A := Before P fun W => W.Kept P ∧ True) hA.quiet_before quiet_fixed
    (fun iv x hx => hA.linear_pre hx ?_) ⟨rfl, V, rfl, hV, trivial⟩).linear
  rintro W r w ⟨hW, -⟩ h
  refine .inr ?_
  rcases honest_insertAccount hP h with ⟨hu, rfl, e, he, rfl⟩ | ⟨hu, rfl, rfl⟩
  · have hcode : e.code ≠ 0 := by rw [he]; decide
    have hstep : (Directory.step (.createUser u key) W.directory).1 = false := by
      rw [Directory.step, if_pos (by rwa [Vault.directory_users_keys])]
    rw [statusEnd, if_pos hcode]
    exact ⟨.error _, ⟨trivial, commits_idle hP hW (.refused hstep ⟨e, rfl, he⟩)⟩, rfl⟩
  · have hW' : (W.register u key iv).Kept P :=
      ⟨⟨hW.sound.signed.register, hW.sound.keySized.register hu hk⟩, hW.coherent.register hu⟩
    have hu' : u ∉ W.directory.users.keys := by rwa [Vault.directory_users_keys]
    have hstep : Directory.step (.createUser u key) W.directory =
        (true, (W.register u key iv).directory) := by
      rw [Directory.step, if_neg hu', Vault.directory_register]
    have hgrows : W.directory.Grows (W.register u key iv).directory := by
      rw [Vault.directory_register]
      exact ⟨fun e he => (Keyed.mem_add hu').mpr (.inl he), fun _ => id⟩
    exact ⟨.ok (), ⟨trivial, commits_responds hP hW' hgrows (.of_step hstep)⟩, rfl⟩

theorem serves_addUserToGroup (hP : P.Ideal) (hL : P.LengthRegular) (hV : V.Kept P) :
    Serves P (.op (.addUserToGroup g u)) (fun _ => .done) (addUserToGroup P g u) V := by
  refine serves_withKey hP hV (fun D hu => ?_) fun key iv x hx => ?_
  · exact .refused (by rw [Directory.step, if_neg hu]) rfl
  have hstep : ∀ D : Directory β, (u, key) ∈ D.users →
      Directory.step (.addUserToGroup g u) D = (true, D.join g u) := fun D hD => by
    rw [Directory.step, if_pos (Directory.mem_users_keys hD)]
  have hc : Revises P (.op (.addUserToGroup g u)) g (.join ⟨u, key, iv⟩)
      (fun D => (u, key) ∈ D.users) := {
    lasting := Directory.lasting_user
    member := by rintro _ D ⟨⟩ hD; exact hD
    done := fun D hD => .of_step (hstep D hD)
    exhausted := fun D hD => .gaveUp (by rw [hstep D hD]) trivial }
  exact ((hc.commitments hP hL).editSteps hP).ends (n := 10) hx

theorem serves_removeUserFromGroup (hP : P.Ideal) (hL : P.LengthRegular) (hV : V.Kept P) :
    Serves P (.op (.removeUserFromGroup g u)) (fun _ => .done) (removeUserFromGroup P g u) V := by
  have hc : Revises P (.op (.removeUserFromGroup g u)) g (.leave u) (fun _ => True) := {
    lasting := Directory.lasting_true
    member := by nofun
    done := fun D _ => .of_step rfl
    exhausted := fun D _ => .gaveUp rfl trivial }
  exact (hc.commitments hP hL).linear hP 9 ⟨hV, trivial⟩

theorem serves_createGroup (hP : P.Ideal) (hL : P.LengthRegular) (hV : V.Kept P) :
    Serves P (.op (.createGroup g u)) (fun _ => .done) (createGroup P g u) V := by
  rw [createGroup_eq]
  refine serves_withKey hP hV (fun D hu => ?_) fun key iv x hx => ?_
  · exact .refused (by rw [Directory.step, if_neg hu]) rfl
  have hstep : ∀ D : Directory β, (u, key) ∈ D.users ∧ g ∈ D.groups.keys →
      Directory.step (.createGroup g u) D = (true, D.join g u) := fun D hD => by
    rw [Directory.step, if_pos (Directory.mem_users_keys hD.1), if_pos hD.2]
  have hc : Revises P (.op (.createGroup g u)) g (.join ⟨u, key, iv⟩)
      (fun D => (u, key) ∈ D.users ∧ g ∈ D.groups.keys) := {
    lasting := Directory.lasting_group
    member := by rintro _ D ⟨⟩ hD; exact hD.1
    done := fun D hD => .of_step (hstep D hD)
    exhausted := fun D hD => .gaveUp (by rw [hstep D hD]) trivial }
  refine ends_linear_createGroup hP (standing_growing (@Directory.lasting_user β u key))
    (fun U iv' hU hg => ⟨trivial, ?_⟩)
    (fun U hU hg => ⟨hU.1, hU.2, by rwa [Vault.directory_groups_keys]⟩) (hc.commitments hP hL) hx
  obtain ⟨hU, hu⟩ := hU
  have hacc := Vault.hasAccount_of_mem_users hu
  have hkey : key.length = keySize := by
    obtain ⟨a, ha, -, rfl⟩ := hacc
    exact hU.sound.keySized.account a ha
  have hU' : (U.establish P g iv' ⟨u, key, iv⟩).Kept P :=
    ⟨⟨hU.sound.signed.establish hg, hU.sound.keySized.establish hg hkey⟩,
      hU.coherent.establish hg hacc⟩
  have hg' : g ∉ U.directory.groups.keys := by rwa [Vault.directory_groups_keys]
  have hdone : Directory.step (.createGroup g u) U.directory =
      (true, (U.establish P g iv' ⟨u, key, iv⟩).directory) := by
    rw [Directory.step, if_pos (Directory.mem_users_keys hu), if_neg hg',
      Vault.directory_establish]
  have hgrows : U.directory.Grows (U.establish P g iv' ⟨u, key, iv⟩).directory := by
    rw [Vault.directory_establish]
    refine ⟨fun _ => id, fun h hh => ?_⟩
    obtain ⟨e, he, hh⟩ := Keyed.mem_keys.mp hh
    exact Keyed.mem_keys.mpr ⟨e, (Keyed.mem_add hg').mpr (.inl he), hh⟩
  exact commits_responds hP hU' hgrows (.of_step hdone)

/-- The keys of a group are those of the moment at which its document is read. -/
theorem keysSteps_serving (hP : P.Ideal) : KeysSteps (servingRule P (.getKeysOfGroup g) .keys) P g
    (Before P fun W => W.Kept P ∧ True)
    (fun d x => ∃ ks, KeysOf P d ks ∧ x.2 = some (.ok ks)) (fun r x => x.2 = some r) where
  quiet_start := (standing_growing Directory.lasting_true).quiet_before
  quiet_read _ := .exists fun _ => .and (quiet_fixed _)
  quiet_done := quiet_fixed
  find := by
    intro x hx
    refine (standing_growing Directory.lasting_true).linear_pre hx ?_
    rintro W ⟨d, cur⟩ w ⟨hW, -⟩ h
    refine .inr ?_
    obtain ⟨rfl, ⟨G, hG, rfl, rfl⟩ | ⟨hg, rfl⟩⟩ := honest_findKeys hP h
    · obtain ⟨ks, hks, hmap⟩ := keysHeld_toDoc hP (hW.sound.keySized.group G hG)
      have hkeys : ks.map (fun k => some k.toList) = G.users.map W.directory.keyOf := by
        rw [← keys_eq_keyOf hW.coherent hG]
        have hsome := congrArg (List.map some) hmap
        rwa [List.map_map, List.map_map] at hsome
      have hlisted : (G.name, G.users) ∈ W.directory.groups :=
        List.mem_map_of_mem (f := Group.listing) hG
      have hvalid : validateGroupSignature P (G.toDoc P) = some true := by
        rw [validateGroupSignature_toDoc, decide_eq_true (hW.sound.signed G hG)]
      exact ⟨.ok ks, ⟨trivial, commits_idle hP hW (.keys hlisted hkeys)⟩, ks, ⟨hvalid, hks⟩, rfl⟩
    · have hg : g ∉ W.directory.groups.keys := by rwa [Vault.directory_groups_keys]
      exact ⟨.error _, ⟨trivial, commits_idle hP hW (.missing hg)⟩, rfl⟩
  stop := by
    rintro d x e ⟨ks, hks, -⟩ he
    exact absurd hks (he.not_keysOf ks)
  done := by
    rintro d x ks ⟨ks', hks', hx⟩ hks
    obtain rfl := Option.some.inj (hks.2.symm.trans hks'.2)
    exact hx

theorem serves_getKeysOfGroup (hP : P.Ideal) (hV : V.Kept P) :
    Serves P (.getKeysOfGroup g) .keys (getKeysOfGroup P g) V :=
  ((keysSteps_serving hP).ends ⟨rfl, V, rfl, hV, trivial⟩).linear

theorem Vault.mem_membersOf_directory :
    u ∈ V.directory.membersOf g ↔ ∃ G ∈ V.groups, G.name = g ∧ u ∈ G.users := by
  have hfind : V.directory.groups.find g = (V.groups.find g).map Group.listing :=
    Keyed.find_map Group.listing_fst
  unfold Directory.membersOf
  rw [hfind]
  cases hg : V.groups.find g with
  | none =>
    have hno := Keyed.find_eq_none_iff.mp hg
    simpa using fun G hG hn => absurd hn (hno G hG)
  | some G =>
    obtain ⟨hG, rfl⟩ := Keyed.find_eq_some_iff.mp hg
    simp only [Option.map_some, Group.listing, List.mem_toFinset]
    constructor
    · exact fun hu => ⟨G, hG, rfl, hu⟩
    · rintro ⟨H, hH, hn, hu⟩
      exact Keyed.eq_of_key_eq hH hG hn ▸ hu

theorem serves_isUserPartOfGroup (hP : P.Ideal) (hV : V.Kept P) :
    Serves P (.isUserPartOfGroup g u) .member (isUserPartOfGroup P g u) V := by
  have hA := standing_growing (P := P) Directory.lasting_true
  refine (ends_isUserPartOfGroup (A := Before P fun W => W.Kept P ∧ True)
    (B := fun r x => r.2.error = none ∧ x.2 = some (.ok r.1.isSome)) hA.quiet_before
    (fun _ => .and (quiet_fixed _)) (fun x hx => hA.linear_pre hx ?_) ?_ ?_
    ⟨rfl, V, rfl, hV, trivial⟩).linear
  · rintro W r w ⟨hW, -⟩ h
    obtain ⟨rfl, herr, hiff⟩ := honest_findMember hP h
    have hmem : r.1.isSome = decide (u ∈ W.directory.membersOf g) := by
      rw [Bool.eq_iff_iff, decide_eq_true_iff, Vault.mem_membersOf_directory]
      exact hiff
    have hresp : W.directory.Responds (.isUserPartOfGroup g u) (.ok (.member r.1.isSome))
        W.directory := by
      rw [hmem]
      exact .member
    exact .inr ⟨.ok r.1.isSome, ⟨trivial, commits_idle hP hW hresp⟩, herr, rfl⟩
  · rintro r e x ⟨herr, -⟩ he
    cases herr.symm.trans he
  · rintro r x ⟨-, hx⟩ -
    exact hx

theorem serves_request (hP : P.Ideal) (hL : P.LengthRegular) (hq : q.Growing) (hV : V.Kept P) :
    Linear (Honest .int64) (growing P) (HoldsOne P) (Directory.after q) (fun _ => True)
      (q.prog P) (V.toWorld P) := by
  cases q with
  | op o =>
    apply Linear.map
    cases o with
    | createUser u key => exact serves_createUser hP hV hq
    | createGroup g u => exact serves_createGroup hP hL hV
    | addUserToGroup g u => exact serves_addUserToGroup hP hL hV
    | removeUserFromGroup g u => exact serves_removeUserFromGroup hP hL hV
    | deleteUser => cases hq
    | deleteAllData => cases hq
  | getKeysOfGroup g => exact Linear.map (serves_getKeysOfGroup hP hV)
  | isUserPartOfGroup g u => exact Linear.map (serves_isUserPartOfGroup hP hV)

end Requests

section Runs

/-- A sequential order of the calls of a run, each with its answer, in which one directory serves
them. -/
structure Served {ι : Type} (P : Primitives β) (reqs : ι → Request β) (D : Directory β)
    (evs : List (Event ι (Call β))) (cfg : Config ι (Call β) Reply Stop (Answer β) (World β))
    (order : List (ι × Except Stop (Answer β))) : Prop where
  nodup : (order.map Prod.fst).Nodup
  invoked : ∀ x ∈ order, cfg.status x.1 ≠ .idle
  returned : ∀ i r, cfg.status i = .finished r → (i, r) ∈ order
  realtime : ∀ i j, Precedes evs i j → j ∈ order.map Prod.fst →
    List.Sublist [i, j] (order.map Prod.fst)
  history : ∃ D', D.History (order.map fun x => (reqs x.1, x.2)) D' ∧ Holds P cfg.world D'

/-- In every run of requests that delete nothing, from the database of any directory, the calls
can be put in an order in which the directory serves them one at a time, with the same answers,
ends as that of the database, and keeps the order of calls that do not overlap. -/
theorem run_served {ι : Type} [DecidableEq ι] (hP : P.Ideal) (hL : P.LengthRegular)
    (reqs : ι → Request β) (hreqs : ∀ i, (reqs i).Growing) {D : Directory β} {w : World β}
    (hw : Holds P w D) {evs : List (Event ι (Call β))}
    {cfg : Config ι (Call β) Reply Stop (Answer β) (World β)}
    (hr : Run (Honest .int64) (fun i => (reqs i).prog P) (fun _ _ => True) (.start w) evs cfg) :
    ∃ order, Served P reqs D evs cfg order := by
  obtain ⟨V, rfl, hV, rfl⟩ := hw
  have hone : HoldsOne P (V.toWorld P) {V.directory} := ⟨_, rfl, hV.holds⟩
  obtain ⟨order, h⟩ := Run.linearized (fun i => serves_request hP hL (hreqs i) hV) hone hr
  refine ⟨order, h.nodup, fun x hx hi => ?_, fun i r => h.mem_of_finished, h.realtime, ?_⟩
  · have hs := h.settled x hx
    rw [hi] at hs
    exact hs
  · obtain ⟨D', hD', hold⟩ := h.rep
    obtain ⟨_, rfl, hhist⟩ := Directory.mem_replay hD'
    exact ⟨D', hhist, hold⟩

/-- Two clients create the same group at the same time: one has fetched the key of its user, the
other one creates the group, and the first adds its user instead. -/
theorem run_served_sample : ∃ reqs : Bool → Request ℕ,
    reqs false = .op (.createGroup [5] [1]) ∧ reqs true = .op (.createGroup [5] [2]) ∧
    ∃ (D : Directory ℕ) (w : World ℕ) (evs : List (Event Bool (Call ℕ)))
      (cfg : Config Bool (Call ℕ) Reply Stop (Answer ℕ) (World ℕ))
      (order : List (Bool × Except Stop (Answer ℕ))),
      Holds Primitives.nat w D ∧
      Run (Honest .int64) (fun i => (reqs i).prog Primitives.nat) (fun _ _ => True) (.start w) evs
        cfg ∧
      (∀ i, cfg.status i = .finished (.ok .done)) ∧ Within true false evs ∧
      Served Primitives.nat reqs D evs cfg order := by
  have hP := Primitives.nat_ideal
  let reqs (b : Bool) : Request ℕ := .op (.createGroup [5] (cond b [2] [1]))
  have hreqs : ∀ i, (reqs i).Growing := fun _ => trivial
  let V : Vault ℕ :=
    (Vault.empty.register [1] (.replicate 32 7) []).register [2] (.replicate 32 8) []
  have hkeys : V.accounts.keys = [[1], [2]] := rfl
  have hS : V.Signed Primitives.nat := by rintro _ ⟨⟩
  have hV : V.Kept Primitives.nat := by
    refine ⟨⟨hS, ⟨?_, by rintro _ ⟨⟩⟩⟩, by rintro _ ⟨⟩⟩
    decide
  let prog : Bool → Enclave ℕ (Answer ℕ) := fun i => (reqs i).prog Primitives.nat
  let rest : List ℕ → Enclave ℕ (Answer ℕ) := fun c =>
    (createGroupWithKey Primitives.nat [5] [2] c).bind fun _ => .pure .done
  have hprog : prog true = (reencryptUserKey Primitives.nat [2]).bind rest :=
    Prog.bind_assoc ..
  have hrace : ∀ a iv, a ∈ V.accounts → a.user = [2] → Wp (Honest .int64) (fun r w =>
      Wp (Honest .int64) (fun r' _ => r = .ok .done ∧ r' = .ok .done)
        (rest (Primitives.nat.encryptAesgcm iv a.key)) w)
      (prog false) (V.toWorld Primitives.nat) := by
    intro a iv _ _
    apply Wp.bind
    apply (wp_createGroup hP hS).mono
    rintro _ _ (⟨b, -, -, rfl, iv', ⟨hg, -⟩ | ⟨hg, iv'', rfl⟩⟩ | ⟨hno, -⟩)
    · cases hg
    · refine .pure (.bind ?_)
      apply (wp_createGroupWithKey hP (hS.establish hg) ⟨[2], a.key, iv⟩).mono
      rintro _ _ ⟨rfl, -⟩
      exact .pure ⟨rfl, rfl⟩
    · rw [hkeys] at hno
      exact absurd (by decide) hno
  obtain ⟨evs, cfg, _, _, hrun, hret, hret', ⟨rfl, rfl⟩, hwithin⟩ := exists_run_behind_key
    (i := true) hP (.start (V.toWorld Primitives.nat)) (by decide) hprog rfl rfl rfl
    (by rw [hkeys]; decide) hrace
  obtain ⟨order, h⟩ := run_served hP Primitives.nat_lengthRegular reqs hreqs hV.holds hrun
  refine ⟨reqs, rfl, rfl, _, _, evs, cfg, order, hV.holds, hrun, ?_, hwithin, h⟩
  rintro (_ | _)
  · exact hret'
  · exact hret

end Runs

end MongoSgx
