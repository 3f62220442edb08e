import MongoSgx.Concurrent.Crashes
import MongoSgx.Interaction.Clients

/-! # Client programs

A client makes any number of requests, lets each depend on the answers so far, loops
and catches what is thrown. Clients that delete nothing cannot tell the database they
share from a directory that serves every request at once; and what a client does when
it runs alone, deletions included, can be read off the directory.
-/

namespace MongoSgx

open Bson Interaction

variable {β γ ι : Type} {P : Primitives β} {V W : Vault β} {D : Directory β} {w : World β}
  {u g key : List β}

/-- Programs over the interface of the database. -/
abbrev Client (β γ : Type) := Prog (Request β) (fun _ => Except Stop (Answer β)) Stop γ

namespace Vault

theorem Coherent.keySized (hC : W.Coherent) (h : W.directory = V.directory)
    (hV : V.KeySized) : W.KeySized := by
  have haccount : ∀ a ∈ W.accounts, a.key.length = keySize := by
    intro a ha
    have hmem : a.listing ∈ V.directory.users :=
      h ▸ List.mem_map_of_mem (f := Account.listing) ha
    obtain ⟨b, hb, hba⟩ := List.mem_map.mp hmem
    have hkey : b.key = a.key := congrArg Prod.snd hba
    exact hkey ▸ hV.account b hb
  refine ⟨haccount, fun G hG m hm => ?_⟩
  obtain ⟨a, ha, -, hkey⟩ := hC G hG m hm
  exact hkey ▸ haccount a ha

end Vault

variable [DecidableEq β]

section Programs

def Client.prog (P : Primitives β) (c : Client β γ) : Enclave β γ := c.through (Request.prog P)

def service : Env (Request β) (fun _ => Except Stop (Answer β)) (Directory β) :=
  fun q D r D' => D.Responds q r D'

/-- What an operation throws when nobody disturbs it and the directory refuses it. -/
def Op.Declines : Op β → Stop → Prop
  | .deleteUser _, e => e = .thrown emptyBulkError
  | o, e => o.Refusal e

/-- The answers to a request that nobody disturbs, with the directories they leave. -/
inductive Directory.Replies :
    Request β → Except Stop (Answer β) → Directory β → Directory β → Prop
  | done {o : Op β} {D : Directory β} (h : (step o D).1 = true) :
      Replies (.op o) (.ok .done) D (step o D).2
  | declined {o : Op β} {e : Stop} {D : Directory β} (h : (step o D).1 = false)
      (he : o.Declines e) : Replies (.op o) (.error e) D D
  | keys {g : List β} {us : List (List β)} {ks : List (Key β)} {D : Directory β}
      (h : (g, us) ∈ D.groups) (hk : ks.map (fun k => some k.toList) = us.map D.keyOf) :
      Replies (.getKeysOfGroup g) (.ok (.keys ks)) D D
  | missing {g : List β} {D : Directory β} (h : g ∉ D.groups.keys) :
      Replies (.getKeysOfGroup g)
        (.error (.thrown (bsonError "No matching group to validate" 487))) D D
  | member {g u : List β} {D : Directory β} :
      Replies (.isUserPartOfGroup g u) (.ok (.member (decide (u ∈ D.membersOf g)))) D D

def alone : Env (Request β) (fun _ => Except Stop (Answer β)) (Directory β) :=
  fun q D r D' => D.Replies q r D'

end Programs

section Shared

variable [DecidableEq ι]

/-- However the driver calls of clients that delete nothing interleave, one directory that serves
every request at once could have given each client the same results, with clients starting and
finishing in the same order, and it ends as that of the database. -/
theorem run_clients (hP : P.Ideal) (hL : P.LengthRegular) {clients : ι → Client β γ}
    (hclients : ∀ i, (clients i).Makes Request.Growing) (hw : Holds P w D)
    {evs : List (Event ι (Call β))} {cfg : Config ι (Call β) Reply Stop γ (World β)}
    (hr : Run (Honest .int64) (fun i => (clients i).prog P) (fun _ _ => True) (.start w) evs cfg) :
    ∃ aevs acfg, Run service clients (fun _ _ => True) (.start D) aevs acfg ∧
      aevs.filterMap Event.border? = evs.filterMap Event.border? ∧
      Holds P cfg.world acfg.world ∧
      ∀ i r, cfg.status i = .finished r ↔ acfg.status i = .finished r := by
  obtain ⟨V, rfl, hV, rfl⟩ := hw
  have hserve : ∀ q : Request β, q.Growing →
      Serving (Honest .int64) (growing P) (Holds P) service q (q.prog P) (V.toWorld P) :=
    fun q hq => serves_request hP hL hq hV
  obtain ⟨aevs, acfg, hrun, hborders, h⟩ := hr.tracked hclients hserve hV.holds
  exact ⟨aevs, acfg, hrun, hborders, h.holds, fun i r => (h.status i).finished_iff⟩

end Shared

section Alone

variable {count : ℤ → Scalar} {α : Type} {q : Request β}

theorem wp_unknown (hP : P.Ideal) (hu : u ∉ V.accounts.keys) (k : List β → Enclave β α) :
    Wp (Honest count) (fun r w => r = .error (.thrown (bsonError "User does not exist" 539)) ∧
      w = V.toWorld P) ((reencryptUserKey P u).bind k) (V.toWorld P) := by
  apply Wp.bind
  apply (wp_reencryptUserKey hP).mono
  rintro r _ ⟨rfl, ⟨a, ha, rfl, -⟩ | ⟨-, rfl⟩⟩
  · exact absurd (Keyed.mem_keys.mpr ⟨a, ha, rfl⟩) hu
  · exact ⟨rfl, rfl⟩

theorem wp_declined (hP : P.Ideal) (hS : V.Signed P) {o : Op β}
    (h : (Directory.step o V.directory).1 = false) :
    Wp (Honest count) (fun r w => (∃ e, r = .error e ∧ o.Declines e) ∧ w = V.toWorld P)
      (o.prog P) (V.toWorld P) := by
  cases o with
  | createUser u key =>
    rw [Directory.step] at h
    split at h
    · rename_i hu
      rw [Vault.directory_users_keys] at hu
      apply (wp_createUser hP key).mono
      rintro r w (⟨hno, -⟩ | ⟨-, ⟨e, rfl, he⟩, rfl⟩)
      · exact absurd hu hno
      · exact ⟨⟨_, rfl, e, rfl, he⟩, rfl⟩
    · cases h
  | createGroup g u =>
    rw [Directory.step] at h
    split at h
    · cases h
    · rename_i hu
      rw [Vault.directory_users_keys] at hu
      apply (wp_unknown hP hu _).mono
      rintro r w ⟨rfl, rfl⟩
      exact ⟨⟨_, rfl, rfl⟩, rfl⟩
  | addUserToGroup g u =>
    rw [Directory.step] at h
    split at h
    · cases h
    · rename_i hu
      rw [Vault.directory_users_keys] at hu
      apply (wp_unknown hP hu _).mono
      rintro r w ⟨rfl, rfl⟩
      exact ⟨⟨_, rfl, rfl⟩, rfl⟩
  | removeUserFromGroup g u => cases h
  | deleteUser u =>
    rw [Directory.step] at h
    split at h
    · rename_i hnil
      apply (wp_deleteUser hP hS).mono
      rintro r w (⟨-, rfl, rfl⟩ | ⟨hne, -, -⟩)
      · exact ⟨⟨_, rfl, rfl⟩, rfl⟩
      · exact absurd (Vault.directory_groups_nil.mp hnil) hne
    · cases h
  | deleteAllData => cases h

theorem wp_op_replies (hP : P.Ideal) (hL : P.LengthRegular) {o : Op β} (ho : o.KeySized)
    (hV : V.Kept P) :
    Wp (Honest count) (fun r w => ∃ D', V.directory.Replies (.op o) (r.map fun _ => .done) D' ∧
      Holds P w D') (o.prog P) (V.toWorld P) := by
  cases hstep : (Directory.step o V.directory).1 with
  | false =>
    apply (wp_declined hP hV.sound.signed hstep).mono
    rintro r w ⟨⟨e, rfl, he⟩, rfl⟩
    exact ⟨_, .declined hstep he, hV.holds⟩
  | true =>
    apply ((wp_step hP count hV.sound.signed o).and_evals
      fun r t => soundStore_evals hP hL ho hV.sound).mono
    rintro r w ⟨⟨hr, W, rfl, hW, hC, hD⟩, U, hU, hsound⟩
    have hcoherent := hC hV.coherent
    have hkept : W.Kept P :=
      ⟨⟨hW, hcoherent.keySized (Vault.directory_eq hP hU) hsound.keySized⟩, hcoherent⟩
    cases r with
    | error e =>
      rw [hstep] at hr
      cases hr
    | ok a => exact ⟨_, .done hstep, W, rfl, hkept, hD⟩

theorem wp_replies (hP : P.Ideal) (hL : P.LengthRegular) (hq : q.KeySized) (hw : Holds P w D) :
    Wp (Honest count) (fun r w' => ∃ D', D.Replies q r D' ∧ Holds P w' D') (q.prog P) w := by
  obtain ⟨V, rfl, hV, rfl⟩ := hw
  cases q with
  | op o =>
    apply Wp.bind
    apply (wp_op_replies hP hL hq hV).mono
    rintro (e | a) w h
    · exact h
    · exact .pure h
  | getKeysOfGroup g =>
    apply Wp.bind
    by_cases hg : g ∈ V.groups.keys
    · obtain ⟨G, hG, rfl⟩ := Keyed.mem_keys.mp hg
      apply (wp_getKeysOfGroup hP hG (hV.sound.signed G hG) (hV.sound.keySized.group G hG)).mono
      rintro r w ⟨rfl, ks, rfl, hks⟩
      have hkeys : ks.map (fun k => some k.toList) = G.users.map V.directory.keyOf := by
        rw [← keys_eq_keyOf hV.coherent hG]
        have hsome := congrArg (List.map some) hks
        rwa [List.map_map, List.map_map] at hsome
      exact .pure ⟨_, .keys (List.mem_map_of_mem (f := Group.listing) hG) hkeys, hV.holds⟩
    · have hg' : g ∉ V.directory.groups.keys := by rwa [Vault.directory_groups_keys]
      apply (wp_getKeysOfGroup_missing hP hg).mono
      rintro r w ⟨rfl, rfl⟩
      exact ⟨_, .missing hg', hV.holds⟩
  | isUserPartOfGroup g u =>
    apply Wp.bind
    apply (wp_isUserPartOfGroup hP).mono
    rintro r w ⟨rfl, b, rfl, hb⟩
    have hb' : b = decide (u ∈ V.directory.membersOf g) := by
      rw [Bool.eq_iff_iff, decide_eq_true_iff, Vault.mem_membersOf_directory]
      exact hb
    subst hb'
    exact .pure ⟨_, .member, hV.holds⟩

section Answers

variable {o : Op β} {Q : Except Stop γ → Directory β → Prop}

theorem wp_alone_done {k : Except Stop (Answer β) → Client β γ}
    (h : (Directory.step o D).1 = true)
    (hk : Wp alone Q (k (.ok .done)) (Directory.step o D).2) : Wp alone Q (.call (.op o) k) D := by
  apply Wp.call
  rintro r D' (h' | ⟨h', -⟩)
  · exact hk
  · rw [h] at h'
    cases h'

theorem wp_alone_declined {k : Except Stop (Answer β) → Client β γ}
    (h : (Directory.step o D).1 = false) (hk : ∀ e, o.Declines e → Wp alone Q (k (.error e)) D) :
    Wp alone Q (.call (.op o) k) D := by
  apply Wp.call
  rintro r D' (h' | ⟨-, he⟩)
  · rw [h] at h'
    cases h'
  · exact hk _ he

theorem wp_alone_keys {k : Except Stop (Answer β) → Client β γ} {us : List (List β)}
    (h : (g, us) ∈ D.groups)
    (hk : ∀ ks : List (Key β), ks.map (fun k => some k.toList) = us.map D.keyOf →
      Wp alone Q (k (.ok (.keys ks))) D) : Wp alone Q (.call (.getKeysOfGroup g) k) D := by
  apply Wp.call
  rintro r D' h'
  cases h' with
  | keys h' hks =>
    obtain rfl := congrArg Prod.snd (Keyed.eq_of_key_eq h h' rfl)
    exact hk _ hks
  | missing hno => exact absurd (Keyed.mem_keys.mpr ⟨_, h, rfl⟩) hno

theorem wp_alone_member {k : Except Stop (Answer β) → Client β γ}
    (hk : Wp alone Q (k (.ok (.member (decide (u ∈ D.membersOf g))))) D) :
    Wp alone Q (.call (.isUserPartOfGroup g u) k) D := by
  apply Wp.call
  rintro r D' ⟨⟩
  exact hk

end Answers

/-- What a client does with a directory of its own, it does with the database. -/
theorem wp_client (hP : P.Ideal) (hL : P.LengthRegular) (count : ℤ → Scalar) {c : Client β γ}
    (hc : c.Makes Request.KeySized) {Q : Except Stop γ → Directory β → Prop}
    (h : Wp alone Q c D) (hw : Holds P w D) :
    Wp (Honest count) (fun r w' => ∃ D', Holds P w' D' ∧ Q r D') (c.prog P) w :=
  h.through (fun q _ _ hq hw => wp_replies (q := q) hP hL hq hw) hc hw

end Alone

section Samples

def founding : Client ℕ Unit :=
  .call (.op (.createUser [1] (.replicate 32 7))) fun
    | .ok _ => .call (.op (.createGroup [5] [1])) fun r => (Prog.ofExcept r).bind fun _ => .pure ()
    | .error e => .throw e

def waiting : Client ℕ Unit :=
  .loop (fun _ => .call (.isUserPartOfGroup [5] [1]) fun
    | .ok (.member true) => .pure (.inr ())
    | _ => .pure (.inl ())) () .pure

theorem founding_makes {φ : Request ℕ → Prop} (hu : φ (.op (.createUser [1] (.replicate 32 7))))
    (hg : φ (.op (.createGroup [5] [1]))) : founding.Makes φ := by
  refine ⟨hu, ?_⟩
  rintro (e | a)
  · trivial
  · refine ⟨hg, ?_⟩
    rintro (e | a)
    · trivial
    · trivial

theorem waiting_makes {φ : Request ℕ → Prop} (hask : φ (.isUserPartOfGroup [5] [1])) :
    waiting.Makes φ := by
  refine ⟨fun _ => ⟨hask, ?_⟩, fun _ => trivial⟩
  rintro (e | _ | _ | (_ | _)) <;> trivial

abbrev founded : Directory ℕ :=
  (Directory.step (.createGroup [5] [1])
    (Directory.step (.createUser [1] (.replicate 32 7)) .empty).2).2

theorem founding_alone :
    Wp alone (fun r D => r = .ok () ∧ D = founded) founding Directory.empty := by
  apply wp_alone_done rfl
  apply wp_alone_done rfl
  exact .pure ⟨rfl, rfl⟩

theorem waiting_alone : Wp alone (fun r _ => r = .ok ()) waiting founded := by
  apply Wp.loop
  apply wp_alone_member
  exact .pure rfl

end Samples

theorem wp_client_sample : Wp (Honest .int64) (fun r w => ∃ D, Holds Primitives.nat w D ∧
    r = .ok () ∧ D = founded) (founding.prog Primitives.nat) World.empty :=
  wp_client Primitives.nat_ideal Primitives.nat_lengthRegular .int64 (founding_makes rfl trivial)
    founding_alone holds_empty

/-- One client waits for the group that the other one founds in the meantime. -/
theorem run_clients_sample : ∃ (evs : List (Event Bool (Call ℕ)))
    (cfg : Config Bool (Call ℕ) Reply Stop Unit (World ℕ))
    (aevs : List (Event Bool (Request ℕ)))
    (acfg : Config Bool (Request ℕ) (fun _ => Except Stop (Answer ℕ)) Stop Unit (Directory ℕ)),
    Run (Honest .int64)
      (fun i => Client.prog Primitives.nat (bif i then waiting else founding)) (fun _ _ => True)
      (.start World.empty) evs cfg ∧ Within true false evs ∧
    Run service (fun i => bif i then waiting else founding) (fun _ _ => True)
      (.start Directory.empty) aevs acfg ∧
    (∀ i, acfg.status i = .finished (.ok ())) ∧
    aevs.filterMap Event.border? = evs.filterMap Event.border? ∧
    Holds Primitives.nat cfg.world acfg.world := by
  have hP := Primitives.nat_ideal
  have hL := Primitives.nat_lengthRegular
  let clients : Bool → Client ℕ Unit := fun i => bif i then waiting else founding
  have hclients : ∀ i, (clients i).Makes Request.Growing := by
    rintro (_ | _)
    · exact founding_makes rfl trivial
    · exact waiting_makes trivial
  have hreplies : ∀ (q : Request ℕ) w D, q.KeySized → Holds Primitives.nat w D →
      Wp (Honest .int64) (fun r w' => ∃ D', alone q D r D' ∧ Holds Primitives.nat w' D')
        (q.prog Primitives.nat) w := fun q w D hq hw => wp_replies hP hL hq hw
  -- the first question is answered before there is a group
  obtain ⟨_, w, hask, _, ⟨⟩, hw⟩ := (hreplies (.isUserPartOfGroup [5] [1]) _ _ trivial
    holds_empty).exists_evals (honest_total .int64)
  let prog : Bool → Enclave ℕ Unit := fun i => (clients i).prog Primitives.nat
  have hround : (prog true).Steps (Honest .int64) World.empty (prog true) w := by
    refine .head .unroll ?_
    rw [Prog.unroll]
    exact (hask.steps_attempt).bind _
  have hrest : Wp (Honest .int64) (fun r w => Wp (Honest .int64)
      (fun r' _ => r = .ok () ∧ r' = .ok ()) (prog true) w) (prog false) w := by
    apply (founding_alone.through hreplies (founding_makes rfl trivial) hw).mono
    rintro _ w ⟨D, hw, rfl, rfl⟩
    apply (waiting_alone.through hreplies (waiting_makes trivial) hw).mono
    rintro _ _ ⟨_, -, rfl⟩
    exact ⟨rfl, rfl⟩
  obtain ⟨evs, cfg, _, _, hrun, hend, hend', ⟨rfl, rfl⟩, hwithin⟩ :=
    hrest.exists_run_between (.start World.empty) (honest_total .int64) Bool.noConfusion rfl rfl
      hround
  obtain ⟨aevs, acfg, harun, hborders, hholds, hstatus⟩ :=
    run_clients hP hL hclients holds_empty hrun
  refine ⟨evs, cfg, aevs, acfg, hrun, hwithin, harun, ?_, hborders, hholds⟩
  rintro (_ | _)
  · exact (hstatus _ _).mp hend'
  · exact (hstatus _ _).mp hend

end MongoSgx
