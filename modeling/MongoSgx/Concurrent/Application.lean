import MongoSgx.Sequential.Calls
import MongoSgx.Store.Invariants
import MongoSgx.Transcript.Effects

/-! # How often an update is applied

Whether an attempt to add or to remove a member has succeeded is read off the field
`matchedCount` of the reply, as an `int64`. Where the reply carries one, the update of a call is
applied at most once, and not at all if the call gives up. Where the reply carries an `int32`,
the count is read as zero and every attempt is followed by another: a member that
was added, and then removed by somebody else, is added again.
-/

namespace MongoSgx

open Bson Interaction

variable {β : Type} [DecidableEq β]

def Applied {ι : Type} (m : Move ι (Call β) Reply (World β)) : Prop :=
  ∃ sel upd reply, m.line = ⟨.updateOne .groups sel upd, .ok reply⟩ ∧
    ∃ d ∈ m.before.groups, sel.Matches d

inductive Request.EditsMember : Request β → Prop
  | add (g u : List β) : EditsMember (.op (.addUserToGroup g u))
  | remove (g u : List β) : EditsMember (.op (.removeUserFromGroup g u))

def GaveUp (e : BsonError) : Prop :=
  e = bsonError "Unable to add user to group after multiple attempts" 247 ∨
    e = bsonError "Unable to remove user from group after multiple attempts" 322

instance (e : BsonError) : Decidable (GaveUp e) := inferInstanceAs (Decidable (_ ∨ _))

/-- In every history of calls that add or remove one member, no call applies its update twice, and
one that gives up has not applied it. -/
def AtMostOnce (P : Primitives β) (count : ℤ → Scalar) : Prop :=
  ∀ (ι : Type) [DecidableEq ι] (prog : ι → Enclave β (Answer β)) (w : World β)
    (ms : List (Move ι (Call β) Reply (World β)))
    (cfg : Config ι (Call β) Reply Stop (Answer β) (World β)),
    (∀ i, ∃ q : Request β, q.EditsMember ∧ prog i = q.prog P) →
    History (Honest count) prog (.start w) ms cfg → ∀ i,
      (∀ m n, [m, n].Sublist (ms.filter fun m => m.client = i) → Applied m → ¬ Applied n) ∧
      ∀ e, GaveUp e → cfg.status i = .finished (.error (.thrown e)) →
        ∀ m ∈ ms, m.client = i → ¬ Applied m

variable {P : Primitives β} {V : Vault β} {g u key : List β} {G : Group β}

section Once

variable {ι : Type} {m : Move ι (Call β) Reply (World β)}

theorem Applied.effective (h : Applied m)
    (hE : Honest .int64 m.line.call m.before m.line.reply m.after) : Effective m.line := by
  obtain ⟨sel, upd, reply, hline, d, hd, hm⟩ := h
  rw [hline] at hE ⊢
  rcases hE with ⟨n, ds, hu, hr, -⟩ | ⟨-, -, e, -, hr⟩
  · obtain rfl : reply = updateReply .int64 n := Except.ok.inj hr
    change UpdateOne sel upd m.before.groups n ds at hu
    generalize m.before.groups = ds₀ at hu hd
    cases hu with
    | none hno => exact absurd hm (hno d hd)
    | one => exact ⟨1, read_matchedCount 1, le_refl 1⟩
  · cases hr

omit [DecidableEq β] in
theorem Request.EditsMember.not_deletes {q : Request β} (hq : q.EditsMember) : ¬ q.Deletes := by
  cases hq <;> exact id

theorem atMostOnce_int64 : AtMostOnce P .int64 := by
  intro ι _ prog w ms cfg hprog h i
  obtain ⟨q, hq, hi⟩ := hprog i
  constructor
  · intro m n hmn hm hn
    have hmem : ∀ x ∈ [m, n], x ∈ ms := fun x hx => List.mem_of_mem_filter (hmn.subset hx)
    exact changes_once h hi hq.not_deletes hmn (hm.effective (h.env (hmem m (by simp))))
      (hn.effective (h.env (hmem n (by simp))))
  · rintro e - he m hm hmi happ
    refine unmoved_of_error h hi hq.not_deletes he m.line ?_ (happ.effective (h.env hm))
    exact mem_callsOf.mpr ⟨m, hm, hmi, rfl⟩

end Once

section Attempts

def Unfailing (count : ℤ → Scalar) : Env (Call β) Reply (World β) :=
  fun c w r w' => Honest count c w r w' ∧ failure ⟨c, r⟩ = none

def guardOf (P : Primitives β) (c : Change β) (G : Group β) : Selector β :=
  (c.groupEdit P G.name).selector ++ [(["signature"], .eq (.binary G.signature.toList))]

variable {count : ℤ → Scalar} {c : Change β} {n : ℕ} {k : Except BsonError (Doc β) → Enclave β Unit}

/-- An answer from which no matched document can be read is followed by the remaining attempts. -/
def GoesOn (P : Primitives β) (count : ℤ → Scalar) (g : List β) (c : Change β) (n : ℕ)
    (k : Except BsonError (Doc β) → Enclave β Unit) : Prop :=
  ∀ reply v w, matchedCount reply = some v → v < 1 →
    (k (.ok reply)).Steps (Unfailing count) w (editAttempts P (c.groupEdit P g) n) w

theorem editAttempts_reaches (count : ℤ → Scalar) (hP : P.Ideal) (hS : V.Signed P)
    (hG : G ∈ V.groups)
    (happ : c.Applies G) (n : ℕ) :
    (editAttempts P (c.groupEdit P G.name) (n + 1)).Reaches (Unfailing count) (fun q w =>
      w = V.toWorld P ∧ ∃ k, q = .call (.updateOne .groups (guardOf P c G)
        ((c.groupEdit P G.name).update (G.nextSignature P c))) k ∧ GoesOn P count G.name c n k)
      (V.toWorld P) := by
  have hsel := (matches_groupEdit hP).mpr ⟨rfl, happ⟩
  have hmem : G.toDoc P ∈ (V.toWorld P).groups := List.mem_map_of_mem hG
  obtain ⟨cur, hfind⟩ : ∃ cur, Unfailing count
      (.cursorNext (findWithOpts .groups (c.groupEdit P G.name).selector none none)) (V.toWorld P)
      (some (G.toDoc P), cur) (V.toWorld P) :=
    ⟨_, ⟨rfl, .inl ⟨G.toDoc P, G.id, hmem, hsel, docId_toDoc,
      .inl (mem_firstAnswer.mpr ⟨_, hmem, hsel, docId_toDoc⟩), rfl⟩⟩, rfl⟩
  simp only [editAttempts, create, destroy, cursorNext, updateOne, Prog.bind_eq, Prog.request_bind]
  apply Prog.Reaches.call (r := ()) ⟨rfl, rfl⟩
  apply Prog.Reaches.call (r := ()) ⟨rfl, rfl⟩
  apply Prog.Reaches.call hfind
  simp only [validateGroupSignature_toDoc, hS G hG, decide_true, read_some, Prog.pure_bind,
    Bool.not_true, Bool.false_eq_true, ↓reduceIte, read_group_signature, groupEdit_sign hP happ]
  apply Prog.Reaches.call (r := ()) ⟨rfl, rfl⟩
  apply Prog.Reaches.call (r := ()) ⟨rfl, rfl⟩
  refine .here ⟨rfl, _, rfl, fun reply v w hv hlt => ?_⟩
  have hread : (Iter.initFind reply "matchedCount").int64 = some v := hv
  simp only [hread, read_some, Prog.pure_bind]
  iterate 4 apply Prog.Steps.head (.call (r := ()) ⟨rfl, rfl⟩)
  rw [if_neg (not_le.mpr hlt)]
  exact .refl _ _

variable {ι : Type} [DecidableEq ι] {i : ι} {f : Unit → Enclave β (Answer β)}
  {cfg : Config ι (Call β) Reply Stop (Answer β) (World β)}

theorem exists_update (prog : ι → Enclave β (Answer β)) (count : ℤ → Scalar) (hP : P.Ideal)
    (hS : V.Signed P)
    (hG : G ∈ V.groups) (happ : c.Applies G)
    (hi : cfg.status i = .running ((editAttempts P (c.groupEdit P G.name) (n + 1)).bind f))
    (hw : cfg.world = V.toWorld P) :
    ∃ k, GoesOn P count G.name c n k ∧
      ∃ ms, History (Honest count) prog cfg ms (cfg.set (V.toWorld P) i
        (.running (.call (.updateOne .groups (guardOf P c G)
          ((c.groupEdit P G.name).update (G.nextSignature P c))) fun r => (k r).bind f))) ∧
        CallsOf (Unfailing count) i ms := by
  obtain ⟨_, _, hs, rfl, k, rfl, hk⟩ := editAttempts_reaches count hP hS hG happ n
  exact ⟨k, hk, (hs.bind f).history (fun _ _ _ _ h => h.1) hi hw⟩

theorem exists_retry (prog : ι → Enclave β (Answer β)) {sel : Selector β} {upd : Update β}
    {reply : Doc β} {v : ℤ} {w : World β} (hk : GoesOn P count g c n k)
    (hi : cfg.status i = .running (.call (.updateOne .groups sel upd) fun r => (k r).bind f))
    (hE : Honest count (.updateOne .groups sel upd) cfg.world (.ok reply) w)
    (hv : matchedCount reply = some v) (hlt : v < 1) :
    ∃ ms, History (Honest count) prog cfg
        (⟨i, ⟨.updateOne .groups sel upd, .ok reply⟩, cfg.world, w⟩ :: ms)
        (cfg.set w i (.running ((editAttempts P (c.groupEdit P g) n).bind f))) ∧
      CallsOf (Unfailing count) i ms := by
  have h : History (Honest count) prog cfg _ _ := (History.nil cfg).call hi hE
  obtain ⟨ms, h', hcalls⟩ :
      ∃ ms, History (Honest count) prog _ ms _ ∧ CallsOf (Unfailing count) i ms :=
    Prog.Steps.history (fun _ _ _ _ h => h.1) ((hk reply v w hv hlt).bind f)
      (Config.set_status_self cfg w i _) rfl
  rw [Config.set_set] at h'
  exact ⟨ms, h.trans h', hcalls⟩

end Attempts

section Twice

variable {ι : Type} [DecidableEq ι] {i : ι} {f : Unit → Enclave β (Answer β)} {c : Change β} {n : ℕ}
  {cfg : Config ι (Call β) Reply Stop (Answer β) (World β)}

theorem exists_attempt (prog : ι → Enclave β (Answer β)) (hP : P.Ideal) (hS : V.Signed P)
    (hG : G ∈ V.groups) (hg : G.name = g) (happ : c.Applies G)
    (hi : cfg.status i = .running ((editAttempts P (c.groupEdit P g) (n + 1)).bind f))
    (hw : cfg.world = V.toWorld P) :
    ∃ ms, History (Honest .int32) prog cfg ms (cfg.set ((V.update P g c).toWorld P) i
        (.running ((editAttempts P (c.groupEdit P g) n).bind f))) ∧
      ∃ m ∈ ms, m.client = i ∧ Applied m := by
  subst hg
  have hmatch : (guardOf P c G).Matches (G.toDoc P) := by
    rw [guardOf, Selector.matches_append, matches_signature]
    exact ⟨(matches_groupEdit hP).mpr ⟨rfl, happ⟩, rfl⟩
  obtain ⟨k, hk, ms, h, -⟩ := exists_update prog .int32 hP hS hG happ hi hw
  have hupdate : Honest .int32 (.updateOne .groups (guardOf P c G)
      ((c.groupEdit P G.name).update (G.nextSignature P c))) (V.toWorld P)
      (.ok (updateReply .int32 1)) ((V.update P G.name c).toWorld P) := by
    obtain ⟨r, w, h⟩ := honest_total .int32 (.updateOne .groups (guardOf P c G)
      ((c.groupEdit P G.name).update (G.nextSignature P c))) (V.toWorld P)
    rcases honest_edit hP h with ⟨-, -, hno⟩ | ⟨rfl, rfl, -⟩
    · exact absurd rfl (hno G hG rfl happ)
    · rwa [Vault.modify_eq_update hG] at h
  obtain ⟨ms', h', -⟩ := exists_retry prog hk (Config.set_status_self cfg (V.toWorld P) i _)
    hupdate (v := 0) rfl (by decide)
  rw [Config.set_set] at h'
  refine ⟨_, h.trans h', _, List.mem_append_right _ (List.mem_cons_self ..), rfl, ?_⟩
  exact ⟨_, _, _, rfl, G.toDoc P, List.mem_map_of_mem hG, hmatch⟩

omit [DecidableEq ι] in
theorem Vault.exists_rejoin (P : Primitives β) (hg : g ∈ V.groups.keys) (m : Member β) :
    ∃ G ∈ (V.update P g (.leave m.user)).groups, G.name = g ∧ (Change.join m).Applies G := by
  have hkeys : g ∈ (V.update P g (.leave m.user)).groups.keys := by
    rwa [Vault.update, Vault.mapGroups, Keyed.keys_map]
  obtain ⟨G, hG, hname⟩ := Keyed.mem_keys.mp hkeys
  exact ⟨G, hG, hname, Vault.not_applies_update hG hname⟩

/-- Somebody adds a user who is not a member, and somebody else removes the user between two
attempts of that call. -/
theorem exists_applied_twice (hP : P.Ideal) (hS : V.Signed P) (hu : u ∈ V.accounts.keys)
    (hg : g ∈ V.groups.keys) (hno : ∀ G ∈ V.groups, G.name = g → u ∉ G.users) :
    ∃ ms cfg, History (Honest .int32) (fun b => ((if b then .op (.addUserToGroup g u)
        else .op (.removeUserFromGroup g u) : Request β)).prog P) (.start (V.toWorld P)) ms cfg ∧
      ∃ m n, [m, n].Sublist (ms.filter fun m => m.client = true) ∧ Applied m ∧ Applied n := by
  let q : Bool → Request β := fun b =>
    if b then .op (.addUserToGroup g u) else .op (.removeUserFromGroup g u)
  let prog : Bool → Enclave β (Answer β) := fun b => (q b).prog P
  -- the first call fetches the key and makes an attempt
  obtain ⟨r, _, hkey, rfl, ⟨a, ha, rfl, iv, rfl⟩ | ⟨hu', -⟩⟩ :=
    (wp_reencryptUserKey (V := V) (u := u) hP).exists_evals (honest_total .int32)
  rotate_left
  · exact absurd hu hu'
  let c : Change β := .join ⟨a.user, a.key, iv⟩
  have h₀ : History (Honest .int32) prog (.start (V.toWorld P)) [] _ :=
    (History.nil _).invoke (i := true) rfl
  obtain ⟨ms₁, h₁, -⟩ :
      ∃ ms, History (Honest .int32) prog _ ms _ ∧ CallsOf (Honest .int32) true ms :=
    ((hkey.steps_bind _).bind _).history (fun _ _ _ _ h => h) (Config.set_status_self ..) rfl
  obtain ⟨G, hG, hGg⟩ := Keyed.mem_keys.mp hg
  obtain ⟨ms₂, h₂, m, hmem, hmi, hm⟩ := exists_attempt prog (c := c) hP hS hG hGg
    (hno G hG hGg) (Config.set_status_self ..) rfl
  -- the second call takes the member out
  have hS₁ : (V.update P g c).Signed P := hS.update
  obtain ⟨r, _, hrem, rfl, rfl⟩ :=
    (wp_removeUserFromGroup (u := a.user) (g := g) hP hS₁).exists_evals
    (honest_total .int32)
  have hrem' : (prog false).Evals (Honest .int32) ((V.update P g c).toWorld P) (.ok .done) _ :=
    hrem.steps_bind _
  obtain ⟨ms₃, h₃, -⟩ := ((h₀.trans h₁).trans h₂).complete (i := false) rfl hrem'
  -- the first call goes on with its second attempt
  have hg' : g ∈ (V.update P g c).groups.keys := by
    rwa [Vault.update, Vault.mapGroups, Keyed.keys_map]
  obtain ⟨H, hH, hHg, happ⟩ := Vault.exists_rejoin P hg' ⟨a.user, a.key, iv⟩
  have hstatus : ∀ (cfg : Config Bool (Call β) Reply Stop (Answer β) (World β)) w st,
      (cfg.set w false st).status true = cfg.status true :=
    fun cfg w st => Config.set_status_of_ne _ _ (by decide) _
  obtain ⟨ms₄, h₄, n, hnmem, hni, hn⟩ := exists_attempt prog (c := c) hP hS₁.update hH hHg
    happ ((hstatus _ _ _).trans (Config.set_status_self ..)) rfl
  refine ⟨_, _, h₃.trans h₄, m, n, ?_, hm, hn⟩
  rw [List.filter_append]
  change ([m] ++ [n]).Sublist _
  apply List.Sublist.append
  · apply List.singleton_sublist.mpr
    simp [hmem, hmi]
  · apply List.singleton_sublist.mpr
    simp [hnmem, hni]

def deserted (P : Primitives β) (g u key : List β) : Vault β :=
  ((Vault.empty.register u key []).establish P g [] ⟨u, key, []⟩).update P g (.leave u)

omit [DecidableEq ι] in
theorem deserted_applied_twice (hP : P.Ideal) (g u key : List β) :
    ∃ ms cfg, History (Honest .int32) (fun b => ((if b then .op (.addUserToGroup g u)
        else .op (.removeUserFromGroup g u) : Request β)).prog P)
        (.start ((deserted P g u key).toWorld P)) ms cfg ∧
      ∃ m n, [m, n].Sublist (ms.filter fun m => m.client = true) ∧ Applied m ∧ Applied n := by
  have hempty : (Vault.empty : Vault β).Signed P := by rintro _ ⟨⟩
  have hu : u ∈ (deserted P g u key).accounts.keys :=
    Keyed.mem_keys.mpr ⟨_, (Vault.mem_accounts_register (by rintro ⟨⟩)).mpr (.inr rfl), rfl⟩
  have hg : g ∈ (deserted P g u key).groups.keys := by
    rw [deserted, Vault.update, Vault.mapGroups, Keyed.keys_map]
    exact Keyed.mem_keys.mpr ⟨_, (Vault.mem_groups_found (by rintro ⟨⟩)).mpr (.inr rfl), rfl⟩
  apply exists_applied_twice hP (hempty.register.establish (by rintro ⟨⟩)).update hu hg
  exact fun G hG hg => Vault.not_applies_update hG hg

omit [DecidableEq ι] in
theorem not_atMostOnce_int32 (hP : P.Ideal) : ¬ AtMostOnce P .int32 := by
  intro h
  obtain ⟨ms, cfg, hist, m, n, hmn, hm, hn⟩ := deserted_applied_twice hP [] [] []
  refine (h Bool _ _ ms cfg ?_ hist true).1 m n hmn hm hn
  rintro (_ | _)
  · exact ⟨_, .remove [] [], rfl⟩
  · exact ⟨_, .add [] [], rfl⟩

end Twice

/-- With an `int32` in the reply, adding a user and removing the same user at the same time can add
the user twice. -/
theorem int32_applied_twice : ∃ (ms : List (Move Bool (Call ℕ) Reply (World ℕ)))
    (cfg : Config Bool (Call ℕ) Reply Stop (Answer ℕ) (World ℕ)),
    History (Honest .int32) (fun b => ((if b then .op (.addUserToGroup [5] [1])
        else .op (.removeUserFromGroup [5] [1]) : Request ℕ)).prog Primitives.nat)
      (.start ((deserted Primitives.nat [5] [1] (.replicate keySize 7)).toWorld Primitives.nat))
      ms cfg ∧
    ∃ m n, [m, n].Sublist (ms.filter fun m => m.client = true) ∧ Applied m ∧ Applied n :=
  deserted_applied_twice Primitives.nat_ideal _ _ _

/-- The store applies the update of a call at most once, and that of a call that gives up not at
all, exactly when its replies carry the count as an `int64`. -/
theorem atMostOnce_iff (hP : P.Ideal) {count : ℤ → Scalar}
    (hcount : count = .int32 ∨ count = .int64) : AtMostOnce P count ↔ count = .int64 := by
  constructor
  · rintro h
    rcases hcount with rfl | rfl
    · exact absurd h (not_atMostOnce_int32 hP)
    · rfl
  · rintro rfl
    exact atMostOnce_int64

theorem atMostOnce_iff_sample :
    (AtMostOnce Primitives.nat .int32 ↔ (.int32 : ℤ → Scalar) = .int64) ∧
      (AtMostOnce Primitives.nat .int64 ↔ (.int64 : ℤ → Scalar) = .int64) :=
  ⟨atMostOnce_iff Primitives.nat_ideal (.inl rfl), atMostOnce_iff Primitives.nat_ideal (.inr rfl)⟩

end MongoSgx
