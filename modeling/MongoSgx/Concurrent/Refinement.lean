import MongoSgx.Adversary.Custody
import MongoSgx.Concurrent.Crashes
import MongoSgx.Interaction.Refinement
import MongoSgx.Transcript.Names

/-! # One edit at a time

A deletion takes a user out of one group after the other, and the record comes last,
so that it is not one step of the directory. But each driver call of each client is:
it leaves the directory in the database alone or makes a single edit that the request
of the client asks for, whoever else is at work. The other groups keep their documents
to the byte.
-/

namespace MongoSgx

open Bson Interaction

variable {β : Type}

section Definitions

inductive Request.Changes : Request β → List β → Change β → Prop
  | create {g : List β} {m : Member β} : Changes (.op (.createGroup g m.user)) g (.join m)
  | add {g : List β} {m : Member β} : Changes (.op (.addUserToGroup g m.user)) g (.join m)
  | remove {g u : List β} : Changes (.op (.removeUserFromGroup g u)) g (.leave u)
  | sweep {g u : List β} : Changes (.op (.deleteUser u)) g (.leave u)

variable [DecidableEq β]

/-- What one driver call of the request makes of a vault, if it makes something of it. -/
inductive Request.Writes (P : Primitives β) : Request β → Vault β → Vault β → Prop
  | register {V : Vault β} {u key iv : List β} (hu : u ∉ V.accounts.keys) :
      Writes P (.op (.createUser u key)) V (V.register u key iv)
  | establish {V : Vault β} {g iv : List β} {m : Member β} (hg : g ∉ V.groups.keys) :
      Writes P (.op (.createGroup g m.user)) V (V.establish P g iv m)
  | modify {q : Request β} {V : Vault β} {g : List β} {c : Change β} {s : Hashed β}
      (hq : q.Changes g c) : Writes P q V (V.modify g c s)
  | forget {V : Vault β} {u : List β} : Writes P (.op (.deleteUser u)) V (V.forget u)
  | sub {V : Vault β} {as : List (Account β)} {gs : List (Group β)}
      {has : as.Sublist V.accounts.elems} {hgs : gs.Sublist V.groups.elems} :
      Writes P (.op .deleteAllData) V (V.sub as gs has hgs)

def Request.Moves (P : Primitives β) (q : Request β) (w w' : World β) : Prop :=
  ∃ V W : Vault β, w = V.toWorld P ∧ w' = W.toWorld P ∧ V.Sound P ∧ W.Sound P ∧ q.Writes P V W

inductive Request.Alters : Request β → Directory β → Directory β → Prop
  | register {D : Directory β} {u key : List β} (hu : u ∉ D.users.keys) :
      Alters (.op (.createUser u key)) D { D with users := D.users.add (u, key) }
  | found {D : Directory β} {g u : List β} (hg : g ∉ D.groups.keys) :
      Alters (.op (.createGroup g u)) D { D with groups := D.groups.add (g, [u]) }
  | join {q : Request β} {D : Directory β} {g u : List β} (hq : q.Adds g u) :
      Alters q D (D.join g u)
  | leave {D : Directory β} {g u : List β} :
      Alters (.op (.removeUserFromGroup g u)) D (D.leave g u)
  /-- A deletion takes its user out of one group, or deletes the record. -/
  | sweep {D : Directory β} {g u : List β} : Alters (.op (.deleteUser u)) D (D.leave g u)
  | forget {D : Directory β} {u : List β} :
      Alters (.op (.deleteUser u)) D { D with users := D.users.erase u }
  | wipe {D D' : Directory β} (husers : D'.users.elems.Sublist D.users.elems)
      (hgroups : D'.groups.elems.Sublist D.groups.elems) : Alters (.op .deleteAllData) D D'

/-- The request may change the group: it names it, or deletes one of its members or everything. -/
def Request.Touches (g : List β) (D : Directory β) : Request β → Prop
  | .op (.createGroup h _) | .op (.addUserToGroup h _) | .op (.removeUserFromGroup h _) => h = g
  | .op (.deleteUser u) => u ∈ D.membersOf g
  | .op .deleteAllData => True
  | .op (.createUser _ _) | .getKeysOfGroup _ | .isUserPartOfGroup _ _ => False

/-- Everyone keeps the store sound, and the writes are those of the request. -/
def writing (P : Primitives β) (q : Request β) : Contract (World β) :=
  .moving (SoundStore P) (q.Moves P)

end Definitions

variable [DecidableEq β] {P : Primitives β} {q : Request β} {V W : Vault β} {g u : List β}
  {c : Change β} {φ : Prop} {count : ℤ → Scalar}

section Writes

theorem standing_writing : Standing P (writing P q) (fun V => V.Sound P ∧ φ) where
  stable h ht := standing_sound.stable h ht

theorem guar_writing (hV : V.Sound P) (hW : W.Sound P) (h : q.Writes P V W) :
    (writing P q).guar (V.toWorld P) (W.toWorld P) :=
  fun _ => ⟨⟨W, rfl, hW⟩, .inr ⟨V, W, rfl, rfl, hV, hW, h⟩⟩

theorem edits_writing (hP : P.Ideal) (hL : P.LengthRegular) (hq : q.Changes g c)
    (hk : φ → ∀ m, c = .join m → m.key.length = keySize) :
    Edits P (writing P q) (fun V => V.Sound P ∧ φ) g c (Group.Sound P) where
  standing := standing_writing
  seen V G hV hG := hV.1.group hG
  write := by
    rintro V G H ⟨hV, hφ⟩ hG hH hGg rfl hc hsig
    have hW := hV.modify hP hL hG hH hGg hsig.symm (fun _ => Group.signature_change hc) (hk hφ)
    exact ⟨guar_writing hV hW (.modify hq), hW, hφ⟩

theorem sweeps_writing (hP : P.Ideal) (hL : P.LengthRegular) {E : Env (Call β) Reply (World β)} :
    Sweeps P E (writing P (.op (.deleteUser u))) u
      (fun cur Gs V => V.Sound P ∧ OverGroups cur ∧ ∀ G ∈ Gs, G.Sound P)
      (fun Gs V => V.Sound P ∧ ∀ G ∈ Gs, G.Sound P) where
  reading _ _ := standing_writing
  writing _ := standing_writing
  overGroups _ _ _ h := h.2.1
  visit := (sweeps_sound hP hL (E := E) (u := u)).visit
  finish := (sweeps_sound hP hL (E := E) (u := u)).finish
  miss := (sweeps_sound hP hL (E := E) (u := u)).miss
  write := by
    rintro V G H Gs h hH he
    obtain ⟨-, hW⟩ := (sweeps_sound hP hL (E := E) (u := u)).write V G H Gs h hH he
    exact ⟨guar_writing h.1 hW.1 (.modify .sweep), hW⟩
  forget V h := by
    obtain ⟨-, hW⟩ := (sweeps_sound hP hL (E := E) (u := u)).forget V h
    exact ⟨guar_writing h.1 hW.1 .forget, hW⟩

theorem safe_writing_op (hP : P.Ideal) (hL : P.LengthRegular) {o : Op β} (ho : o.KeySized)
    (hV : V.Sound P) :
    Safe (Honest count) (writing P (.op o)) (fun _ _ => True) (o.prog P) (V.toWorld P) := by
  have hA : Standing P (writing P (.op o)) (fun V => V.Sound P ∧ True) := standing_writing
  have hkey : ∀ (W : Vault β) (u key : List β), W.Sound P ∧ True → W.HasAccount u key →
      W.Sound P ∧ key.length = keySize := by
    rintro W u key ⟨hW, -⟩ ⟨a, ha, -, rfl⟩
    exact ⟨hW, hW.keySized.account a ha⟩
  have hjoin : ∀ (g u : List β), (∀ m : Member β, m.user = u →
      Request.Changes (.op o) g (.join m)) → ∀ m : Member β, m.user = u →
        Edits P (writing P (.op o)) (fun V => V.Sound P ∧ m.key.length = keySize) g (.join m)
          (Group.Sound P) := by
    intro g u hq m hm
    apply edits_writing hP hL (hq m hm)
    rintro hm _ ⟨⟩
    exact hm
  cases o with
  | createUser u key =>
    refine safe_createUser hP honestAnswers_self hA (fun W iv hW hu => ?_) ⟨hV, trivial⟩
    have hW' : (W.register u key iv).Sound P :=
      ⟨hW.1.signed.register, hW.1.keySized.register hu ho⟩
    exact guar_writing hW.1 hW' (.register hu)
  | createGroup g u =>
    have hedit := hjoin g u (by rintro m rfl; exact .create)
    refine safe_createGroup hP honestAnswers_self hA (fun W key => hkey W u key) ?_ hedit
      ⟨hV, trivial⟩
    rintro W iv m rfl ⟨hW, hm⟩ hg
    have hW' : (W.establish P g iv m).Sound P :=
      ⟨hW.signed.establish hg, hW.keySized.establish hg hm⟩
    exact guar_writing hW hW' (.establish hg)
  | addUserToGroup g u =>
    have hedit := hjoin g u (by rintro m rfl; exact .add)
    exact safe_addUserToGroup hP honestAnswers_self hA (fun W key => hkey W u key) hedit
      ⟨hV, trivial⟩
  | removeUserFromGroup g u =>
    have hedit : Edits P (writing P (.op (.removeUserFromGroup g u)))
        (fun V => V.Sound P ∧ True) g (.leave u) (Group.Sound P) :=
      edits_writing hP hL .remove fun _ m hm => by cases hm
    exact safe_removeUserFromGroup hP honestAnswers_self hedit ⟨hV, trivial⟩
  | deleteUser u =>
    refine ((sweeps_writing hP hL).safe_deleteUser hP honestAnswers_self ?_).mono
      fun _ _ _ => trivial
    exact ⟨hV, ⟨rfl, rfl, rfl⟩, fun G hG => absurd hG List.not_mem_nil⟩
  | deleteAllData =>
    refine safe_deleteAllData honestAnswers_self hA (fun W as gs has hgs hW => ?_) ⟨hV, trivial⟩
    have hW' : (W.sub as gs has hgs).Sound P := ⟨hW.1.signed.sub, hW.1.keySized.sub⟩
    exact ⟨guar_writing hW.1 hW' .sub, hW', trivial⟩

theorem safe_writing (hP : P.Ideal) (hL : P.LengthRegular) (hq : q.KeySized) (hV : V.Sound P) :
    Safe (Honest count) (writing P q) (fun _ _ => True) (q.prog P) (V.toWorld P) := by
  have hreads : (∀ o, q ≠ .op o) → Safe (Honest count) (writing P q) (fun _ _ => True) (q.prog P)
      (V.toWorld P) := by
    intro hq
    refine (records_reads hq).safe (fun _ _ _ _ _ => trivial) ?_ _
    intro _ c w r w' hc hr
    rw [honest_of_not_writes hc hr]
    exact Contract.guar_refl _ w
  cases q with
  | op o =>
    apply Safe.bind
    apply (safe_writing_op hP hL hq hV).mono
    rintro (e | a) t -
    · trivial
    · exact safe_pure_iff.mpr fun _ _ => trivial
  | getKeysOfGroup g => exact hreads fun o ho => by cases ho
  | isUserPartOfGroup g u => exact hreads fun o ho => by cases ho

theorem Request.Writes.alters (h : q.Writes P V W) : q.Alters V.directory W.directory := by
  cases h with
  | register hu =>
    rw [Vault.directory_register]
    exact .register (by rwa [Vault.directory_users_keys])
  | establish hg =>
    rw [Vault.directory_establish]
    exact .found (by rwa [Vault.directory_groups_keys])
  | modify hq =>
    rw [Vault.directory_modify]
    cases hq with
    | create => exact .join (.inr rfl)
    | add => exact .join (.inl rfl)
    | remove => exact .leave
    | sweep => exact .sweep
  | @forget V u =>
    have hforget : (V.forget u).directory =
        { V.directory with users := V.directory.users.erase u } := by
      simp only [Vault.directory, ← Keyed.map_erase]
      rfl
    rw [hforget]
    exact .forget
  | @sub V as gs has hgs => exact .wipe (has.map Account.listing) (hgs.map Group.listing)

theorem Request.Moves.alters (hP : P.Ideal) {w w' : World β} (h : q.Moves P w w')
    {D : Directory β} (hD : Carries P D w) : ∃ D', q.Alters D D' ∧ Carries P D' w' := by
  obtain ⟨V, W, rfl, rfl, -, hW, hwrites⟩ := h
  obtain rfl := hD.eq hP
  exact ⟨W.directory, hwrites.alters, W, rfl, hW, rfl⟩

end Writes

section Documents

theorem decide_matches_nameSelector (hP : P.Ideal) (G : Group β) :
    decide ((nameSelector (hashName P g none)).Matches (G.toDoc P)) = decide (G.name = g) :=
  decide_eq_decide.mpr (matches_nameSelector hP)

theorem groupDocs_toWorld (hP : P.Ideal) : groupDocs P g (V.toWorld P) =
    (V.groups.elems.filter fun G => G.name = g).map (Group.toDoc P) := by
  simp only [groupDocs, Vault.toWorld, List.filter_map, Function.comp_def,
    decide_matches_nameSelector hP]

theorem groupDocs_modify (hP : P.Ideal) {h : List β} {s : Hashed β}
    (hc : h = g → ∀ G ∈ V.groups, G.name = g → G.change c s = G) :
    groupDocs P g ((V.modify h c s).toWorld P) = groupDocs P g (V.toWorld P) := by
  have hname : ∀ G : Group β, (if G.name = h then G.change c s else G).name = G.name := by
    intro G
    split
    · exact Group.change_name
    · rfl
  rw [groupDocs_toWorld hP, groupDocs_toWorld hP]
  congr 1
  change (V.groups.elems.map fun G => if G.name = h then G.change c s else G).filter _ = _
  simp only [List.filter_map, Function.comp_def, hname]
  apply (List.map_congr_left _).trans (List.map_id _)
  intro G hG
  obtain ⟨hG, hg⟩ := List.mem_filter.mp hG
  have hg : G.name = g := of_decide_eq_true hg
  split
  · rename_i hn
    exact hc (hn.symm.trans hg) G hG hg
  · rfl

theorem membersOf_congr (hP : P.Ideal)
    (h : groupDocs P g (V.toWorld P) = groupDocs P g (W.toWorld P)) :
    V.directory.membersOf g = W.directory.membersOf g := by
  have hsub : ∀ {V W : Vault β}, groupDocs P g (V.toWorld P) = groupDocs P g (W.toWorld P) →
      V.directory.membersOf g ⊆ W.directory.membersOf g := by
    intro V W h u hu
    obtain ⟨G, hG, hg, hu⟩ := Vault.mem_membersOf_directory.mp hu
    have hd : G.toDoc P ∈ groupDocs P g (V.toWorld P) := by
      rw [groupDocs_toWorld hP]
      exact List.mem_map_of_mem (List.mem_filter.mpr ⟨hG, decide_eq_true hg⟩)
    rw [h, groupDocs_toWorld hP] at hd
    obtain ⟨H, hH, he⟩ := List.mem_map.mp hd
    have hlisting := Group.listing_eq hP he
    have hname : H.name = G.name := congrArg Prod.fst hlisting
    have husers : H.users = G.users := congrArg Prod.snd hlisting
    rw [← husers] at hu
    exact Vault.mem_membersOf_directory.mpr ⟨H, (List.mem_filter.mp hH).1, hname.trans hg, hu⟩
  exact (hsub h).antisymm (hsub h.symm)

theorem Group.leave_eq_self {G : Group β} {s : Hashed β} (hG : G.Signed P)
    (hs : (G.change (.leave u) s).Signed P) (hu : u ∉ G.users) : G.change (.leave u) s = G := by
  have hsign : s = G.nextSignature P (.leave u) := (Group.signed_change fun _ => rfl).mp hs
  rw [hsign]
  exact Group.next_eq_self hG hu

theorem Request.touches_congr {D D' : Directory β} (h : D.membersOf g = D'.membersOf g) :
    q.Touches g D ↔ q.Touches g D' := by
  unfold Request.Touches
  rw [h]

theorem Request.Writes.spares (hP : P.Ideal) (h : q.Writes P V W) (hV : V.Sound P)
    (hW : W.Sound P) (hq : ¬ q.Touches g V.directory) :
    groupDocs P g (W.toWorld P) = groupDocs P g (V.toWorld P) := by
  cases h with
  | register => rfl
  | forget => rfl
  | sub => exact absurd trivial hq
  | @establish V h iv m hh =>
    have hne : ¬ h = g := hq
    rw [groupDocs_toWorld hP, groupDocs_toWorld hP, Vault.establish, Vault.groups_found hh,
      List.filter_append]
    simp [hne]
  | @modify q V h c s hc =>
    apply groupDocs_modify hP
    rintro rfl G hG rfl
    cases hc with
    | create => exact absurd rfl hq
    | add => exact absurd rfl hq
    | remove => exact absurd rfl hq
    | @sweep h u =>
      have hu : u ∉ G.users := fun hu =>
        hq (Vault.mem_membersOf_directory.mpr ⟨G, hG, rfl, hu⟩)
      have hmem : G.change (.leave u) s ∈ (V.modify G.name (.leave u) s).groups :=
        Vault.mem_groups_modify.mpr ⟨G, hG, if_pos rfl⟩
      exact Group.leave_eq_self (hV.signed G hG) (hW.signed _ hmem) hu

end Documents

section Runs

variable {ι : Type} [DecidableEq ι] {reqs : ι → Request β} {w : World β}
  {ms : List (Move ι (Call β) Reply (World β))}
  {cfg : Config ι (Call β) Reply Stop (Answer β) (World β)} {D : Directory β}

omit [DecidableEq β] in
theorem Carries.sound (h : Carries P D w) : SoundStore P w := by
  obtain ⟨V, rfl, hV, -⟩ := h
  exact ⟨V, rfl, hV⟩

theorem moves_of_history (hP : P.Ideal) (hL : P.LengthRegular) (hk : ∀ i, (reqs i).KeySized)
    (hw : SoundStore P w)
    (h : History (Honest count) (fun i => (reqs i).prog P) (.start w) ms cfg) :
    SoundStore P cfg.world ∧ ∀ m ∈ ms, SoundStore P m.before ∧
      (m.after = m.before ∨ (reqs m.client).Moves P m.before m.after) := by
  have hsafe : ∀ i s, SoundStore P s → Safe (Honest count)
      (.moving (SoundStore P) ((reqs i).Moves P)) (fun _ _ => True) ((reqs i).prog P) s := by
    rintro i _ ⟨V, rfl, hV⟩
    exact safe_writing hP hL (hk i) hV
  exact h.moves hsafe hw

/-- However the calls of the whole interface interleave, the directory in the database changes by
single edits, each at a driver call of a client whose request asks for it. -/
theorem run_trail (hP : P.Ideal) (hL : P.LengthRegular) (hk : ∀ i, (reqs i).KeySized)
    (hw : Carries P D w)
    (h : History (Honest count) (fun i => (reqs i).prog P) (.start w) ms cfg) :
    ∃ D', Trail (Carries P) (fun i => (reqs i).Alters) D ms D' ∧ Carries P D' cfg.world := by
  obtain ⟨-, hms⟩ := moves_of_history hP hL hk hw.sound h
  refine h.trail (fun m hm D hD => ?_) hw
  rcases (hms m hm).2 with heq | hmoves
  · rw [heq]
    exact .inl hD
  · exact .inr (hmoves.alters hP hD)

/-- Whoever else is at work, the documents of a group stay as they are, to the byte, unless a client
names the group, deletes one of its members or deletes everything. -/
theorem run_spared (hP : P.Ideal) (hL : P.LengthRegular) (hk : ∀ i, (reqs i).KeySized)
    (hw : Carries P D w)
    (h : History (Honest count) (fun i => (reqs i).prog P) (.start w) ms cfg)
    (hno : ∀ m ∈ ms, ¬ (reqs m.client).Touches g D) :
    groupDocs P g cfg.world = groupDocs P g w := by
  obtain ⟨-, hms⟩ := moves_of_history hP hL hk hw.sound h
  obtain ⟨V, rfl, hV, rfl⟩ := hw
  let Same (w : World β) : Prop := groupDocs P g w = groupDocs P g (V.toWorld P)
  have hstart : Same (V.toWorld P) := rfl
  have hkept : ∀ m ∈ ms, Same m.before → Same m.after := by
    intro m hm hbefore
    rcases (hms m hm).2 with heq | ⟨U, W, hU, hW, hUsound, hWsound, hwrites⟩
    · rw [heq]
      exact hbefore
    · have hbefore : groupDocs P g (U.toWorld P) = groupDocs P g (V.toWorld P) := hU ▸ hbefore
      have hq : ¬ (reqs m.client).Touches g U.directory := by
        rw [Request.touches_congr (membersOf_congr hP hbefore)]
        exact hno m hm
      exact hW ▸ (hwrites.spares hP hUsound hWsound hq).trans hbefore
  exact (h.invariant hstart hkept).2

section Samples

def sampleVault : Vault ℕ :=
  (Vault.empty.register [1] (.replicate 32 7) []).establish Primitives.nat [5] []
    ⟨[1], .replicate 32 7, []⟩

theorem sampleVault_sound : sampleVault.Sound Primitives.nat := by
  have hempty : (Vault.empty : Vault ℕ).Sound Primitives.nat :=
    ⟨fun G hG => absurd hG List.not_mem_nil,
      fun a ha => absurd ha List.not_mem_nil, fun G hG => absurd hG List.not_mem_nil⟩
  have hu : [1] ∉ (Vault.empty : Vault ℕ).accounts.keys := List.not_mem_nil
  have hg : [5] ∉ (Vault.empty.register [1] (.replicate 32 7) []).groups.keys := List.not_mem_nil
  exact ⟨Vault.Signed.establish hempty.signed.register hg,
    (hempty.keySized.register hu rfl).establish hg rfl⟩

def deleting (u : List ℕ) (_ : Unit) : Request ℕ := .op (.deleteUser u)

theorem deleting_keySized (u : List ℕ) : ∀ i, (deleting u i).KeySized := fun _ => trivial

theorem exists_deletion (u : List ℕ) :
    ∃ (ms : List (Move Unit (Call ℕ) Reply (World ℕ)))
      (cfg : Config Unit (Call ℕ) Reply Stop (Answer ℕ) (World ℕ)),
      History (Honest .int64) (fun i => (deleting u i).prog Primitives.nat)
        (.start (sampleVault.toWorld Primitives.nat)) ms cfg ∧
      cfg.status () = .finished (.ok .done) := by
  have hstart : History (Honest .int64) (fun i => (deleting u i).prog Primitives.nat)
      (.start (sampleVault.toWorld Primitives.nat)) []
      (.start (sampleVault.toWorld Primitives.nat)) := .nil _
  obtain ⟨r, w, hr, hok, -⟩ := (wp_step Primitives.nat_ideal .int64 sampleVault_sound.signed
    (.deleteUser u)).exists_evals (honest_total .int64)
  cases r with
  | error e => cases hok
  | ok a =>
    obtain ⟨ms, hms, -⟩ := hstart.complete (i := ()) rfl
      (hr.bind (Prog.evals_pure_iff.mpr ⟨rfl, rfl⟩))
    exact ⟨ms, _, hms, Config.set_status_self ..⟩

end Samples

/-- A user is deleted that is the member of a group. -/
theorem run_trail_sample : ∃ (ms : List (Move Unit (Call ℕ) Reply (World ℕ)))
    (cfg : Config Unit (Call ℕ) Reply Stop (Answer ℕ) (World ℕ)) (D' : Directory ℕ),
    cfg.status () = .finished (.ok .done) ∧ sampleVault.directory.groups.elems = [([5], [[1]])] ∧
    Trail (Carries Primitives.nat) (fun i => (deleting [1] i).Alters)
      sampleVault.directory ms D' ∧ Carries Primitives.nat D' cfg.world := by
  obtain ⟨ms, cfg, hms, hdone⟩ := exists_deletion [1]
  have hcarries : Carries Primitives.nat sampleVault.directory
      (sampleVault.toWorld Primitives.nat) := ⟨sampleVault, rfl, sampleVault_sound, rfl⟩
  obtain ⟨D', htrail, hD'⟩ := run_trail Primitives.nat_ideal Primitives.nat_lengthRegular
    (deleting_keySized [1]) hcarries hms
  exact ⟨ms, cfg, D', hdone, rfl, htrail, hD'⟩

/-- A user is deleted that is no member of the group. -/
theorem run_spared_sample : ∃ cfg : Config Unit (Call ℕ) Reply Stop (Answer ℕ) (World ℕ),
    cfg.status () = .finished (.ok .done) ∧
    groupDocs Primitives.nat [5] (sampleVault.toWorld Primitives.nat) ≠ [] ∧
    groupDocs Primitives.nat [5] cfg.world =
      groupDocs Primitives.nat [5] (sampleVault.toWorld Primitives.nat) := by
  obtain ⟨ms, cfg, hms, hdone⟩ := exists_deletion [2]
  have hcarries : Carries Primitives.nat sampleVault.directory
      (sampleVault.toWorld Primitives.nat) := ⟨sampleVault, rfl, sampleVault_sound, rfl⟩
  have hmember : [2] ∉ sampleVault.directory.membersOf [5] := by decide
  have hdocs : groupDocs Primitives.nat [5] (sampleVault.toWorld Primitives.nat) ≠ [] := by
    rw [groupDocs_toWorld Primitives.nat_ideal]
    decide
  exact ⟨cfg, hdone, hdocs, run_spared Primitives.nat_ideal Primitives.nat_lengthRegular
    (deleting_keySized [2]) hcarries hms fun _ _ => hmember⟩

end Runs

end MongoSgx
