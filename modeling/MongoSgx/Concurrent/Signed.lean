import MongoSgx.Concurrent.Sweep
import MongoSgx.Interaction.Pool
import MongoSgx.Sequential.Keys
import MongoSgx.Store.Invariants

/-! # The signed store

Whatever calls any number of clients make, and however their driver calls
interleave, every group document carries the signature of its contents. A
signature predicted from an old document is written only over a document with the
same old signature, or over the same document, and signs it just as well.
-/

namespace MongoSgx

open Bson Interaction

variable {β : Type} {P : Primitives β} {count : ℤ → Scalar} {V W : Vault β} {u g : List β}

/-- A vault in which every group is signed and every key has `KEY_SIZE` bytes. -/
structure Vault.Sound (P : Primitives β) (V : Vault β) : Prop where
  signed : V.Signed P
  keySized : V.KeySized

structure Group.Sound (P : Primitives β) (G : Group β) : Prop where
  signed : G.Signed P
  keySized : G.KeySized

theorem Vault.Sound.group (h : V.Sound P) {G : Group β} (hG : G ∈ V.groups) : G.Sound P :=
  ⟨h.signed G hG, h.keySized.group G hG⟩

def SoundStore (P : Primitives β) (w : World β) : Prop := ∃ V : Vault β, w = V.toWorld P ∧ V.Sound P

theorem standing_sound {φ : Prop} :
    Standing P (.keeping (SoundStore P)) (fun V => V.Sound P ∧ φ) where
  stable := by
    rintro V t ⟨hV, hφ⟩ ht
    obtain ⟨W, rfl, hW⟩ := ht ⟨V, rfl, hV⟩
    exact ⟨W, rfl, hW, hφ⟩

theorem guar_sound (hW : W.Sound P) :
    (Contract.keeping (SoundStore P)).guar (V.toWorld P) (W.toWorld P) := fun _ => ⟨W, rfl, hW⟩

variable [DecidableEq β]

/-- The signature predicted from a group as it was read signs the change of the group that has
the same old signature. -/
theorem Vault.Sound.modify (hP : P.Ideal) (hL : P.LengthRegular) (hV : V.Sound P) {G H : Group β}
    {c : Change β} (hG : G.Sound P) (hH : H ∈ V.groups) (hname : G.name = H.name)
    (hsig : G.signature = H.signature) (hc : ∀ s, (H.change c s).signature = s)
    (hk : ∀ m, c = .join m → m.key.length = keySize) :
    (V.modify H.name c (G.nextSignature P c)).Sound P where
  signed := hV.signed.modify fun H' hH' hn => by
    obtain rfl := Keyed.eq_of_key_eq hH' hH hn
    exact Group.signed_change_of_signature_eq hP hL hG.keySized (hV.group hH).keySized hG.signed
      (hV.group hH).signed hname hsig hc
  keySized := hV.keySized.modify hk

theorem edits_sound (hP : P.Ideal) (hL : P.LengthRegular) {φ : Prop} {c : Change β}
    (hk : φ → ∀ m, c = .join m → m.key.length = keySize) :
    Edits P (.keeping (SoundStore P)) (fun V => V.Sound P ∧ φ) g c (Group.Sound P) where
  standing := standing_sound
  seen V G hV hG := hV.1.group hG
  write := by
    rintro V G H ⟨hV, hφ⟩ hG hH hGg rfl hc hsig
    have hW := hV.modify hP hL hG hH hGg hsig.symm (fun _ => Group.signature_change hc) (hk hφ)
    exact ⟨guar_sound hW, hW, hφ⟩

theorem sweeps_sound (hP : P.Ideal) (hL : P.LengthRegular)
    {E : Env (Call β) Reply (World β)} : Sweeps P E (.keeping (SoundStore P)) u
      (fun cur Gs V => V.Sound P ∧ OverGroups cur ∧ ∀ G ∈ Gs, G.Sound P)
      (fun Gs V => V.Sound P ∧ ∀ G ∈ Gs, G.Sound P) where
  reading _ _ := standing_sound
  writing _ := standing_sound
  overGroups _ _ _ h := h.2.1
  visit := by
    rintro V cur cur' Gs G ⟨hV, -, hGs⟩ hG hover -
    refine ⟨hV, hover, fun H hH => ?_⟩
    rcases List.mem_append.mp hH with hH | hH
    · exact hGs H hH
    · exact List.mem_singleton.mp hH ▸ hV.group hG
  finish _ _ _ h _ := ⟨h.1, h.2.2⟩
  write := by
    rintro V G H Gs ⟨hV, hGs⟩ hH he
    obtain ⟨-, hname, -, hsig⟩ := Group.eq_of_toDoc_eq hP he
    have hW := hV.modify hP hL (hGs G (List.mem_cons_self ..)) hH hname.symm hsig.symm
      (c := .leave u) (fun _ => rfl) (by nofun)
    rw [← hname]
    exact ⟨guar_sound hW, hW, fun G hG => hGs G (List.mem_cons_of_mem _ hG)⟩
  miss _ _ _ h _ _ := ⟨h.1, fun G hG => h.2 G (List.mem_cons_of_mem _ hG)⟩
  forget V h := by
    have hW : (V.forget u).Sound P := ⟨h.1.signed.sub, h.1.keySized.sub⟩
    exact ⟨guar_sound hW, hW, h.2⟩

theorem safe_sound (hP : P.Ideal) (hL : P.LengthRegular) {o : Op β} (ho : o.KeySized)
    (hV : V.Sound P) :
    Safe (Honest count) (.keeping (SoundStore P)) (fun _ _ => True) (o.prog P) (V.toWorld P) := by
  have hkey : ∀ (W : Vault β) (u key : List β), W.Sound P ∧ True → W.HasAccount u key →
      W.Sound P ∧ key.length = keySize := by
    rintro W u key ⟨hW, -⟩ ⟨a, ha, -, rfl⟩
    exact ⟨hW, hW.keySized.account a ha⟩
  have hjoin : ∀ (g : List β) (m : Member β), Edits P (.keeping (SoundStore P))
      (fun V => V.Sound P ∧ m.key.length = keySize) g (.join m) (Group.Sound P) := fun g m =>
    edits_sound hP hL (by rintro hm _ ⟨⟩; exact hm)
  have hA : Standing P (.keeping (SoundStore P)) (fun V => V.Sound P ∧ True) := standing_sound
  cases o with
  | createUser u key =>
    refine safe_createUser hP honestAnswers_self hA (fun W iv hW hu => ?_) ⟨hV, trivial⟩
    have hW' : (W.register u key iv).Sound P :=
      ⟨hW.1.signed.register, hW.1.keySized.register hu ho⟩
    exact guar_sound hW'
  | createGroup g u =>
    refine safe_createGroup hP honestAnswers_self hA (fun W key => hkey W u key) ?_
      (fun m _ => hjoin g m) ⟨hV, trivial⟩
    rintro W iv m - ⟨hW, hm⟩ hg
    have hW' : (W.establish P g iv m).Sound P :=
      ⟨hW.signed.establish hg, hW.keySized.establish hg hm⟩
    exact guar_sound hW'
  | addUserToGroup g u =>
    exact safe_addUserToGroup hP honestAnswers_self hA (fun W key => hkey W u key)
      (fun m _ => hjoin g m) ⟨hV, trivial⟩
  | removeUserFromGroup g u =>
    exact safe_removeUserFromGroup hP honestAnswers_self (edits_sound hP hL (by nofun))
      ⟨hV, trivial⟩
  | deleteUser u =>
    refine ((sweeps_sound hP hL).safe_deleteUser hP honestAnswers_self ?_).mono
      fun _ _ _ => trivial
    exact ⟨hV, ⟨rfl, rfl, rfl⟩, by nofun⟩
  | deleteAllData =>
    refine safe_deleteAllData honestAnswers_self hA (fun W as gs has hgs hW => ?_) ⟨hV, trivial⟩
    have hW' : (W.sub as gs has hgs).Sound P := ⟨hW.1.signed.sub, hW.1.keySized.sub⟩
    exact ⟨guar_sound hW', hW', trivial⟩

omit [DecidableEq β] in
theorem soundStore_empty : SoundStore P (World.empty : World β) :=
  ⟨.empty, rfl, by nofun, by nofun, by nofun⟩

theorem SoundStore.document (hP : P.Ideal) {w : World β} (h : SoundStore P w)
    {d : Doc β} (hd : d ∈ w.groups) :
    validateGroupSignature P d = some true ∧
    (∃ vs, Doc.get? d "users" = some (.array vs) ∧ (vs.map entryName).Nodup) ∧
    ∃ c g, Doc.get? d "encname" = some (.binary c) ∧ P.decryptAesgcm c = some g ∧
      Doc.get? d "name" = some (.binary (hashName P g none).toList) := by
  obtain ⟨V, rfl, hV⟩ := h
  obtain ⟨G, hG, rfl⟩ := List.mem_map.mp hd
  refine ⟨?_, ⟨_, ?_, usersArray_toDoc (P := P) ▸ nodup_pseudonyms hP G⟩, G.encname P, G.name, ?_,
    hP.decrypt_encrypt _ _, ?_⟩
  · rw [validateGroupSignature_toDoc, decide_eq_true (hV.signed G hG)]
  · simp [Group.toDoc, Doc.get?, List.lookup_cons]
  · simp [Group.toDoc, Doc.get?, List.lookup_cons]
  · simp [Group.toDoc, Doc.get?, List.lookup_cons]

/-- In every state of every run from empty collections, whatever calls the clients make, every
group document passes the signature check, has pairwise distinct pseudonyms, and decrypts to a
group name with the hash it is filed under. -/
theorem run_groups_sound {ι : Type} [DecidableEq ι] (hP : P.Ideal) (hL : P.LengthRegular)
    (count : ℤ → Scalar) (ops : ι → Op β) (hk : ∀ i, (ops i).KeySized)
    {evs : List (Event ι (Call β))} {cfg : Config ι (Call β) Reply Stop Unit (World β)}
    (hr : Run (Honest count) (fun i => (ops i).prog P) (fun _ _ => True) (.start World.empty) evs
      cfg) {d : Doc β} (hd : d ∈ cfg.world.groups) :
    validateGroupSignature P d = some true ∧
    (∃ vs, Doc.get? d "users" = some (.array vs) ∧ (vs.map entryName).Nodup) ∧
    ∃ c g, Doc.get? d "encname" = some (.binary c) ∧ P.decryptAesgcm c = some g ∧
      Doc.get? d "name" = some (.binary (hashName P g none).toList) := by
  refine SoundStore.document hP (hr.invariant ?_ soundStore_empty) hd
  rintro i _ ⟨V, rfl, hV⟩
  exact safe_sound hP hL (hk i) hV

/-- One client registers a user. Then two clients create the same group at the same time: one has
fetched the key, the other one creates the group, and the insertion of the first is refused. -/
theorem run_groups_sound_sample : ∃ ops : Option Bool → Op ℕ,
    ops none = .createUser [1] (.replicate 32 7) ∧ (∀ b, ops (some b) = .createGroup [5] [1]) ∧
    ∃ (evs : List (Event (Option Bool) (Call ℕ)))
      (cfg : Config (Option Bool) (Call ℕ) Reply Stop Unit (World ℕ)) (d : Doc ℕ),
      Run (Honest .int64) (fun i => (ops i).prog Primitives.nat) (fun _ _ => True)
        (.start World.empty) evs cfg ∧
      (∀ b, cfg.status (some b) = .finished (.ok ())) ∧ Within (some true) (some false) evs ∧
      d ∈ cfg.world.groups ∧ validateGroupSignature Primitives.nat d = some true := by
  have hP := Primitives.nat_ideal
  let ops (i : Option Bool) : Op ℕ :=
    i.elim (.createUser [1] (.replicate 32 7)) fun _ => .createGroup [5] [1]
  have hops : ∀ i, (ops i).KeySized := by
    rintro (_ | _)
    · rfl
    · trivial
  let prog : Option Bool → Enclave ℕ Unit := fun i => (ops i).prog Primitives.nat
  have hstart : Run (Honest .int64) prog (fun _ _ => True) (.start World.empty) []
      (.start World.empty) := .nil _
  obtain ⟨evs, r, w, hrun, ⟨hno, rfl, iv, rfl⟩ | ⟨hu, -⟩⟩ :=
    hstart.call none (honest_total .int64) (wp_createUser (V := .empty) hP _) rfl rfl
  rotate_left
  · cases hu
  let V : Vault ℕ := Vault.empty.register [1] (.replicate 32 7) iv
  have hS : V.Signed Primitives.nat := by rintro _ ⟨⟩
  have hu : [1] ∈ V.accounts.keys :=
    Keyed.mem_keys.mpr ⟨_, (Vault.mem_accounts_register hno).mpr (.inr rfl), rfl⟩
  have hrace : ∀ a iv', a ∈ V.accounts → a.user = [1] → Wp (Honest .int64) (fun r w =>
      Wp (Honest .int64) (fun r' w => r = .ok () ∧ r' = .ok () ∧ ∃ d, d ∈ w.groups)
        (createGroupWithKey Primitives.nat [5] [1] (Primitives.nat.encryptAesgcm iv' a.key)) w)
      (prog (some false)) (V.toWorld Primitives.nat) := by
    intro a iv' _ _
    apply (wp_createGroup hP hS).mono
    rintro _ _ (⟨b, -, -, rfl, iv₁, ⟨hg, -⟩ | ⟨hg, iv₂, rfl⟩⟩ | ⟨hno, -⟩)
    · cases hg
    · obtain ⟨G, hG, hname⟩ : ∃ G ∈ (V.establish Primitives.nat [5] iv₂ ⟨[1], b.key, iv₁⟩).groups,
        G.name = [5] := ⟨_, (Vault.mem_groups_found hg).mpr (.inr rfl), rfl⟩
      apply (wp_createGroupWithKey hP (hS.establish hg) ⟨[1], a.key, iv'⟩).mono
      rintro _ _ ⟨rfl, ⟨-, rfl⟩ | ⟨hno, -⟩⟩
      · exact ⟨rfl, rfl, _, List.mem_map_of_mem (Vault.mem_groups_update.mpr ⟨G, hG, rfl⟩)⟩
      · exact absurd (Keyed.mem_keys.mpr ⟨G, hG, hname⟩) hno
    · exact absurd hu hno
  let cfg₀ : Config (Option Bool) (Call ℕ) Reply Stop Unit (World ℕ) :=
    (Config.start World.empty).set (V.toWorld Primitives.nat) none (.finished (.ok ()))
  obtain ⟨evs', cfg, _, _, hrun', hret, hret', ⟨rfl, rfl, d, hd⟩, hwithin⟩ := exists_run_behind_key
    (i := some true) hP cfg₀ (by decide) createGroup_eq rfl rfl rfl hu hrace
  have hall := hrun.trans hrun'
  refine ⟨ops, rfl, fun _ => rfl, _, cfg, d, hall, ?_, hwithin.append, hd, ?_⟩
  · rintro (_ | _)
    · exact hret'
    · exact hret
  · exact (run_groups_sound hP Primitives.nat_lengthRegular .int64 ops hops hall hd).1

end MongoSgx
