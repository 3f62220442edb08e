import MongoSgx.Concurrent.Sweep
import MongoSgx.Store.Invariants

/-! # Following a user through a deletion

While the groups are read, every group that a user is in is still due or its
update is queued; while the updates are written, it is queued. This holds as long
as nobody enrolls the user anew and every update finds its document as it was
read.
-/

namespace MongoSgx

open Bson Interaction

variable {β : Type} {P : Primitives β} {V W : Vault β} {u g key : List β}

section Facts

def Registered (P : Primitives β) (w : World β) (u key : List β) : Prop :=
  ∃ V : Vault β, w = V.toWorld P ∧ V.HasAccount u key

def Enrolled (P : Primitives β) (w : World β) (u : List β) (id : ℕ) (g : List β) : Prop :=
  ∃ V : Vault β, w = V.toWorld P ∧ ∃ G ∈ V.groups, G.id = id ∧ G.name = g ∧ u ∈ G.users

theorem registered_iff (hP : P.Ideal) : Registered P (V.toWorld P) u key ↔ V.HasAccount u key := by
  constructor
  · rintro ⟨W, hW, a, ha, rfl, rfl⟩
    have hd : a.toDoc P ∈ (V.toWorld P).users := hW ▸ List.mem_map_of_mem ha
    obtain ⟨b, hb, he⟩ := List.mem_map.mp hd
    simp only [Account.toDoc, List.cons.injEq, Prod.mk.injEq, true_and, Value.binary.injEq,
      List.Vector.toList_injective.eq_iff, hashName_none_inj hP, Account.encryptedKey] at he
    have hkey := congrArg P.decryptAesgcm he.2.2.1
    rw [hP.decrypt_encrypt, hP.decrypt_encrypt] at hkey
    exact ⟨b, hb, he.2.1, Option.some.inj hkey⟩
  · exact fun h => ⟨V, rfl, h⟩

theorem enrolled_iff (hP : P.Ideal) {id : ℕ} : Enrolled P (V.toWorld P) u id g ↔
    ∃ G ∈ V.groups, G.id = id ∧ G.name = g ∧ u ∈ G.users := by
  constructor
  · rintro ⟨W, hW, G, hG, rfl, rfl, hu⟩
    have hd : G.toDoc P ∈ (V.toWorld P).groups := hW ▸ List.mem_map_of_mem hG
    obtain ⟨H, hH, he⟩ := List.mem_map.mp hd
    obtain ⟨hid, hname, hentries, -⟩ := Group.eq_of_toDoc_eq hP he
    exact ⟨H, hH, hid, hname, Group.users_eq_of_entries_eq hP hname hentries ▸ hu⟩
  · exact fun h => ⟨V, rfl, h⟩

def NoNew (u : List β) (V W : Vault β) : Prop :=
  ∀ H ∈ W.groups, u ∈ H.users → ∃ G ∈ V.groups, G.id = H.id ∧ G.name = H.name ∧ u ∈ G.users

theorem noNew_iff (hP : P.Ideal) :
    (∀ id g, Enrolled P (W.toWorld P) u id g → Enrolled P (V.toWorld P) u id g) ↔ NoNew u V W := by
  simp only [enrolled_iff hP]
  constructor
  · intro h H hH hu
    exact h H.id H.name ⟨H, hH, rfl, rfl, hu⟩
  · rintro h _ _ ⟨H, hH, rfl, rfl, hu⟩
    exact h H hH hu

theorem noNew_of_groups_eq (h : W.groups = V.groups) : NoNew u V W :=
  fun H hH hu => ⟨H, h ▸ hH, rfl, rfl, hu⟩

variable [DecidableEq β] {c : Change β} {s : Hashed β}

theorem noNew_modify (h : ∀ m, c = .join m → m.user ≠ u) : NoNew u V (V.modify g c s) := by
  intro H hH hu
  obtain ⟨G, hG, rfl⟩ := Vault.mem_groups_modify.mp hH
  refine ⟨G, hG, ?_⟩
  split at hu
  · obtain ⟨n, hn, rfl⟩ := List.mem_map.mp hu
    rw [if_pos ‹_›]
    rcases Group.mem_members_change hn with hn | hn
    · exact ⟨Group.change_id.symm, Group.change_name.symm, List.mem_map_of_mem hn⟩
    · exact absurd rfl (h n hn)
  · rw [if_neg ‹_›]
    exact ⟨rfl, rfl, hu⟩

theorem noNew_establish {iv : List β} {m : Member β} (hg : g ∉ V.groups.keys) (hm : m.user ≠ u) :
    NoNew u V (V.establish P g iv m) := by
  intro H hH hu
  rcases (Vault.mem_groups_found hg).mp hH with hH | rfl
  · exact ⟨H, hH, rfl, rfl, hu⟩
  · exact absurd (List.mem_singleton.mp hu).symm hm

end Facts

variable [DecidableEq β] {count : ℤ → Scalar}

section Found

def BulkFinds : Call β → World β → Prop
  | .bulkUpdateOne coll sel _, w => ∃ d ∈ w.docs coll, sel.Matches d
  | _, _ => True

omit [DecidableEq β] in
theorem Call.Silent.bulkFinds {c : Call β} (hc : c.Silent) (w : World β) : BulkFinds c w := by
  cases c <;> trivial

/-- The honest store where every write of a bulk finds its document. -/
def Found (count : ℤ → Scalar) : Env (Call β) Reply (World β) :=
  fun c w r w' => Honest count c w r w' ∧ BulkFinds c w

theorem found_honest : HonestAnswers count (Found count : Env (Call β) Reply (World β)) :=
  fun _ _ _ _ h => h.1

theorem found_update {G : Group β} {r : Except BsonError Unit} {w : World β}
    (h : Found count (.bulkUpdateOne .groups (sweepOp P u G).1 (sweepOp P u G).2)
      (V.toWorld P) r w) :
    ∃ H ∈ V.groups, H.toDoc P = G.toDoc P := by
  obtain ⟨-, d, hd, hm⟩ := h
  obtain ⟨H, hH, rfl⟩ := List.mem_map.mp hd
  exact ⟨H, hH, matches_ofDoc.mp hm⟩

end Found

def Queued (u : List β) (Gs : List (Group β)) (V : Vault β) : Prop :=
  ∀ G ∈ V.groups, u ∈ G.users → ∃ H ∈ Gs, H.id = G.id ∧ H.name = G.name

/-- Every group that the user is in is queued, or the cursor is bound to return it. -/
def Tracked (u : List β) (cur : Cursor β) (Gs : List (Group β)) (V : Vault β) : Prop :=
  ∀ G ∈ V.groups, u ∈ G.users → G.id ∈ due V cur ∨ ∃ H ∈ Gs, H.id = G.id ∧ H.name = G.name

section Tracked

variable {cur cur' : Cursor β} {Gs : List (Group β)} {G : Group β}

omit [DecidableEq β] in
theorem Queued.noNew (h : Queued u Gs V) (hVW : NoNew u V W) : Queued u Gs W := by
  intro H hH hu
  obtain ⟨G, hG, hid, hname, hu⟩ := hVW H hH hu
  rw [← hid, ← hname]
  exact h G hG hu

omit [DecidableEq β] in
theorem Tracked.noNew (h : Tracked u cur Gs V) (hVW : NoNew u V W) : Tracked u cur Gs W := by
  intro H hH hu
  obtain ⟨G, hG, hid, hname, hu⟩ := hVW H hH hu
  rcases h G hG hu with hdue | hq
  · refine .inl ?_
    cases htodo : cur.todo with
    | none =>
      unfold due
      rw [htodo]
      exact List.mem_map_of_mem hH
    | some todo =>
      rw [due, htodo] at hdue ⊢
      exact hid ▸ hdue
  · exact .inr (hid ▸ hname ▸ hq)

omit [DecidableEq β] in
theorem Tracked.visit (h : Tracked u cur Gs V) (hG : G ∈ V.groups)
    (htodo : cur'.todo = some ((due V cur).erase G.id)) : Tracked u cur' (Gs ++ [G]) V := by
  intro H hH hu
  rcases h H hH hu with hdue | ⟨K, hK, hid, hname⟩
  · by_cases hid : H.id = G.id
    · obtain rfl := Vault.group_eq_of_id_eq hH hG hid
      exact .inr ⟨H, List.mem_append_right _ (List.mem_singleton_self H), rfl, rfl⟩
    · refine .inl ?_
      unfold due
      rw [htodo]
      exact (List.mem_erase_of_ne hid).mpr hdue
  · exact .inr ⟨K, List.mem_append_left _ hK, hid, hname⟩

omit [DecidableEq β] in
theorem Tracked.finish (h : Tracked u cur Gs V) (hno : ∀ G ∈ V.groups, G.id ∉ due V cur) :
    Queued u Gs V := fun G hG hu => (h G hG hu).resolve_left (hno G hG)

theorem Queued.write {s : Hashed β} (h : Queued u (G :: Gs) V) :
    Queued u Gs (V.modify G.name (.leave u) s) := by
  intro H hH hu
  obtain ⟨K, hK, rfl⟩ := Vault.mem_groups_modify.mp hH
  by_cases hn : K.name = G.name
  · rw [if_pos hn, Group.users_leave] at hu
    simp at hu
  · rw [if_neg hn] at hu ⊢
    obtain ⟨H, hH, hid, hname⟩ := h K hK hu
    rcases List.mem_cons.mp hH with rfl | hH
    · exact absurd hname.symm hn
    · exact ⟨H, hH, hid, hname⟩

end Tracked

theorem sweeps_tracked {K : Contract (World β)} {A : Vault β → Prop}
    (hstable : ∀ V t, A V → K.rely (V.toWorld P) t →
      ∃ W, t = Vault.toWorld P W ∧ A W ∧ NoNew u V W)
    (hwrite : ∀ V g s, A V → K.guar (V.toWorld P) ((V.modify g (.leave u) s).toWorld P) ∧
      A (V.modify g (.leave u) s))
    (hforget : ∀ V, A V → (∀ G ∈ V.groups, u ∉ G.users) →
      K.guar (V.toWorld P) ((V.forget u).toWorld P) ∧ A (V.forget u)) :
    Sweeps P (Found count) K u (fun cur Gs V => A V ∧ OverGroups cur ∧ Tracked u cur Gs V)
      (fun Gs V => A V ∧ Queued u Gs V) where
  reading cur Gs :=
    { stable := by
        rintro V t ⟨hV, hover, htr⟩ ht
        obtain ⟨W, rfl, hW, hnew⟩ := hstable V t hV ht
        exact ⟨W, rfl, hW, hover, htr.noNew hnew⟩ }
  writing Gs :=
    { stable := by
        rintro V t ⟨hV, hq⟩ ht
        obtain ⟨W, rfl, hW, hnew⟩ := hstable V t hV ht
        exact ⟨W, rfl, hW, hq.noNew hnew⟩ }
  overGroups _ _ _ h := h.2.1
  visit V cur cur' Gs G h hG hover htodo := ⟨h.1, hover, h.2.2.visit hG htodo⟩
  finish V cur Gs h hno := ⟨h.1, h.2.2.finish hno⟩
  write V G H Gs h _ _ :=
    have hW := hwrite V G.name (G.nextSignature P (.leave u)) h.1
    ⟨hW.1, hW.2, h.2.write⟩
  miss V G Gs _ hstep hno := by
    obtain ⟨H, hH, he⟩ := found_update hstep
    exact absurd he (hno H hH)
  forget V h := by
    have hu : ∀ G ∈ V.groups, u ∉ G.users := fun G hG hu => by
      obtain ⟨H, hH, -⟩ := h.2 G hG hu
      cases hH
    obtain ⟨hguar, hW⟩ := hforget V h.1 hu
    exact ⟨hguar, hW, h.2⟩

end MongoSgx
