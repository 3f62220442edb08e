import MongoSgx.Store.Group

/-! # Changes of a group

The two conditional edits of the enclave on typed groups: a member joins or
leaves. A change applies to a group under a guard, which the selector of the edit
tests on the document, and the update of the edit turns the document of the group
into the document of the changed group.
-/

namespace MongoSgx

open Bson Interaction

variable {β : Type}

inductive Change (β : Type) where
  | join (m : Member β)
  | leave (u : List β)

/-- The guard of a change. -/
def Change.Applies : Change β → Group β → Prop
  | .join m, G => m.user ∉ G.users
  | .leave u, G => u ∈ G.users

section Definitions

variable [DecidableEq β] (P : Primitives β)

def Change.groupEdit (g : List β) : Change β → GroupEdit β
  | .join m => addEdit P g m.user (P.encryptAesgcm m.iv m.key)
  | .leave u => removeEdit P g u

namespace Group

def change : Change β → Hashed β → Group β → Group β
  | .join m, s, G => G.insert m s
  | .leave u, s, G => G.drop u s

/-- The signature of the group as it will be after the change. -/
def nextSignature (c : Change β) (G : Group β) : Hashed β :=
  P.hmac ((G.change c G.signature).stream P)

def next (c : Change β) (G : Group β) : Group β := G.change c (G.nextSignature P c)

variable {G H : Group β} {c : Change β} {s t : Hashed β}

@[simp] theorem change_id : (G.change c s).id = G.id := by
  cases c with
  | join m => simp only [change, insert]; split <;> rfl
  | leave u => rfl

@[simp] theorem change_name : (G.change c s).name = G.name := by
  cases c with
  | join m => simp only [change, insert]; split <;> rfl
  | leave u => rfl

@[simp] theorem change_iv : (G.change c s).iv = G.iv := by
  cases c with
  | join m => simp only [change, insert]; split <;> rfl
  | leave u => rfl

theorem members_join {m : Member β} (h : (Change.join m).Applies G) :
    (G.change (.join m) s).members = G.members ++ [m] := by
  rw [change, insert, dif_neg h]

theorem signature_join {m : Member β} (h : (Change.join m).Applies G) :
    (G.change (.join m) s).signature = s := by
  rw [change, insert, dif_neg h]

theorem change_join_of_mem {m : Member β} (h : m.user ∈ G.users) : G.change (.join m) s = G :=
  dif_pos h

@[simp] theorem members_leave {u : List β} :
    (G.change (.leave u) s).members = G.members.filter fun m => m.user ≠ u := rfl

theorem members_change : (G.change c s).members = (G.change c t).members := by
  cases c with
  | join m => simp only [change, insert]; split <;> rfl
  | leave u => rfl

theorem not_applies_change : ¬ c.Applies (G.change c s) := by
  cases c with
  | leave u => simp [Change.Applies, users]
  | join m =>
    by_cases h : (Change.join m).Applies G
    · simp [Change.Applies, users, members_join h]
    · rwa [change_join_of_mem (not_not.mp h)]

variable {P}

theorem stream_change : (G.change c s).stream P = (G.change c t).stream P := by
  simp only [stream, encname, entries, change_name, change_iv, members_change (s := s) (t := t)]

theorem signature_change (h : c.Applies G) : (G.change c s).signature = s := by
  cases c with
  | join m => exact signature_join h
  | leave u => rfl

theorem signed_change (h : ∀ s, (G.change c s).signature = s) :
    (G.change c s).Signed P ↔ s = G.nextSignature P c := by
  unfold Signed
  rw [h, nextSignature, stream_change]

theorem next_eq_self (hS : G.Signed P) (h : ¬ c.Applies G) : G.next P c = G := by
  cases c with
  | join m => exact change_join_of_mem (not_not.mp h)
  | leave u =>
    have hm : G.members.filter (fun m => m.user ≠ u) = G.members :=
      List.filter_eq_self.mpr fun m hm => by
        simpa using fun hu => h (List.mem_map.mpr ⟨m, hm, hu⟩)
    have hs : G.nextSignature P (.leave u) = G.signature := by
      rw [hS, nextSignature]
      simp only [stream, encname, entries, members_leave, hm, change_name, change_iv]
    unfold next
    rw [hs]
    simp only [change, drop, hm]

theorem next_signed (hS : G.Signed P) : (G.next P c).Signed P := by
  by_cases h : c.Applies G
  · exact (signed_change fun _ => signature_change h).mpr rfl
  · rwa [next_eq_self hS h]

end Group

end Definitions

variable {P : Primitives β} {G H : Group β} {c : Change β} {s : Hashed β} {g : List β}

section Selectors

theorem resolve_name : (Value.document (G.toDoc P)).resolve ["name"] =
    [.binary (hashName P G.name none).toList] := by
  simp [Group.toDoc, Value.resolve, Value.field, Value.leaves, Doc.get?, List.lookup_cons]

theorem resolve_signature : (Value.document (G.toDoc P)).resolve ["signature"] =
    [.binary G.signature.toList] := by
  simp [Group.toDoc, Value.resolve, Value.field, Value.leaves, Doc.get?, List.lookup_cons]

theorem resolve_users_name : (Value.document (G.toDoc P)).resolve ["users", "name"] =
    (G.entries P).map fun e => .binary e.1 := by
  have hleaf : ∀ e : List β × List β, Value.leaves (.binary e.1) = [Value.binary e.1] :=
    fun _ => rfl
  have hfield : (Value.array ((G.entries P).map entryValue)).field "name" =
      (G.entries P).map fun e => .binary e.1 := by
    rw [Value.field, List.flatMap_map, List.map_eq_flatMap]
    rfl
  change ([Value.array ((G.entries P).map entryValue)].flatMap fun v =>
    (v.field "name").flatMap Value.leaves) = _
  rw [List.flatMap_singleton, hfield, List.flatMap_map]
  simp only [hleaf]
  exact List.map_eq_flatMap.symm

theorem matches_nameSelector (hP : P.Ideal) :
    (nameSelector (hashName P g none)).Matches (G.toDoc P) ↔ G.name = g := by
  rw [← hashName_none_inj hP, ← List.Vector.toList_injective.eq_iff]
  simp [nameSelector, resolve_name, eq_comm]

theorem matches_signature {σ : List β} :
    Selector.Matches [(["signature"], .eq (.binary σ))] (G.toDoc P) ↔ G.signature.toList = σ := by
  simp [resolve_signature, eq_comm]

theorem mem_users_iff (hP : P.Ideal) {u : List β} :
    Value.binary (hashName P u (some G.name)).toList ∈
      (Value.document (G.toDoc P)).resolve ["users", "name"] ↔ u ∈ G.users := by
  simp only [resolve_users_name, List.mem_map, Value.binary.injEq, Group.entries, Group.users]
  constructor
  · rintro ⟨_, ⟨m, hm, rfl⟩, he⟩
    exact ⟨m, hm, (entry_fst_eq hP).mp he⟩
  · rintro ⟨m, hm, rfl⟩
    exact ⟨_, ⟨m, hm, rfl⟩, rfl⟩

theorem matches_ofDoc :
    (Selector.ofDoc (G.toDoc P)).Matches (H.toDoc P) ↔ H.toDoc P = G.toDoc P := by
  have hvalue : ∀ (e : List β × List β) (vs : List (Value β)), entryValue e ≠ .array vs := by
    simp [entryValue]
  simp only [Selector.ofDoc, Group.toDoc, Value.resolve, Value.field, Value.leaves, Doc.get?,
    List.map_cons, List.map_nil, Selector.matches_cons, Selector.matches_nil]
  simp [List.lookup_cons, hvalue]
  constructor
  · rintro ⟨h₁, h₂, h₃, h₄, h₅⟩
    exact ⟨h₁.symm, h₂.symm, h₃.symm, h₄.symm, h₅.symm⟩
  · rintro ⟨h₁, h₂, h₃, h₄, h₅⟩
    exact ⟨h₁.symm, h₂.symm, h₃.symm, h₄.symm, h₅.symm⟩

variable [DecidableEq β]

theorem matches_groupEdit (hP : P.Ideal) :
    (c.groupEdit P g).selector.Matches (G.toDoc P) ↔ G.name = g ∧ c.Applies G := by
  cases c with
  | join m =>
    change Selector.Matches (nameSelector _ ++ _) _ ↔ _
    rw [Selector.matches_append, matches_nameSelector hP]
    refine and_congr_right ?_
    rintro rfl
    simp [Change.Applies, mem_users_iff hP]
  | leave u =>
    change Selector.Matches (nameSelector _ ++ _) _ ↔ _
    rw [Selector.matches_append, matches_nameSelector hP]
    refine and_congr_right ?_
    rintro rfl
    simp [Change.Applies, mem_users_iff hP]

end Selectors

section Updates

variable [DecidableEq β]

theorem pullUpdate_apply (hP : P.Ideal) {u : List β} :
    Update.apply (pullUpdate (hashName P u (some G.name)) s) (G.toDoc P) =
      some ((G.drop u s).toDoc P) := by
  have hpull : ((G.entries P).map entryValue).filter (fun v => !Selector.matchesElem
      [(["name"], .eq (.binary (hashName P u (some G.name)).toList))] v) =
      ((G.drop u s).entries P).map entryValue := by
    rw [List.filter_map]
    congr 1
    simp only [Group.entries, Group.drop, List.filter_map]
    congr 1
    apply List.filter_congr
    intro m _
    rw [Bool.eq_iff_iff]
    simp [Selector.matchesElem, entryValue, Value.resolve, Value.field, Doc.get?, Value.leaves,
      Member.entry, hashName_toList_inj hP, eq_comm (a := u)]
  simp [Update.apply, pullUpdate, UpdateOp.apply, Group.toDoc, Doc.pull, Doc.set, hpull]
  exact ⟨rfl, rfl, rfl, rfl⟩

theorem groupEdit_apply (hP : P.Ideal) (h : c.Applies G) :
    Update.apply ((c.groupEdit P G.name).update s) (G.toDoc P) =
      some ((G.change c s).toDoc P) := by
  cases c with
  | leave u => exact pullUpdate_apply hP
  | join m =>
    simp [Change.groupEdit, addEdit, Update.apply, pushUpdate, UpdateOp.apply, Group.toDoc,
      Doc.push, Doc.set]
    simp [Group.encname, Group.entries, Group.members_join h, Group.signature_join h, Member.entry,
      entryValue]

theorem groupEdit_sign (hP : P.Ideal) (h : c.Applies G) :
    (c.groupEdit P G.name).sign (G.toDoc P) = some (G.nextSignature P c) := by
  cases c with
  | join m => exact computeGroupSignature_insert h _
  | leave u => exact computeGroupSignature_drop hP G u _

end Updates

section Stream

def Group.KeySized (G : Group β) : Prop := ∀ m ∈ G.members, m.key.length = keySize

theorem Group.entry_ne_nil {e : List β × List β} (he : e ∈ G.entries P) : e.1 ≠ [] := by
  obtain ⟨m, -, rfl⟩ := List.mem_map.mp he
  rw [← List.length_pos_iff]
  exact (List.Vector.toList_length _).symm ▸ by decide

theorem Group.entries_eq_of_stream_eq (hL : P.LengthRegular) (hG : G.KeySized) (hH : H.KeySized)
    (hname : G.name = H.name) (h : G.stream P = H.stream P) :
    G.encname P = H.encname P ∧ G.entries P = H.entries P := by
  have hlen : (G.encname P).length = (H.encname P).length := hL _ _ _ _ (by rw [hname])
  simp only [stream, hname, List.append_assoc, List.append_cancel_left_eq] at h
  obtain ⟨henc, hconcat⟩ := List.append_inj h hlen
  refine ⟨henc, Bytes.concat_inj_of_aligned (Bytes.aligned_of_lengths
    (fun _ => entry_ne_nil) (fun _ => entry_ne_nil) ?_) hconcat⟩
  intro e he f hf
  obtain ⟨m, hm, rfl⟩ := List.mem_map.mp he
  obtain ⟨n, hn, rfl⟩ := List.mem_map.mp hf
  refine ⟨?_, hL _ _ _ _ ((hG m hm).trans (hH n hn).symm)⟩
  exact (List.Vector.toList_length _).trans (List.Vector.toList_length _).symm

theorem Group.users_eq_of_entries_eq (hP : P.Ideal) (hname : G.name = H.name)
    (h : G.entries P = H.entries P) : G.users = H.users := by
  have hinj : Function.Injective fun u => (hashName P u (some G.name)).toList :=
    fun u v huv => (hashName_toList_inj hP).mp huv
  apply List.map_injective_iff.mpr hinj
  have h := congrArg (List.map Prod.fst) h
  simpa [entries, users, Member.entry, hname, Function.comp_def] using h

variable [DecidableEq β]

theorem Group.entries_leave (hP : P.Ideal) {u : List β} :
    (G.change (.leave u) s).entries P =
      (G.entries P).filter fun e => e.1 ≠ (hashName P u (some G.name)).toList := by
  simp only [entries, members_leave, List.filter_map, change_name]
  congr 1
  apply List.filter_congr
  intro m _
  simp [entry_fst_eq hP]

theorem Group.entries_join {m : Member β} (h : (Change.join m).Applies G) :
    (G.change (.join m) s).entries P = G.entries P ++ [m.entry P G.name] := by
  simp [entries, members_join h]

theorem Group.stream_change_congr (hP : P.Ideal) (hname : G.name = H.name)
    (henc : G.encname P = H.encname P) (h : G.entries P = H.entries P) {t : Hashed β} :
    (G.change c s).stream P = (H.change c t).stream P := by
  have hentries : (G.change c s).entries P = (H.change c t).entries P := by
    cases c with
    | leave u => rw [entries_leave hP, entries_leave hP, h, hname]
    | join m =>
      by_cases hm : m.user ∈ G.users
      · have hm' : m.user ∈ H.users := users_eq_of_entries_eq hP hname h ▸ hm
        rw [change_join_of_mem hm, change_join_of_mem hm', h]
      · have hm' : m.user ∉ H.users := users_eq_of_entries_eq hP hname h ▸ hm
        rw [entries_join hm, entries_join hm', h, hname]
  have henc' : (G.change c s).encname P = (H.change c t).encname P := by
    simpa only [encname, change_name, change_iv] using henc
  unfold stream
  rw [hentries, henc', change_name, change_name, hname]

/-- A signature predicted from one group signs the change of every group with the same old
signature. -/
theorem Group.signed_change_of_signature_eq (hP : P.Ideal) (hL : P.LengthRegular)
    (hG : G.KeySized) (hH : H.KeySized) (hGs : G.Signed P) (hHs : H.Signed P)
    (hname : G.name = H.name) (hsig : G.signature = H.signature)
    (hc : ∀ s, (H.change c s).signature = s) :
    (H.change c (G.nextSignature P c)).Signed P := by
  have hstream : G.stream P = H.stream P := hP.hmac_inj.mp (hGs.symm.trans (hsig.trans hHs))
  obtain ⟨henc, hentries⟩ := entries_eq_of_stream_eq hL hG hH hname hstream
  rw [signed_change hc, nextSignature, nextSignature, stream_change_congr hP hname henc hentries]

end Stream

end MongoSgx
