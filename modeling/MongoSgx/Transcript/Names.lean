import MongoSgx.Transcript.Effects

/-! # The names of groups

The names of group documents are binary, and no operation changes one. What an
operation writes for one group leaves the documents of every other group as they
were.
-/

namespace MongoSgx

open Bson Interaction

variable {β : Type}

def WellNamed (w : World β) : Prop :=
  ∀ d ∈ w.groups, ∃ name, Doc.get? d "name" = some (.binary name)

section Definitions

variable [DecidableEq β] (P : Primitives β) (g : List β)

def groupDocs (w : World β) : List (Doc β) :=
  w.groups.filter fun d => (nameSelector (hashName P g none)).Matches d

/-- The call keeps the names of group documents binary. -/
def Call.KeepsNames (c : Call β) : Prop :=
  ∀ w r w', Honest .int64 c w r w' → WellNamed w → WellNamed w'

def Call.Spares (c : Call β) : Prop :=
  ∀ w r w', Honest .int64 c w r w' → WellNamed w → groupDocs P g w' = groupDocs P g w

inductive Request.Elsewhere (g : List β) : Request β → Prop
  | createUser (u key : List β) : Elsewhere g (.op (.createUser u key))
  | createGroup {h : List β} (u : List β) (hne : h ≠ g) : Elsewhere g (.op (.createGroup h u))
  | add {h : List β} (u : List β) (hne : h ≠ g) : Elsewhere g (.op (.addUserToGroup h u))
  | remove {h : List β} (u : List β) (hne : h ≠ g) : Elsewhere g (.op (.removeUserFromGroup h u))
  | keys (h : List β) : Elsewhere g (.getKeysOfGroup h)
  | member (h u : List β) : Elsewhere g (.isUserPartOfGroup h u)

end Definitions

section Calls

variable [DecidableEq β] {P : Primitives β} {g h : List β} {c : Call β}

omit [DecidableEq β] in
theorem matches_nameSelector_congr {hashed : Hashed β} {d d' : Doc β}
    (hd : Doc.get? d' "name" = Doc.get? d "name") :
    (nameSelector hashed).Matches d' ↔ (nameSelector hashed).Matches d := by
  simp [nameSelector, Value.resolve, Value.field, hd]

theorem keepsNames_of_groups (hc : ∀ w r w', Honest .int64 c w r w' → w'.groups = w.groups) :
    c.KeepsNames := by
  intro w r w' hE hw
  rw [WellNamed, hc w r w' hE]
  exact hw

theorem spares_of_groups (hc : ∀ w r w', Honest .int64 c w r w' → w'.groups = w.groups) :
    c.Spares P g := by
  intro w r w' hE _
  rw [groupDocs, groupDocs, hc w r w' hE]

theorem groups_of_silent (hc : c.Silent) (w : World β) (r : Reply c) (w' : World β)
    (hE : Honest .int64 c w r w') : w'.groups = w.groups := by
  rw [honest_silent hc hE]

theorem groups_of_cursorNext (cur : Cursor β) (w : World β) (r : Reply (.cursorNext cur))
    (w' : World β) (hE : Honest .int64 (.cursorNext cur) w r w') : w'.groups = w.groups := by
  rw [hE.1]

theorem groups_of_insertUser (doc : Doc β) (w : World β) (r : Except BsonError Unit) (w' : World β)
    (hE : Honest .int64 (.insertOne .users doc) w r w') : w'.groups = w.groups := by
  rcases hE with ⟨-, rfl, -⟩ | ⟨-, -, rfl⟩
  · rfl
  · rfl

theorem groups_of_deleteUser (sel : Selector β) (w : World β) (r : Except BsonError Unit)
    (w' : World β) (hE : Honest .int64 (.deleteOne .users sel) w r w') : w'.groups = w.groups := by
  obtain ⟨-, ⟨rfl, -⟩ | ⟨l, d, l', -, -, rfl⟩⟩ := hE
  · rfl
  · rfl

theorem insertGroup_names {doc : Doc β} {name : List β}
    (hdoc : Doc.get? doc "name" = some (.binary name)) :
    (Call.insertOne .groups doc).KeepsNames ∧
      (name ≠ (hashName P g none).toList → (Call.insertOne .groups doc).Spares P g) := by
  have hname : ∀ id, Doc.get? (("_id", .scalar (.oid id)) :: doc) "name" = some (.binary name) := by
    intro id
    rw [Doc.get?_cons, if_neg (by decide), hdoc]
  constructor
  · rintro w r w' (⟨-, rfl, -⟩ | ⟨-, -, rfl⟩) hw
    · exact hw
    · intro d hd
      rcases List.mem_append.mp hd with hd | hd
      · exact hw d hd
      · rw [List.mem_singleton.mp hd]
        exact ⟨name, hname _⟩
  · rintro hne w r w' (⟨-, rfl, -⟩ | ⟨-, -, rfl⟩) -
    · rfl
    · change List.filter _ (w.groups ++ [_]) = List.filter _ w.groups
      rw [List.filter_append, List.filter_cons_of_neg, List.filter_nil, List.append_nil]
      simpa [matches_nameSelector_iff (hname w.nextId)] using hne

theorem updateOne_names {sel : Selector β} {upd : Update β} {ds ds' : List (Doc β)} {n : ℤ}
    (hupd : ∀ op ∈ upd, "name" ≠ op.key) (hu : UpdateOne sel upd ds n ds') :
    (∀ d' ∈ ds', ∃ d ∈ ds, Doc.get? d' "name" = Doc.get? d "name") ∧
      ∀ hashed : Hashed β, (∀ d ∈ ds, sel.Matches d → ¬ (nameSelector hashed).Matches d) →
        ds'.filter (fun d => (nameSelector hashed).Matches d) =
          ds.filter fun d => (nameSelector hashed).Matches d := by
  cases hu with
  | none => exact ⟨fun d hd => ⟨d, hd, rfl⟩, fun _ _ => rfl⟩
  | @one l l' d d' hm hd =>
    have hname := Update.get?_apply hupd hd
    constructor
    · intro e he
      rcases List.mem_append.mp he with he | he
      · exact ⟨e, List.mem_append_left _ he, rfl⟩
      · rcases List.mem_cons.mp he with rfl | he
        · exact ⟨d, by simp, hname⟩
        · exact ⟨e, List.mem_append_right _ (List.mem_cons_of_mem _ he), rfl⟩
    · intro hashed hno
      have hd : ¬ (nameSelector hashed).Matches d := hno d (by simp) hm
      have hd' : ¬ (nameSelector hashed).Matches d' :=
        fun h => hd ((matches_nameSelector_congr hname).mp h)
      rw [List.filter_append, List.filter_append, List.filter_cons_of_neg (by simpa using hd'),
        List.filter_cons_of_neg (by simpa using hd)]

omit [DecidableEq β] in
theorem WellNamed.of_update {w : World β} {ds : List (Doc β)} (hw : WellNamed w)
    (h : ∀ d' ∈ ds, ∃ d ∈ w.groups, Doc.get? d' "name" = Doc.get? d "name") :
    WellNamed (w.setDocs .groups ds) := by
  intro d' hd'
  obtain ⟨d, hd, he⟩ := h d' hd'
  rw [he]
  exact hw d hd

theorem updateGroup_names (hP : P.Ideal) {sel : Selector β} {upd : Update β}
    (hupd : ∀ op ∈ upd, "name" ≠ op.key) :
    (Call.updateOne .groups (nameSelector (hashName P h none) ++ sel) upd).KeepsNames ∧
      (h ≠ g →
        (Call.updateOne .groups (nameSelector (hashName P h none) ++ sel) upd).Spares P g) := by
  constructor
  · rintro w r w' (⟨n, ds, hu, -, rfl⟩ | ⟨-, rfl, -⟩) hw
    · exact hw.of_update (updateOne_names hupd hu).1
    · exact hw
  · rintro hne w r w' (⟨n, ds, hu, -, rfl⟩ | ⟨-, rfl, -⟩) hw
    · apply (updateOne_names hupd hu).2
      intro d hd hm hg
      obtain ⟨name, hname⟩ := hw d hd
      rw [Selector.matches_append, matches_nameSelector_iff hname] at hm
      rw [matches_nameSelector_iff hname] at hg
      have heq : hashName P h none = hashName P g none :=
        List.Vector.toList_injective (hm.1.symm.trans hg)
      exact hne ((hashName_none_inj hP).mp heq)
    · rfl

theorem bulkUpdate_keepsNames {sel : Selector β} {upd : Update β}
    (hupd : ∀ op ∈ upd, "name" ≠ op.key) : (Call.bulkUpdateOne .groups sel upd).KeepsNames := by
  rintro w r w' (⟨n, ds, hu, -, rfl⟩ | ⟨-, rfl, -⟩) hw
  · exact hw.of_update (updateOne_names hupd hu).1
  · exact hw

theorem deleteNext_keepsNames {coll : Collection} {sel : Selector β} {todo : Option (List ℕ)} :
    (Call.deleteNext coll sel todo).KeepsNames := by
  rintro w r w' (⟨l, d, l', id, hl, -, -, -, rfl⟩ | ⟨-, -, rfl⟩) hw
  · cases coll with
    | users => exact hw
    | groups =>
      intro e he
      apply hw e
      change w.groups = _ at hl
      rw [hl]
      rcases List.mem_append.mp he with he | he
      · exact List.mem_append_left _ he
      · exact List.mem_append_right _ (List.mem_cons_of_mem _ he)
  · exact hw

omit [DecidableEq β] in
theorem pushUpdate_keeps {hashed s : Hashed β} {key : List β} :
    ∀ op ∈ pushUpdate hashed key s, "name" ≠ op.key := by
  simp [pushUpdate, UpdateOp.key]

omit [DecidableEq β] in
theorem pullUpdate_keeps {hashed s : Hashed β} :
    ∀ op ∈ pullUpdate hashed s, "name" ≠ op.key := by
  simp [pullUpdate, UpdateOp.key]

end Calls

section Requests

variable [DecidableEq β] {P : Primitives β} {g h u : List β} {q : Request β}

/-- Calls keep the names of groups, and those of a request that is not about the group leave its
documents alone. -/
def nameWatch (P : Primitives β) (g : List β) (q : Request β) : Watch β where
  allowed _ := True
  guar _ x := x.call.KeepsNames ∧ (q.Elsewhere g → x.call.Spares P g)
  silent _ _ hx := ⟨keepsNames_of_groups (groups_of_silent hx),
    fun _ => spares_of_groups (groups_of_silent hx)⟩

theorem nameWatch_read (log : Log β) (cur : Cursor β) (r : Reply (.cursorNext cur)) :
    (nameWatch P g q).guar log ⟨.cursorNext cur, r⟩ :=
  ⟨keepsNames_of_groups (groups_of_cursorNext cur),
    fun _ => spares_of_groups (groups_of_cursorNext cur)⟩

theorem editRule_names (hP : P.Ideal) {edit : GroupEdit β} {sel : Selector β}
    (hsel : edit.selector = nameSelector (hashName P h none) ++ sel)
    (hupd : ∀ s, ∀ op ∈ edit.update s, "name" ≠ op.key) (hq : q.Elsewhere g → h ≠ g) :
    EditRule (nameWatch P g q) P edit (fun _ _ => True) (fun _ _ _ => True) (fun _ _ => True) where
  quiet_start _ _ _ _ _ := trivial
  quiet_read _ _ _ _ _ _ := trivial
  quiet_done _ _ _ _ _ := trivial
  find _ _ _ _ _ := nameWatch_read ..
  absent _ _ _ _ _ := trivial
  present _ _ _ _ _ _ := trivial
  stop _ _ _ _ _ _ := trivial
  send n d log sel' upd r _ hedit _ := by
    obtain ⟨-, σ, s, -, -, rfl, rfl⟩ := hedit
    rw [hsel, List.append_assoc]
    obtain ⟨hkeeps, hspares⟩ := updateGroup_names (g := g) (h := h) hP (hupd s)
    exact ⟨hkeeps, fun he => hspares (hq he)⟩
  answer n d log sel' upd r _ _ _ := by
    cases r with
    | ok => simp [Answered]
    | error => simp [Answered]
  exhausted _ _ := trivial

theorem joinRule_names (hP : P.Ideal) (hq : q.Elsewhere g → h ≠ g) :
    JoinRule (nameWatch P g q) P h u (fun _ => True) (fun _ _ _ => True) (fun _ _ _ => True)
      (fun _ _ _ _ => True) (fun _ _ => True) where
  record := {
    quiet_start := fun _ _ _ _ => trivial
    quiet_read := fun _ _ _ _ _ _ => trivial
    find := fun _ _ _ _ => nameWatch_read ..
    absent := fun _ _ _ _ => trivial
    present := fun _ _ _ _ _ => trivial
    stop := fun _ _ _ _ _ _ => trivial }
  edit _ := editRule_names hP rfl (fun _ => pushUpdate_keeps) hq
  start _ _ _ _ _ _ _ := trivial

theorem foundRule_names (hP : P.Ideal) (hq : q.Elsewhere g → h ≠ g) :
    FoundRule (nameWatch P g q) P h u (fun _ => True) (fun _ _ _ => True) (fun _ _ => True)
      (fun _ _ _ => True) (fun _ _ _ _ => True) (fun _ _ => True) where
  record := (joinRule_names hP hq).record
  edit := (joinRule_names hP hq).edit
  quiet_insert _ _ _ _ _ := trivial
  start _ _ _ _ _ _ _ := trivial
  insert c iv r log _ _ := by
    have hdoc : Doc.get? (newGroupDoc P h u c iv) "name" =
        some (.binary (hashName P h none).toList) := rfl
    obtain ⟨hkeeps, hspares⟩ := insertGroup_names (P := P) (g := g) hdoc
    refine ⟨hkeeps, fun he => hspares fun heq => hq he ?_⟩
    exact (hashName_none_inj hP).mp (List.Vector.toList_injective heq)
  inserted _ _ _ _ _ := trivial
  refused _ _ _ _ _ _ _ := trivial
  failed _ _ _ _ _ _ _ := trivial

theorem sweepRule_names : SweepRule (nameWatch P g (.op (.deleteUser u))) P u (fun _ bulk _ =>
      ∀ op ∈ bulk, ∀ edit ∈ op.2, "name" ≠ edit.key)
    (fun _ bulk _ _ => ∀ op ∈ bulk, ∀ edit ∈ op.2, "name" ≠ edit.key)
    (fun bulk _ => ∀ op ∈ bulk, ∀ edit ∈ op.2, "name" ≠ edit.key) (fun _ _ => True) where
  quiet_round _ _ _ _ h _ := h
  quiet_read _ _ _ _ _ h _ := h
  quiet_write _ _ _ h _ := h
  quiet_done _ _ _ _ _ := trivial
  next _ _ _ _ _ _ := nameWatch_read ..
  visit _ _ _ _ _ h _ := h
  stop _ _ _ _ _ _ _ := trivial
  queue _ bulk d _ op h hop := by
    obtain ⟨-, c, g, s, -, -, -, rfl⟩ := hop
    intro op' hop'
    rcases List.mem_append.mp hop' with hop' | hop'
    · exact h op' hop'
    · rw [List.mem_singleton.mp hop']
      exact pullUpdate_keeps
  idle _ _ _ _ _ := trivial
  ended _ _ _ _ _ h _ := h
  write op _ _ _ h _ := ⟨bulkUpdate_keepsNames (h op (List.mem_cons_self ..)), nofun⟩
  written _ _ _ h _ op hop := h op (List.mem_cons_of_mem _ hop)
  broken _ _ _ _ _ _ := by
    split
    · trivial
    · simp
  delete _ _ _ _ := ⟨keepsNames_of_groups (groups_of_deleteUser _), nofun⟩
  deleted _ _ _ := trivial
  failed _ _ _ _ := trivial

theorem records_names (hP : P.Ideal) (g : List β) (q : Request β) :
    (nameWatch P g q).Records (fun _ _ => True) (q.prog P) [] := by
  cases q with
  | op o =>
    apply Records.map
    cases o with
    | createUser u key =>
      apply records_createUser (A := fun _ => True) (D := fun _ _ => True)
      · exact fun _ _ _ _ => trivial
      · exact fun _ _ _ _ _ => trivial
      · exact fun iv r log _ _ => ⟨⟨keepsNames_of_groups (groups_of_insertUser _),
          fun _ => spares_of_groups (groups_of_insertUser _)⟩, trivial⟩
      · trivial
    | createGroup h u =>
      have hq : (Request.op (.createGroup h u)).Elsewhere g → h ≠ g := by
        intro hq
        cases hq with
        | createGroup _ hne => exact hne
      exact (foundRule_names hP hq).records_createGroup trivial
    | addUserToGroup h u =>
      have hq : (Request.op (.addUserToGroup h u)).Elsewhere g → h ≠ g := by
        intro hq
        cases hq with
        | add _ hne => exact hne
      exact (joinRule_names hP hq).records_addUserToGroup trivial
    | removeUserFromGroup h u =>
      have hq : (Request.op (.removeUserFromGroup h u)).Elsewhere g → h ≠ g := by
        intro hq
        cases hq with
        | remove _ hne => exact hne
      apply EditRule.records_editAttempts (A := fun _ _ => True) (B := fun _ _ _ => True)
      · exact editRule_names hP rfl (fun _ => pullUpdate_keeps) hq
      · trivial
    | deleteUser u => exact sweepRule_names.records_deleteUser (by simp)
    | deleteAllData =>
      apply records_deleteAllData (A := fun _ => True) (D := fun _ _ => True)
      · exact fun _ _ _ _ => trivial
      · intro coll todo r log _ _
        refine ⟨⟨deleteNext_keepsNames, nofun⟩, ?_⟩
        cases r <;> simp
      · exact fun _ _ => trivial
      · trivial
  | getKeysOfGroup h =>
    apply Records.map
    apply records_getKeysOfGroup (A := fun _ => True) (B := fun _ _ => True)
    · exact fun _ _ _ _ => trivial
    · exact fun _ _ _ _ _ => trivial
    · exact fun x log _ _ => ⟨nameWatch_read .., trivial⟩
    · exact fun _ _ _ _ => trivial
    · exact fun _ _ _ _ _ _ => trivial
    · trivial
  | isUserPartOfGroup h u =>
    apply Records.map
    apply records_isUserPartOfGroup (A := fun _ => True) (B := fun _ _ => True)
    · exact fun _ _ _ _ => trivial
    · exact fun _ _ _ _ _ => trivial
    · exact fun x log _ _ => ⟨nameWatch_read .., trivial⟩
    · exact fun _ _ _ _ _ _ => trivial
    · exact fun _ _ _ _ => trivial
    · trivial

end Requests

end MongoSgx
