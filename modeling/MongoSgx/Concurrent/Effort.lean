import Mathlib.Algebra.BigOperators.Ring.List
import Mathlib.Algebra.Ring.Nat
import MongoSgx.Adversary.Signing
import MongoSgx.Interaction.Supply
import MongoSgx.Sequential.Directory
import MongoSgx.Transcript.Work

/-! # The effort of an operation on an honest store

An honest cursor returns no document twice, and a document is deleted once. So the
only thing that keeps a deletion going is that others insert documents, and every
call ends with a number of reads and writes that is linear in the documents at
its beginning and those inserted meanwhile.
-/

namespace MongoSgx

open Bson Interaction

variable {β : Type}

section Definitions

def World.groupIds (w : World β) : List ℕ := w.groups.filterMap docId

/-- No two groups share an `_id`, and the driver has generated all of them. -/
structure World.Numbered (w : World β) : Prop where
  nodup : w.groupIds.Nodup
  fresh : ∀ id ∈ w.groupIds, id < w.nextId

def World.size (w : World β) : ℕ := w.users.length + w.groups.length

def Call.SparesIds : Call β → Prop
  | .updateOne _ _ update | .bulkUpdateOne _ _ update => ∀ op ∈ update, "_id" ≠ op.key
  | _ => True

def Call.ReadsGroups : Call β → Prop
  | .cursorNext cursor => cursor.collection = .groups
  | _ => True

def inserted : Line β → ℕ
  | ⟨.insertOne _ _, .ok ()⟩ => 1
  | _ => 0

def insertedId (x : Line β) (w : World β) : List ℕ :=
  match x with
  | ⟨.insertOne .groups _, .ok ()⟩ => [w.nextId]
  | _ => []

def taken : Line β → Option ℕ
  | ⟨.cursorNext _, (some _, cur)⟩ => some (cur.seen.headD 0)
  | _ => none

/-- The cursor has returned no document twice, and it will not. -/
structure Cursor.Orderly (cur : Cursor β) : Prop where
  start : cur.todo = none → cur.seen = []
  seen : cur.seen.Nodup
  todo : ∀ todo, cur.todo = some todo → todo.Nodup ∧ todo.Disjoint cur.seen

/-- How many reads and writes a document can add to a request. -/
def Request.rate : Request β → ℕ
  | .op (.deleteUser _) => 2
  | .op .deleteAllData => 1
  | _ => 0

end Definitions

section Worlds

variable {count : ℤ → Scalar} {w w' : World β} {x : Line β} {ds : List (Doc β)}

theorem length_insertedId (x : Line β) (w : World β) :
    (insertedId x w).length ≤ inserted x := by
  unfold insertedId
  split
  · exact le_rfl
  · exact Nat.zero_le _

theorem docId_congr {d d' : Doc β} (h : Doc.get? d' "_id" = Doc.get? d "_id") :
    docId d' = docId d := by
  rw [docId, h, docId]

theorem groupIds_setDocs {coll : Collection}
    (h : (ds.filterMap docId).Sublist ((w.docs coll).filterMap docId)) :
    (w.setDocs coll ds).groupIds.Sublist w.groupIds := by
  cases coll with
  | users => exact .refl _
  | groups => exact h

theorem size_setDocs (w : World β) (coll : Collection) (ds : List (Doc β)) :
    (w.setDocs coll ds).size + (w.docs coll).length = w.size + ds.length := by
  cases coll with
  | users =>
    change ds.length + w.groups.length + w.users.length = _
    unfold World.size
    omega
  | groups =>
    change w.users.length + ds.length + w.groups.length = _
    unfold World.size
    omega

variable [DecidableEq β] {P : Primitives β}

theorem updateOne_ids {sel : Selector β} {upd : Update β} {n : ℤ} {ds' : List (Doc β)}
    (hupd : ∀ op ∈ upd, "_id" ≠ op.key) (h : UpdateOne sel upd ds n ds') :
    ds'.filterMap docId = ds.filterMap docId := by
  cases h with
  | none => rfl
  | one _ hd =>
    have hid := docId_congr (Update.get?_apply hupd hd)
    simp [List.filterMap_append, List.filterMap_cons, hid]

theorem updateOne_length {sel : Selector β} {upd : Update β} {n : ℤ} {ds' : List (Doc β)}
    (h : UpdateOne sel upd ds n ds') : ds'.length = ds.length := by
  cases h with
  | none => rfl
  | one => simp

/-- The updates that the enclave signs are of its own making. -/
theorem sparesIds_of_sent {q : Request β} {log : Log β}
    (h : x.call.Signs → SentFrom P q log x.call) : x.call.SparesIds := by
  obtain ⟨c, r⟩ := x
  cases c with
  | updateOne =>
    cases h trivial with
    | join _ _ _ hedit =>
      obtain ⟨-, σ, s, -, -, rfl, rfl⟩ := hedit
      simp [Call.SparesIds, addEdit, pushUpdate, UpdateOp.key]
    | leave _ hedit =>
      obtain ⟨-, σ, s, -, -, rfl, rfl⟩ := hedit
      simp [Call.SparesIds, removeEdit, pullUpdate, UpdateOp.key]
  | bulkUpdateOne =>
    cases h trivial with
    | sweep _ hop =>
      obtain ⟨-, c, g, s, -, -, -, he⟩ := hop
      obtain ⟨rfl, rfl⟩ := Prod.mk.inj he
      simp [Call.SparesIds, pullUpdate, UpdateOp.key]
  | _ => trivial

theorem honest_groupIds (hx : x.call.SparesIds) (h : Honest count x.call w x.reply w') :
    w'.groupIds.Sublist (w.groupIds ++ insertedId x w) ∧ w'.nextId = w.nextId + inserted x := by
  obtain ⟨c, r⟩ := x
  have hkept : ∀ {w' : World β} ids, w'.groupIds.Sublist w.groupIds →
      w'.groupIds.Sublist (w.groupIds ++ ids) :=
    fun ids h => h.trans (List.sublist_append_left _ ids)
  have hdelete : ∀ {coll : Collection} {l l' : List (Doc β)} {d : Doc β},
      w.docs coll = l ++ d :: l' → (w.setDocs coll (l ++ l')).groupIds.Sublist w.groupIds := by
    intro coll l l' d hl
    apply groupIds_setDocs
    rw [hl]
    exact ((List.sublist_cons_self d l').append_left l).filterMap docId
  cases c with
  | create | destroy | randomIv | printf =>
    obtain rfl : w' = w := h
    exact ⟨hkept _ (.refl _), rfl⟩
  | cursorNext =>
    obtain ⟨rfl, -⟩ := h
    exact ⟨hkept _ (.refl _), rfl⟩
  | insertOne coll doc =>
    rcases h with ⟨-, rfl, e, -, rfl⟩ | ⟨-, rfl, rfl⟩
    · exact ⟨hkept _ (.refl _), rfl⟩
    · refine ⟨?_, rfl⟩
      cases coll with
      | users => exact hkept _ (.refl _)
      | groups =>
        change ((w.groups ++ [_]).filterMap docId).Sublist _
        rw [List.filterMap_append]
        exact .refl _
  | updateOne coll sel upd | bulkUpdateOne coll sel upd =>
    rcases h with ⟨n, ds, hu, rfl, rfl⟩ | ⟨-, rfl, -⟩
    · exact ⟨hkept _ (groupIds_setDocs (updateOne_ids hx hu ▸ .refl _)), by cases coll <;> rfl⟩
    · exact ⟨hkept _ (.refl _), rfl⟩
  | deleteOne coll sel =>
    obtain ⟨-, ⟨rfl, -⟩ | ⟨l, d, l', hl, -, rfl⟩⟩ := h
    · exact ⟨hkept _ (.refl _), rfl⟩
    · exact ⟨hkept _ (hdelete hl), by cases coll <;> rfl⟩
  | deleteNext coll sel todo =>
    rcases h with ⟨l, d, l', id, hl, -, -, -, rfl⟩ | ⟨-, -, rfl⟩
    · exact ⟨hkept _ (hdelete hl), by cases coll <;> rfl⟩
    · exact ⟨hkept _ (.refl _), rfl⟩

theorem World.Numbered.step (hw : w.Numbered) (hx : x.call.SparesIds)
    (h : Honest count x.call w x.reply w') : w'.Numbered := by
  obtain ⟨hids, hnext⟩ := honest_groupIds hx h
  have hmem : ∀ id ∈ insertedId x w, id = w.nextId ∧ inserted x = 1 := by
    unfold insertedId
    split
    · exact fun id hid => ⟨List.mem_singleton.mp hid, rfl⟩
    · exact fun id hid => absurd hid List.not_mem_nil
  have hnodup : (insertedId x w).Nodup := by
    unfold insertedId
    split
    · exact List.nodup_singleton _
    · exact List.nodup_nil
  constructor
  · apply hids.nodup
    apply hw.nodup.append hnodup
    intro id hid hid'
    exact absurd (hw.fresh id hid) (by rw [(hmem id hid').1]; exact lt_irrefl _)
  · intro id hid
    rcases List.mem_append.mp (hids.subset hid) with hid | hid
    · have := hw.fresh id hid
      omega
    · obtain ⟨rfl, hone⟩ := hmem id hid
      omega

theorem honest_size (h : Honest count x.call w x.reply w') :
    w'.size + deleted x ≤ w.size + inserted x := by
  obtain ⟨c, r⟩ := x
  cases c with
  | create | destroy | randomIv | printf =>
    obtain rfl : w' = w := h
    exact le_rfl
  | cursorNext =>
    obtain ⟨rfl, -⟩ := h
    exact le_rfl
  | insertOne coll doc =>
    rcases h with ⟨-, rfl, e, -, rfl⟩ | ⟨-, rfl, rfl⟩
    · exact le_rfl
    · have hsize := size_setDocs w coll
        (w.docs coll ++ [("_id", .scalar (.oid w.nextId)) :: doc])
      rw [List.length_append, List.length_singleton] at hsize
      change (w.setDocs coll _).size + 0 ≤ w.size + 1
      omega
  | updateOne coll sel upd | bulkUpdateOne coll sel upd =>
    rcases h with ⟨n, ds, hu, rfl, rfl⟩ | ⟨-, rfl, -⟩
    · have hsize := size_setDocs w coll ds
      rw [updateOne_length hu] at hsize
      exact (Nat.add_right_cancel hsize).le
    · exact le_rfl
  | deleteOne coll sel =>
    obtain ⟨-, ⟨rfl, -⟩ | ⟨l, d, l', hl, -, rfl⟩⟩ := h
    · exact le_rfl
    · have hsize := size_setDocs w coll (l ++ l')
      rw [hl] at hsize
      simp only [List.length_append, List.length_cons] at hsize
      change (w.setDocs coll _).size + 0 ≤ w.size + 0
      omega
  | deleteNext coll sel todo =>
    rcases h with ⟨l, d, l', id, hl, -, -, rfl, rfl⟩ | ⟨-, rfl, rfl⟩
    · have hsize := size_setDocs w coll (l ++ l')
      rw [hl] at hsize
      simp only [List.length_append, List.length_cons] at hsize
      change (w.setDocs coll _).size + 1 ≤ w.size + 0
      omega
    · exact le_rfl

end Worlds

section Accounts

variable {log : Log β} {x : Line β} {cur : Cursor β}

theorem taken_eq_none (hx : visited x = 0) : taken x = none := by
  obtain ⟨c, r⟩ := x
  cases c <;> first | rfl | skip
  rcases r with ⟨_ | d, cur⟩
  · rfl
  · exact absurd hx one_ne_zero

theorem length_filterMap_taken (log : Log β) :
    (log.map visited).sum = (log.filterMap taken).length := by
  induction log with
  | nil => rfl
  | cons x log ih =>
    rw [List.map_cons, List.sum_cons, ih, List.filterMap_cons]
    obtain ⟨c, r⟩ := x
    cases c <;> first | exact Nat.zero_add _ | skip
    rcases r with ⟨_ | d, cur⟩
    · exact Nat.zero_add _
    · exact Nat.add_comm _ _

theorem visited_of_silent (hx : x.call.Silent) : visited x = 0 := by
  obtain ⟨c, r⟩ := x
  cases c <;> first | exact hx.elim | rfl

structure Tallied (cur : Cursor β) (log : Log β) : Prop where
  groups : cur.collection = .groups
  orderly : cur.Orderly
  taken : log.filterMap taken = cur.seen.reverse

theorem filterMap_snoc (hx : visited x = 0) :
    (log ++ [x]).filterMap taken = log.filterMap taken := by
  rw [List.filterMap_append, List.filterMap_cons, taken_eq_none hx]
  simp

theorem quiet_tallied : Quiet (Tallied cur) :=
  fun _ _ h hx => ⟨h.groups, h.orderly, by rw [filterMap_snoc (visited_of_silent hx), h.taken]⟩

def TakenOnce (log : Log β) : Prop := (log.filterMap taken).Nodup

theorem TakenOnce.snoc (h : TakenOnce log) (hx : visited x = 0) : TakenOnce (log ++ [x]) := by
  rw [TakenOnce, filterMap_snoc hx]
  exact h

theorem quiet_takenOnce : Quiet (TakenOnce (β := β)) :=
  fun _ _ h hx => h.snoc (visited_of_silent hx)

theorem Tallied.takenOnce (h : Tallied cur log) : TakenOnce log := by
  rw [TakenOnce, h.taken, List.nodup_reverse]
  exact h.orderly.seen

theorem orderly_findWithOpts (coll : Collection) (sel : Selector β) (opts : Option (Doc β))
    (mode : Option ReadMode) : (findWithOpts coll sel opts mode).Orderly :=
  ⟨fun _ => rfl, List.nodup_nil, fun _ h => by cases h⟩

end Accounts

section Cursors

variable [DecidableEq β] {count : ℤ → Scalar} {w : World β} {cur cur' : Cursor β}
  {r : Option (Doc β) × Cursor β}

theorem Cursor.Orderly.next (h : cur.Orderly) (hw : w.Numbered) (hcur : cur.collection = .groups)
    (hn : CursorNext (w.docs cur.collection) cur r) :
    r.1 = none ∨ r.2.collection = .groups ∧ r.2.Orderly ∧
      ∃ id ∈ w.groupIds, id ∉ cur.seen ∧ r.2.seen = id :: cur.seen := by
  rcases hn with ⟨d, id, hd, -, hid, hdue, rfl⟩ | ⟨-, rfl⟩
  · right
    rw [hcur] at hd hdue
    have htodo : (cur.todo.getD (firstAnswer cur.filter w.groups)).Nodup ∧
        (cur.todo.getD (firstAnswer cur.filter w.groups)).Disjoint cur.seen := by
      cases ht : cur.todo with
      | some todo => exact h.todo todo ht
      | none =>
        rw [h.start ht]
        exact ⟨hw.nodup.sublist (List.filter_sublist.filterMap docId),
          List.disjoint_nil_right _⟩
    have hseen : id ∉ cur.seen := by
      rcases hdue with hdue | hnew
      · exact fun hid' => htodo.2 hdue hid'
      · exact hnew
    refine ⟨hcur, ⟨fun ht => (by cases ht), List.nodup_cons.mpr ⟨hseen, h.seen⟩, ?_⟩, id,
      List.mem_filterMap.mpr ⟨d, hd, hid⟩, hseen, rfl⟩
    rintro todo ht
    obtain rfl := Option.some.inj ht
    rw [hcur]
    refine ⟨htodo.1.erase id, List.disjoint_cons_right.mpr ⟨?_, ?_⟩⟩
    · exact htodo.1.not_mem_erase
    · exact fun _ hid hseen => htodo.2 (List.mem_of_mem_erase hid) hseen
  · exact .inl rfl

/-- A client reads groups, and takes none of them twice. -/
def effortWatch (β : Type) [DecidableEq β] (count : ℤ → Scalar) : Watch β where
  allowed x := ∃ w w', w.Numbered ∧ Honest count x.call w x.reply w'
  guar log x := ¬ x.call.Silent → TakenOnce (log ++ [x]) ∧ x.call.ReadsGroups
  silent _ _ hx hno := absurd hx hno

variable {P : Primitives β} {u : List β} {log : Log β}

theorem Tallied.next {cur cur' : Cursor β} {o : Option (Doc β)} (h : Tallied cur log)
    (hx : (effortWatch β count).allowed ⟨.cursorNext cur, (o, cur')⟩) :
    TakenOnce (log ++ [⟨.cursorNext cur, (o, cur')⟩]) ∧
      (o.isSome → Tallied cur' (log ++ [⟨.cursorNext cur, (o, cur')⟩])) := by
  obtain ⟨w, w', hw, -, hn⟩ := hx
  cases o with
  | none => exact ⟨h.takenOnce.snoc rfl, fun ho => by cases ho⟩
  | some d =>
    rcases h.orderly.next hw h.groups hn with hnone | ⟨hgroups, horderly, id, -, -, hseen⟩
    · cases hnone
    · have htallied : Tallied cur' (log ++ [⟨.cursorNext cur, (some d, cur')⟩]) := by
        refine ⟨hgroups, horderly, ?_⟩
        change cur'.seen = _ at hseen
        rw [List.filterMap_append, h.taken, hseen, List.reverse_cons]
        simp [MongoSgx.taken, hseen]
      exact ⟨htallied.takenOnce, fun _ => htallied⟩

theorem sweepRule_effort : SweepRule (effortWatch β count) P u (fun cur _ => Tallied cur)
    (fun cur _ _ => Tallied cur) (fun _ => TakenOnce) (fun _ _ => True) where
  quiet_round _ _ := quiet_tallied
  quiet_read _ _ _ := quiet_tallied
  quiet_write _ := quiet_takenOnce
  quiet_done _ _ _ _ _ := trivial
  next _ _ _ _ h hx _ := ⟨(h.next hx).1, h.groups⟩
  visit _ _ _ _ _ h hx := (h.next hx).2 rfl
  stop _ _ _ _ _ _ _ := trivial
  queue _ _ _ _ _ h _ := h
  idle _ _ _ _ _ := trivial
  ended _ _ _ _ _ h hx := (h.next hx).1
  write _ _ _ _ h _ _ := ⟨h.snoc rfl, trivial⟩
  written _ _ _ h _ := h.snoc rfl
  broken _ _ _ _ h _ := by
    split
    · trivial
    · exact h.snoc rfl
  delete _ _ h _ _ := ⟨h.snoc rfl, trivial⟩
  deleted _ _ _ := trivial
  failed _ _ _ _ := trivial

end Cursors

section Runs

variable [DecidableEq β] {ι : Type} [DecidableEq ι] {P : Primitives β} {count : ℤ → Scalar}
  {reqs : ι → Request β} {w : World β} {ms : List (Move ι (Call β) Reply (World β))}
  {cfg : Config ι (Call β) Reply Stop (Answer β) (World β)}

theorem sparesIds_of_history
    (h : History (Honest count) (fun i => (reqs i).prog P) (.start w) ms cfg)
    {m : Move ι (Call β) Reply (World β)} (hm : m ∈ ms) : m.line.call.SparesIds := by
  have hmem : m.line ∈ callsOf m.client ms := mem_callsOf.mpr ⟨m, hm, rfl, rfl⟩
  obtain ⟨l, l', hl⟩ := List.append_of_mem hmem
  obtain ⟨hsigned, -⟩ := h.of_records (fun _ _ _ _ _ => trivial) (records_signing P (reqs m.client))
  exact sparesIds_of_sent (hsigned l m.line l' hl).signs

theorem numbered_of_history (hw : w.Numbered)
    (h : History (Honest count) (fun i => (reqs i).prog P) (.start w) ms cfg) :
    ∀ m ∈ ms, m.before.Numbered :=
  (h.invariant hw fun _ hm hbefore =>
    hbefore.step (sparesIds_of_history h hm) (h.env hm)).1

/-- A deletion of a user reads groups, and is returned each of them at most once. -/
theorem takenOnce_of_history {i : ι} {u : List β} (hw : w.Numbered)
    (h : History (Honest count) (fun i => (reqs i).prog P) (.start w) ms cfg)
    (hi : reqs i = .op (.deleteUser u)) :
    TakenOnce (callsOf i ms) ∧ ∀ x ∈ callsOf i ms, ¬ x.call.Silent → x.call.ReadsGroups := by
  have hrestricted := h.restrict (numbered_of_history hw h)
  have hrecords : (effortWatch β count).Records (fun _ _ => True) ((reqs i).prog P) [] := by
    rw [hi]
    apply Records.map
    have hstart : Tallied (findWithOpts .groups [] none (some .primaryPreferred)) ([] : Log β) :=
      ⟨rfl, orderly_findWithOpts .., rfl⟩
    exact (sweepRule_effort.records_deleteUser hstart).mono fun _ _ => id
  obtain ⟨hguar, -⟩ := hrestricted.of_records
    (fun c s r s' hE => ⟨s, s', hE.1, hE.2⟩) hrecords
  generalize callsOf i ms = log at hguar
  constructor
  · induction log using List.reverseRecOn with
    | nil => exact List.nodup_nil
    | append_singleton log x ih =>
      by_cases hx : x.call.Silent
      · apply TakenOnce.snoc _ (visited_of_silent hx)
        apply ih
        rintro l y l' rfl
        exact hguar l y (l' ++ [x]) (by simp)
      · exact (hguar log x [] rfl hx).1
  · intro x hx hloud
    obtain ⟨l, l', hl⟩ := List.append_of_mem hx
    exact (hguar l x l' hl hloud).2

theorem mem_groupIds_of_taken {x : Line β} {w w' : World β} {id : ℕ}
    (h : Honest count x.call w x.reply w') (hx : taken x = some id)
    (hgroups : ¬ x.call.Silent → x.call.ReadsGroups) : id ∈ w.groupIds := by
  obtain ⟨c, r⟩ := x
  cases c <;> first | cases hx | skip
  next cur =>
  have hcur : cur.collection = .groups := hgroups fun h => h
  obtain ⟨-, ⟨d, id', hd, -, hid, -, rfl⟩ | ⟨-, rfl⟩⟩ := h
  · obtain rfl : id' = id := Option.some.inj hx
    rw [hcur] at hd
    exact List.mem_filterMap.mpr ⟨d, hd, hid⟩
  · cases hx

def insertions (ms : List (Move ι (Call β) Reply (World β))) : ℕ :=
  (ms.map fun m => inserted m.line).sum

theorem earned_le (hw : w.Numbered)
    (h : History (Honest count) (fun i => (reqs i).prog P) (.start w) ms cfg) (i : ι) :
    (reqs i).tariff.earned (callsOf i ms) ≤ (reqs i).rate * (w.size + insertions ms) := by
  have hsweep : ∀ u, reqs i = .op (.deleteUser u) →
      ((callsOf i ms).map visited).sum ≤ w.size + insertions ms := by
    intro u hi
    obtain ⟨honce, hgroups⟩ := takenOnce_of_history hw h hi
    rw [length_filterMap_taken]
    have hlen := h.length_taken_le World.groupIds (fun m => insertedId m.line m.before) taken
      (fun m hm => (honest_groupIds (sparesIds_of_history h hm) (h.env hm)).1.subset)
      (fun m hm hmi id hid => mem_groupIds_of_taken (h.env hm) hid
        (hgroups m.line (mem_callsOf.mpr ⟨m, hm, hmi, rfl⟩))) honce
    have hids : w.groupIds.length ≤ w.size :=
      (List.length_filterMap_le _ _).trans (Nat.le_add_left _ _)
    have hnew : (ms.flatMap fun m => insertedId m.line m.before).length ≤ insertions ms := by
      rw [List.length_flatMap]
      exact List.sum_le_sum fun m _ => length_insertedId m.line m.before
    exact hlen.trans (Nat.add_le_add hids hnew)
  have hdelete : ((callsOf i ms).map deleted).sum ≤ w.size + insertions ms := by
    let T : Tariff (Call β) Reply := ⟨deleted, inserted⟩
    have hspent := h.spent_le T World.size fun m hm => honest_size (h.env hm)
    have hclient : T.spent (callsOf i ms) ≤ T.spent (ms.map Move.line) :=
      T.spent_callsOf_le i ms
    have hearned : T.earned (ms.map Move.line) = insertions ms := by
      rw [Tariff.earned, List.map_map]
      rfl
    change T.spent (callsOf i ms) ≤ _
    change _ ≤ w.size + _ at hspent
    omega
  cases hi : reqs i with
  | op o =>
    cases o with
    | deleteUser u =>
      have hearned : (Request.tariff (.op (.deleteUser u))).earned (callsOf i ms) =
          2 * ((callsOf i ms).map visited).sum := by
        rw [← List.sum_map_mul_left]
        rfl
      rw [hearned]
      exact Nat.mul_le_mul_left 2 (hsweep u hi)
    | deleteAllData =>
      change ((callsOf i ms).map deleted).sum ≤ 1 * _
      rwa [Nat.one_mul]
    | _ =>
      change ((callsOf i ms).map fun _ => 0).sum ≤ _
      simp
  | _ =>
    change ((callsOf i ms).map fun _ => 0).sum ≤ _
    simp

/-- On an honest store every call is done after a number of reads and writes that is linear in the
documents at the beginning and those inserted meanwhile, and constant where it is no deletion. -/
theorem run_effort (hw : w.Numbered)
    (h : History (Honest count) (fun i => (reqs i).prog P) (.start w) ms cfg) (i : ι) :
    (reqs i).tariff.spent (callsOf i ms) ≤
      (reqs i).allowance + (reqs i).rate * (w.size + insertions ms) :=
  (affords_callsOf h i).trans (Nat.add_le_add_left (earned_le hw h i) _)

omit [DecidableEq β] in
theorem Vault.numbered_toWorld (V : Vault β) : (V.toWorld P).Numbered := by
  have hids : (V.toWorld P).groupIds = V.groups.elems.map Group.id := by
    simp [World.groupIds, toWorld, List.filterMap_map, Function.comp_def]
  constructor
  · rw [hids]
    exact V.group_ids
  · rw [hids]
    intro id hid
    obtain ⟨G, hG, rfl⟩ := List.mem_map.mp hid
    exact V.group_fresh G hG

/-- A user is deleted that is the member of a group. -/
theorem run_effort_sample : ∃ (V : Vault ℕ) (ms : List (Move Unit (Call ℕ) Reply (World ℕ)))
    (cfg : Config Unit (Call ℕ) Reply Stop (Answer ℕ) (World ℕ)),
    V.groups.keys = [[5]] ∧
    History (Honest .int64) (fun _ => (Request.op (.deleteUser [1])).prog Primitives.nat)
      (.start (V.toWorld Primitives.nat)) ms cfg ∧
    cfg.status () = .finished (.ok .done) ∧
    (Request.op (.deleteUser [1])).tariff.spent (callsOf () ms) ≤
      2 + 2 * ((V.toWorld Primitives.nat).size + insertions ms) := by
  let V : Vault ℕ := (Vault.empty.register [1] [] []).establish Primitives.nat [5] [] ⟨[1], [], []⟩
  have hS : V.Signed Primitives.nat := by
    apply Vault.Signed.establish
    · intro G hG
      cases hG
    · exact List.not_mem_nil
  obtain ⟨r, w, hr, hok, -⟩ :=
    (wp_step Primitives.nat_ideal .int64 hS (.deleteUser [1])).exists_evals (honest_total .int64)
  have hstart : History (Honest .int64)
      (fun _ : Unit => (Request.op (.deleteUser [1])).prog Primitives.nat)
      (.start (V.toWorld Primitives.nat)) [] (.start (V.toWorld Primitives.nat)) := .nil _
  cases r with
  | error e => cases hok
  | ok a =>
    obtain ⟨ms, hms, -⟩ := hstart.complete (i := ()) rfl
      (hr.bind (Prog.evals_pure_iff.mpr ⟨rfl, rfl⟩))
    refine ⟨V, _, _, rfl, hms, Config.set_status_self .., ?_⟩
    exact run_effort V.numbered_toWorld hms ()

end Runs

end MongoSgx
