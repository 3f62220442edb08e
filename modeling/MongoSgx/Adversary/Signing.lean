import MongoSgx.Signature.Predicted
import MongoSgx.Transcript.Calls

/-! # Signing on top of verified data

The store may answer as it likes, and the enclave signs what it makes of the
answers. Every group signature that leaves it covers a group it has just founded,
or a document that passed the check of its own signature in the same call, with
the requested member added, or dropped if every element of its `users` can be
entered. Where one cannot, the walk that drops a member goes on behind its name.
A deletion that meets a group it cannot verify writes nothing at all.
-/

namespace MongoSgx

open Bson Interaction

variable {β : Type}

def Returned (log : Log β) (d : Doc β) : Prop :=
  ∃ cur cur', ⟨.cursorNext cur, (some d, cur')⟩ ∈ log

def JustRead (log : Log β) (d : Doc β) : Prop :=
  ∃ l cur cur' l', cur.collection = .groups ∧
    log = l ++ ⟨.cursorNext cur, (some d, cur')⟩ :: l' ∧ ∀ x ∈ l', x.call.Silent

def Call.Signs : Call β → Prop
  | .insertOne .groups _ | .updateOne _ _ _ | .bulkUpdateOne _ _ _ => True
  | _ => False

def Call.Writes : Call β → Prop
  | .insertOne _ _ | .updateOne _ _ _ | .bulkUpdateOne _ _ _ | .deleteOne _ _ |
    .deleteNext _ _ _ => True
  | _ => False

def Call.Reads : Call β → Prop
  | .cursorNext _ => True
  | _ => False

section Definitions

variable [DecidableEq β] (P : Primitives β)

def KeyRead (log : Log β) (key : List β) : Prop :=
  ∃ cur d cur', cur.collection = .users ∧ ⟨.cursorNext cur, (some d, cur')⟩ ∈ log ∧
    recordKey P d = some key

/-- A call whose signature covers verified data that the request asked to edit: the fields of a new
group, or the signed bytes of a document that passed its check, with one member added or dropped. -/
inductive SignedFrom : Request β → Log β → Call β → Prop
  | found {g u key iv iv' : List β} {log : Log β} (hkey : KeyRead P log key) :
      SignedFrom (.op (.createGroup g u)) log
        (.insertOne .groups (newGroupDoc P g u (P.encryptAesgcm iv key) iv'))
  | join {q : Request β} {g u key iv s : List β} {d : Doc β} {sel : Selector β} {log : Log β}
      (hq : q = .op (.addUserToGroup g u) ∨ q = .op (.createGroup g u)) (hkey : KeyRead P log key)
      (hd : JustRead log d) (hvalid : validateGroupSignature P d = some true)
      (hs : signedStream d = some s) :
      SignedFrom q log (.updateOne .groups sel (pushUpdate (hashName P u (some g))
        (P.encryptAesgcm iv key)
        (P.hmac (s ++ ((hashName P u (some g)).toList ++ P.encryptAesgcm iv key)))))
  | leave {g u s : List β} {d : Doc β} {sel : Selector β} {log : Log β} (hd : JustRead log d)
      (hvalid : validateGroupSignature P d = some true)
      (hs : signedStream (dropEntries (hashName P u (some g)).toList d) = some s) :
      SignedFrom (.op (.removeUserFromGroup g u)) log
        (.updateOne .groups sel (pullUpdate (hashName P u (some g)) (P.hmac s)))
  | sweep {u g c s : List β} {d : Doc β} {sel : Selector β} {log : Log β} (hd : Returned log d)
      (hvalid : validateGroupSignature P d = some true)
      (hc : (Iter.initFind d "encname").binary = some c) (hg : P.decryptAesgcm c = some g)
      (hs : signedStream (dropEntries (hashName P u (some g)).toList d) = some s) :
      SignedFrom (.op (.deleteUser u)) log
        (.bulkUpdateOne .groups sel (pullUpdate (hashName P u (some g)) (P.hmac s)))

/-- A call with a group signature, as the code makes it from what it has read. -/
inductive SentFrom : Request β → Log β → Call β → Prop
  | found {g u key iv iv' : List β} {log : Log β} (hkey : KeyRead P log key) :
      SentFrom (.op (.createGroup g u)) log
        (.insertOne .groups (newGroupDoc P g u (P.encryptAesgcm iv key) iv'))
  | join {q : Request β} {g u key iv : List β} {d : Doc β} {sel : Selector β} {upd : Update β}
      {log : Log β} (hq : q = .op (.addUserToGroup g u) ∨ q = .op (.createGroup g u))
      (hkey : KeyRead P log key) (hd : JustRead log d)
      (hedit : EditOf P (addEdit P g u (P.encryptAesgcm iv key)) d sel upd) :
      SentFrom q log (.updateOne .groups sel upd)
  | leave {g u : List β} {d : Doc β} {sel : Selector β} {upd : Update β} {log : Log β}
      (hd : JustRead log d) (hedit : EditOf P (removeEdit P g u) d sel upd) :
      SentFrom (.op (.removeUserFromGroup g u)) log (.updateOne .groups sel upd)
  | sweep {u : List β} {d : Doc β} {sel : Selector β} {upd : Update β} {log : Log β}
      (hd : Returned log d) (hop : SweepOf P u d (sel, upd)) :
      SentFrom (.op (.deleteUser u)) log (.bulkUpdateOne .groups sel upd)

def Request.Drops : Request β → Prop
  | .op (.removeUserFromGroup _ _) | .op (.deleteUser _) => True
  | _ => False

/-- The group documents that were read and accepted hold nothing but documents and arrays in their
`users`. -/
def NestedReads (log : Log β) : Prop :=
  ∀ d, Returned log d → validateGroupSignature P d = some true → Nested d

/-- What is asked of an exchange: signatures are made from what was read, and a deletion reads
before it writes, and writes when everything it has read was verified. -/
structure Grounded (q : Request β) (log : Log β) (x : Line β) : Prop where
  signs : x.call.Signs → SentFrom P q log x.call
  reads : ∀ u, q = .op (.deleteUser u) → x.call.Reads → ∀ y ∈ log, ¬ y.call.Writes
  writes : ∀ u, q = .op (.deleteUser u) → x.call.Writes →
    ∀ d, Returned log d → validateGroupSignature P d = some true

def signingWatch (q : Request β) : Watch β where
  allowed _ := True
  guar := Grounded P q
  silent log x hx := by
    obtain ⟨c, r⟩ := x
    cases c <;> first | exact hx.elim | exact ⟨nofun, fun _ _ => nofun, fun _ _ => nofun⟩

end Definitions

section Logs

variable {log : Log β} {x : Line β} {d : Doc β}

theorem Returned.append (h : Returned log d) : Returned (log ++ [x]) d := by
  obtain ⟨cur, cur', h⟩ := h
  exact ⟨cur, cur', List.mem_append_left _ h⟩

theorem returned_append_iff : Returned (log ++ [x]) d ↔
    Returned log d ∨ ∃ cur cur', x = ⟨.cursorNext cur, (some d, cur')⟩ := by
  simp only [Returned, List.mem_append, List.mem_singleton, exists_or]
  apply or_congr Iff.rfl
  apply exists_congr
  intro cur
  apply exists_congr
  intro cur'
  exact eq_comm

theorem quiet_justRead : Quiet fun log => JustRead log d := by
  rintro log x ⟨l, cur, cur', l', hcur, rfl, hl'⟩ hx
  refine ⟨l, cur, cur', l' ++ [x], hcur, by simp, ?_⟩
  intro y hy
  rcases List.mem_append.mp hy with hy | hy
  · exact hl' y hy
  · rwa [List.mem_singleton.mp hy]

theorem JustRead.returned (h : JustRead log d) : Returned log d := by
  obtain ⟨l, cur, cur', l', -, rfl, -⟩ := h
  exact ⟨cur, cur', List.mem_append_right _ (List.mem_cons_self ..)⟩

variable [DecidableEq β] {P : Primitives β}

theorem KeyRead.append {key : List β} (h : KeyRead P log key) : KeyRead P (log ++ [x]) key := by
  obtain ⟨cur, d, cur', hcur, h, hkey⟩ := h
  exact ⟨cur, d, cur', hcur, List.mem_append_left _ h, hkey⟩

end Logs

variable [DecidableEq β] {P : Primitives β} {q : Request β} {g u : List β} {log : Log β}

theorem sign_addEdit {c : List β} {d : Doc β} : (addEdit P g u c).sign d =
    (signedStream d).map fun s => P.hmac (s ++ ((hashName P u (some g)).toList ++ c)) :=
  computeGroupSignature_add

theorem sign_removeEdit {d : Doc β} (hd : Nested d) : (removeEdit P g u).sign d =
    (signedStream (dropEntries (hashName P u (some g)).toList d)).map P.hmac :=
  computeGroupSignature_remove hd

/-- What is sent covers verified data, if the documents from which members are dropped can be
entered throughout. -/
theorem SentFrom.signedFrom {c : Call β} (h : SentFrom P q log c)
    (hnested : q.Drops → NestedReads P log) : SignedFrom P q log c := by
  cases h with
  | found hkey => exact .found hkey
  | join hq hkey hd hedit =>
    obtain ⟨hvalid, σ, s, -, hs, rfl, rfl⟩ := hedit
    rw [sign_addEdit, Option.map_eq_some_iff] at hs
    obtain ⟨bytes, hbytes, rfl⟩ := hs
    exact .join hq hkey hd hvalid hbytes
  | leave hd hedit =>
    obtain ⟨hvalid, σ, s, -, hs, rfl, rfl⟩ := hedit
    rw [sign_removeEdit (hnested trivial _ hd.returned hvalid), Option.map_eq_some_iff] at hs
    obtain ⟨bytes, hbytes, rfl⟩ := hs
    exact .leave hd hvalid hbytes
  | sweep hd hop =>
    obtain ⟨hvalid, c, g, s, hc, hg, hs, he⟩ := hop
    obtain ⟨rfl, rfl⟩ := Prod.mk.inj he
    rw [computeGroupSignature_remove (hnested trivial _ hd hvalid), Option.map_eq_some_iff] at hs
    obtain ⟨bytes, hbytes, rfl⟩ := hs
    exact .sweep hd hvalid hc hg hbytes

theorem Grounded.of_not_signs {x : Line β} (hq : ∀ u, q ≠ .op (.deleteUser u))
    (hx : ¬ x.call.Signs) : Grounded P q log x :=
  ⟨fun h => absurd h hx, fun u h => absurd h (hq u), fun u h => absurd h (hq u)⟩

theorem editRule_signing {edit : GroupEdit β} {K : Log β → Prop}
    (hq : ∀ u, q ≠ .op (.deleteUser u)) (hK : ∀ log x, K log → K (log ++ [x]))
    (hsend : ∀ d log sel upd, K log → JustRead log d → EditOf P edit d sel upd →
      SentFrom P q log (.updateOne .groups sel upd)) :
    EditRule (signingWatch P q) P edit (fun _ => K) (fun _ d log => K log ∧ JustRead log d)
      (fun _ _ => True) where
  quiet_start _ log x h _ := hK log x h
  quiet_read _ _ log x h hx := ⟨hK log x h.1, quiet_justRead log x h.2 hx⟩
  quiet_done _ _ _ _ _ := trivial
  find _ _ _ _ _ := .of_not_signs hq id
  absent _ _ _ _ _ := trivial
  present _ log _ _ h _ := ⟨hK log _ h, log, _, _, [], rfl, rfl, by simp⟩
  stop _ _ _ _ _ _ := trivial
  send _ d log sel upd _ h hedit _ :=
    ⟨fun _ => hsend d log sel upd h.1 h.2 hedit, fun u h => absurd h (hq u),
      fun u h => absurd h (hq u)⟩
  answer _ _ log _ _ r h _ _ := by
    cases r with
    | ok reply =>
      refine ⟨fun _ => trivial, fun v _ => ?_⟩
      split
      · trivial
      · exact hK log _ h.1
    | error e =>
      simp only [Answered]
      split
      · trivial
      · exact hK log _ h.1
  exhausted _ _ := trivial

def KeyEncrypted (P : Primitives β) (c : List β) (log : Log β) : Prop :=
  ∃ key iv, c = P.encryptAesgcm iv key ∧ KeyRead P log key

theorem KeyEncrypted.append {c : List β} {x : Line β} (h : KeyEncrypted P c log) :
    KeyEncrypted P c (log ++ [x]) := by
  obtain ⟨key, iv, hc, hkey⟩ := h
  exact ⟨key, iv, hc, hkey.append⟩

theorem joinRule_signing
    (hq : q = .op (.addUserToGroup g u) ∨ q = .op (.createGroup g u)) :
    JoinRule (signingWatch P q) P g u (fun _ => True)
      (fun d _ log => ∀ key, recordKey P d = some key → KeyRead P log key)
      (fun c _ => KeyEncrypted P c) (fun c _ d log => KeyEncrypted P c log ∧ JustRead log d)
      (fun _ _ => True) where
  record := {
    quiet_start := fun _ _ _ _ => trivial
    quiet_read := fun d cur log x h _ key hkey => (h key hkey).append
    find := fun _ _ _ _ => .of_not_signs (by rcases hq with rfl | rfl <;> simp) id
    absent := fun _ _ _ _ => trivial
    present := fun log d cur _ _ key hkey =>
      ⟨_, d, cur, rfl, List.mem_append_right _ (List.mem_singleton_self _), hkey⟩
    stop := fun _ _ _ _ _ _ => trivial }
  edit c := by
    apply editRule_signing
    · rcases hq with rfl | rfl <;> simp
    · exact fun _ _ h => h.append
    · rintro d log sel upd ⟨key, iv, rfl, hkey⟩ hd hedit
      exact .join hq hkey hd hedit
  start _ _ key iv _ h hkey := ⟨key, iv, rfl, h key hkey⟩

theorem foundRule_signing :
    FoundRule (signingWatch P (.op (.createGroup g u))) P g u (fun _ => True)
    (fun d _ log => ∀ key, recordKey P d = some key → KeyRead P log key) (KeyEncrypted P)
    (fun c _ => KeyEncrypted P c) (fun c _ d log => KeyEncrypted P c log ∧ JustRead log d)
    (fun _ _ => True) where
  record := (joinRule_signing (.inr rfl)).record
  edit := (joinRule_signing (.inr rfl)).edit
  quiet_insert _ _ _ h _ := h.append
  start _ _ key iv _ h hkey := ⟨key, iv, rfl, h key hkey⟩
  insert := by
    rintro c iv r log ⟨key, iv', rfl, hkey⟩ -
    exact ⟨fun _ => .found hkey, by simp, by simp⟩
  inserted _ _ _ _ _ := trivial
  refused _ _ _ _ h _ _ := h.append
  failed _ _ _ _ _ _ _ := trivial

def AllVerified (P : Primitives β) (log : Log β) : Prop :=
  ∀ d, Returned log d → validateGroupSignature P d = some true

def QueuedFrom (P : Primitives β) (u : List β) (bulk : Bulk β) (log : Log β) : Prop :=
  ∀ op ∈ bulk, ∃ d, Returned log d ∧ SweepOf P u d op

theorem QueuedFrom.append {bulk : Bulk β} {x : Line β} (h : QueuedFrom P u bulk log) :
    QueuedFrom P u bulk (log ++ [x]) := by
  intro op hop
  obtain ⟨d, hd, hs⟩ := h op hop
  exact ⟨d, hd.append, hs⟩

theorem AllVerified.append {x : Line β} (h : AllVerified P log) (hx : ¬ x.call.Reads) :
    AllVerified P (log ++ [x]) := by
  intro d hd
  rcases returned_append_iff.mp hd with hd | ⟨cur, cur', rfl⟩
  · exact h d hd
  · exact absurd trivial hx

/-- A deletion that reads has not written, and has verified all it read before. -/
structure Sweeping (P : Primitives β) (u : List β) (bulk : Bulk β) (log : Log β) : Prop where
  unwritten : ∀ y ∈ log, ¬ y.call.Writes
  verified : AllVerified P log
  queued : QueuedFrom P u bulk log

structure Looking (P : Primitives β) (u : List β) (bulk : Bulk β) (d : Doc β) (log : Log β) :
    Prop where
  unwritten : ∀ y ∈ log, ¬ y.call.Writes
  returned : Returned log d
  verified : validateGroupSignature P d = some true → AllVerified P log
  queued : QueuedFrom P u bulk log

omit [DecidableEq β] in
theorem not_writes_append {x : Line β} (h : ∀ y ∈ log, ¬ y.call.Writes) (hx : ¬ x.call.Writes) :
    ∀ y ∈ log ++ [x], ¬ y.call.Writes := by
  intro y hy
  rcases List.mem_append.mp hy with hy | hy
  · exact h y hy
  · rwa [List.mem_singleton.mp hy]

omit [DecidableEq β] in
theorem Call.Silent.not_writes {c : Call β} (h : c.Silent) : ¬ c.Writes := by
  cases c <;> first | exact h.elim | exact id

omit [DecidableEq β] in
theorem Call.Silent.not_reads {c : Call β} (h : c.Silent) : ¬ c.Reads := by
  cases c <;> first | exact h.elim | exact id

theorem sweepRule_signing : SweepRule (signingWatch P (.op (.deleteUser u))) P u
    (fun _ bulk log => Sweeping P u bulk log) (fun _ bulk d log => Looking P u bulk d log)
    (fun bulk log => AllVerified P log ∧ QueuedFrom P u bulk log) (fun _ _ => True) where
  quiet_round _ _ _ _ h hx := ⟨not_writes_append h.unwritten hx.not_writes,
    h.verified.append hx.not_reads, h.queued.append⟩
  quiet_read _ _ _ _ _ h hx := ⟨not_writes_append h.unwritten hx.not_writes, h.returned.append,
    fun hd => (h.verified hd).append hx.not_reads, h.queued.append⟩
  quiet_write _ _ _ h hx := ⟨h.1.append hx.not_reads, h.2.append⟩
  quiet_done _ _ _ _ _ := trivial
  next _ _ _ _ h _ := ⟨nofun, fun _ _ _ => h.unwritten, fun _ _ => nofun⟩
  visit _ _ log d cur' h _ := by
    refine ⟨not_writes_append h.unwritten id, ?_, fun hd d' hd' => ?_, h.queued.append⟩
    · exact returned_append_iff.mpr (.inr ⟨_, cur', rfl⟩)
    · rcases returned_append_iff.mp hd' with hd' | ⟨cur, cur'', he⟩
      · exact h.verified d' hd'
      · cases he
        exact hd
  stop _ _ _ _ _ _ _ := trivial
  queue _ bulk d log op h hop := by
    refine ⟨h.unwritten, h.verified hop.1, fun op' hop' => ?_⟩
    rcases List.mem_append.mp hop' with hop' | hop'
    · exact h.queued op' hop'
    · rw [List.mem_singleton.mp hop']
      exact ⟨d, h.returned, hop⟩
  idle _ _ _ _ _ := trivial
  ended _ _ log _ _ h _ := by
    refine ⟨fun d hd => ?_, h.queued.append⟩
    rcases returned_append_iff.mp hd with hd | ⟨cur, cur', he⟩
    · exact h.verified d hd
    · cases he
  write op bulk log r h _ := by
    obtain ⟨hver, hq⟩ := h
    obtain ⟨d, hd, hop⟩ := hq op (List.mem_cons_self ..)
    exact ⟨fun _ => .sweep hd hop, fun _ _ => nofun, fun _ _ _ => hver⟩
  written _ _ _ h _ := ⟨h.1.append id, fun op hop =>
    h.2.append op (List.mem_cons_of_mem _ hop)⟩
  broken _ _ _ e h _ := by
    split
    · trivial
    · exact ⟨h.1.append id, by simp [QueuedFrom]⟩
  delete _ _ h _ := ⟨nofun, fun _ _ => nofun, fun _ _ _ => h.1⟩
  deleted _ _ _ := trivial
  failed _ _ _ _ := trivial

theorem records_signing (P : Primitives β) (q : Request β) :
    (signingWatch P q).Records (fun _ _ => True) (q.prog P) [] := by
  cases q with
  | op o =>
    apply Records.map
    cases o with
    | createUser u key =>
      apply records_createUser (A := fun _ => True) (D := fun _ _ => True)
      · exact fun _ _ _ _ => trivial
      · exact fun _ _ _ _ _ => trivial
      · exact fun iv r log _ _ => ⟨.of_not_signs (by simp) id, trivial⟩
      · trivial
    | createGroup g u => exact foundRule_signing.records_createGroup trivial
    | addUserToGroup g u => exact (joinRule_signing (.inl rfl)).records_addUserToGroup trivial
    | removeUserFromGroup g u =>
      exact EditRule.records_editAttempts (A := fun _ _ => True) (editRule_signing (by simp)
        (fun _ _ _ => trivial) fun _ _ _ _ _ hd hedit => .leave hd hedit) 10 trivial
    | deleteUser u =>
      apply sweepRule_signing.records_deleteUser
      exact ⟨by simp, by simp [AllVerified, Returned], by simp [QueuedFrom]⟩
    | deleteAllData =>
      apply records_deleteAllData (A := fun _ => True) (D := fun _ _ => True)
      · exact fun _ _ _ _ => trivial
      · intro coll todo r log _ _
        refine ⟨.of_not_signs (by simp) id, ?_⟩
        cases r <;> simp
      · exact fun _ _ => trivial
      · trivial
  | getKeysOfGroup g =>
    apply Records.map
    apply records_getKeysOfGroup (A := fun _ => True) (B := fun _ _ => True)
    · exact fun _ _ _ _ => trivial
    · exact fun _ _ _ _ _ => trivial
    · exact fun x log _ _ => ⟨.of_not_signs (by simp) id, trivial⟩
    · exact fun _ _ _ _ => trivial
    · exact fun _ _ _ _ _ _ => trivial
    · trivial
  | isUserPartOfGroup g u =>
    apply Records.map
    apply records_isUserPartOfGroup (A := fun _ => True) (B := fun _ _ => True)
    · exact fun _ _ _ _ => trivial
    · exact fun _ _ _ _ _ => trivial
    · exact fun x log _ _ => ⟨.of_not_signs (by simp) id, trivial⟩
    · exact fun _ _ _ _ _ _ => trivial
    · exact fun _ _ _ _ => trivial
    · trivial

/-- In every run of a request, whatever is answered to its calls, each group signature covers a new
group or a verified document with the requested member added, or dropped if the accepted documents
that were read before can be entered throughout. A deletion that is given a document it cannot
verify makes no write. -/
theorem signed_from_verified (P : Primitives β) (q : Request β) {p : Enclave β (Answer β)}
    {log : Log β} (h : (q.prog P).Steps (Recording fun _ => True) [] p log) :
    (∀ l x l', log = l ++ x :: l' → x.call.Signs → (q.Drops → NestedReads P l) →
      SignedFrom P q l x.call) ∧
    ∀ u, q = .op (.deleteUser u) →
      (∃ d, Returned log d ∧ validateGroupSignature P d ≠ some true) →
      ∀ x ∈ log, ¬ x.call.Writes := by
  obtain ⟨xs, rfl, hxs⟩ := (records_signing P q).of_log h
  simp only [List.nil_append] at hxs ⊢
  refine ⟨fun l x l' hl hx => ((hxs l x l' hl).signs hx).signedFrom, ?_⟩
  rintro u hq ⟨d, ⟨cur, cur', hd⟩, hinvalid⟩ x hx hwrites
  -- the write comes before the read, or after it
  obtain ⟨l, l', hl⟩ := List.append_of_mem hd
  have hread : Call.Reads (.cursorNext cur : Call β) := trivial
  rw [hl] at hx
  rcases List.mem_append.mp hx with hx | hx
  · exact (hxs l _ l' hl).reads u hq hread x hx hwrites
  · rcases List.mem_cons.mp hx with rfl | hx
    · exact hwrites
    · obtain ⟨l₁, l₂, rfl⟩ := List.append_of_mem hx
      have hreturned : Returned (l ++ ⟨.cursorNext cur, (some d, cur')⟩ :: l₁) d :=
        ⟨cur, cur', List.mem_append_right _ (List.mem_cons_self ..)⟩
      refine hinvalid ((hxs (l ++ ⟨.cursorNext cur, (some d, cur')⟩ :: l₁) x l₂ ?_).writes u hq
        hwrites d hreturned)
      rw [hl]
      simp

def ReturnsOnly (d : Doc β) (x : Line β) : Prop :=
  ∀ cur d' cur', x = ⟨.cursorNext cur, (some d', cur')⟩ → d' = d

theorem exists_removal {d : Doc β} {sel : Selector β} {upd : Update β}
    (hedit : EditOf P (removeEdit P g u) d sel upd) :
    ∃ log, (∀ d', Returned log d' → d' = d) ∧
      ∃ p, ((Request.op (.removeUserFromGroup g u)).prog P).Steps (Recording fun _ => True) [] p
        (log ++ [⟨.updateOne .groups sel upd, .ok []⟩]) := by
  have hsends : (removeUserFromGroup P g u).Sends (Untrusted fun _ d' => d' = d) ()
      (.updateOne .groups sel upd) := sends_editAttempts.mpr ⟨d, rfl, hedit⟩
  obtain ⟨k, t, hsteps⟩ := hsends
  obtain ⟨log, hlog⟩ : ∃ log, (removeUserFromGroup P g u).Steps
      (Recording (ReturnsOnly d)) [] _ log := by
    refine hsteps.recording (fun c s r s' h => ?_) []
    rintro cur d' cur' ⟨⟩
    exact h d' rfl
  have honly : ∀ d', Returned log d' → d' = d := by
    obtain ⟨xs, rfl, hxs⟩ := hlog.recorded
    rintro d' ⟨cur, cur', hd'⟩
    exact hxs _ hd' cur d' cur' rfl
  have hE : ∀ c (l : Log β) r t l', Recording (ReturnsOnly d) c l r t → l = l' →
      ∃ t', Recording (fun _ => True) c l' r t' ∧ t = t' := by
    rintro c l r t _ h rfl
    exact ⟨t, ⟨trivial, h.2⟩, rfl⟩
  obtain ⟨_, hlog, rfl⟩ := hlog.simulate hE rfl
  exact ⟨log, honly, _, (hlog.bind _).trans (.head (.call ⟨trivial, rfl⟩) (.refl _ _))⟩

/-- A removal that is given the document of a signed group sends a signature. -/
theorem signed_from_verified_sample : ∃ (log : Log ℕ) (sel : Selector ℕ) (upd : Update ℕ),
    (∃ p, ((Request.op (.removeUserFromGroup [5] [1])).prog Primitives.nat).Steps
      (Recording fun _ => True) [] p (log ++ [⟨.updateOne .groups sel upd, .ok []⟩])) ∧
    SignedFrom Primitives.nat (.op (.removeUserFromGroup [5] [1])) log
      (.updateOne .groups sel upd) := by
  let G : Group ℕ := ⟨0, [5], [], [⟨[1], List.replicate keySize 7, []⟩], List.nodup_singleton _,
    Vault.foundingSignature Primitives.nat [5] [] ⟨[1], List.replicate keySize 7, []⟩⟩
  have hG : G.Signed Primitives.nat := rfl
  obtain ⟨sel, upd, hedit⟩ := exists_editOf_toDoc hG (removeEdit _ [5] [1]) exists_sign_toDoc
  obtain ⟨log, honly, p, hsend⟩ := exists_removal hedit
  obtain ⟨hsigned, -⟩ := signed_from_verified _ _ hsend
  refine ⟨log, sel, upd, ⟨p, hsend⟩, hsigned log _ [] rfl trivial fun _ d hd _ => ?_⟩
  rw [honly d hd]
  exact nested_toDoc

/-- The number behind the entry leaves the walk in the entry. With nothing dropped the signer goes on
behind the first key, to the second name and key; with the first name dropped it goes on behind that
name, to a name and a key that are signed for nobody. -/
theorem misled_removal : ∃ (d : Doc ℕ) (log : Log ℕ) (sel : Selector ℕ) (upd : Update ℕ),
    Doc.get? d "users" = some (.array [.document
      [("name", .binary (hashName Primitives.nat [1] (some [5])).toList), ("name", .binary [7]),
        ("key", .binary [8]), ("name", .binary [9]), ("key", .binary [10])],
      .scalar (.int32 5)]) ∧
    validateGroupSignature Primitives.nat d = some true ∧
    signedStream d =
      some ([5, 6] ++ (hashName Primitives.nat [1] (some [5])).toList ++ [8, 9, 10]) ∧
    upd = pullUpdate (hashName Primitives.nat [1] (some [5])) (Primitives.nat.hmac [5, 6, 7, 8]) ∧
    (∃ p, ((Request.op (.removeUserFromGroup [5] [1])).prog Primitives.nat).Steps
      (Recording fun _ => True) [] p (log ++ [⟨.updateOne .groups sel upd, .ok []⟩])) ∧
    ¬ SignedFrom Primitives.nat (.op (.removeUserFromGroup [5] [1])) log
      (.updateOne .groups sel upd) := by
  let hashed : Hashed ℕ := hashName Primitives.nat [1] (some [5])
  let d : Doc ℕ := [("name", .binary [5]), ("encname", .binary [6]), ("users", .array [.document
    [("name", .binary hashed.toList), ("name", .binary [7]), ("key", .binary [8]),
      ("name", .binary [9]), ("key", .binary [10])], .scalar (.int32 5)]),
    ("signature",
      .binary (Primitives.nat.hmac ([5, 6] ++ hashed.toList ++ [8, 9, 10])).toList)]
  have hstream : signedStream d = some ([5, 6] ++ hashed.toList ++ [8, 9, 10]) := rfl
  have hvalid : validateGroupSignature Primitives.nat d = some true :=
    congrArg some (beq_self_eq_true _)
  have hdropped : feedDocument (isDropped (some hashed) false) d =
      some [⟨.name, [5]⟩, ⟨.encname, [6]⟩, ⟨.userName, [7]⟩, ⟨.userKey, [8]⟩] := rfl
  have hsign : (removeEdit Primitives.nat [5] [1]).sign d =
      some (Primitives.nat.hmac [5, 6, 7, 8]) := by
    change computeGroupSignature Primitives.nat d (some hashed) none false = _
    rw [computeGroupSignature, hdropped]
    rfl
  have hrest : signedStream (dropEntries hashed.toList d) = none := rfl
  obtain ⟨log, honly, p, hsend⟩ := exists_removal (P := Primitives.nat) (g := [5]) (u := [1])
    ⟨hvalid, _, _, rfl, hsign, rfl, rfl⟩
  have hnot : ∀ sel upd, ¬ SignedFrom Primitives.nat (.op (.removeUserFromGroup [5] [1])) log
      (.updateOne .groups sel upd) := by
    intro sel upd h
    cases h with
    | join hq => rcases hq with hq | hq <;> cases hq
    | leave hd _ hs =>
      rw [honly _ hd.returned] at hs
      cases hrest.symm.trans hs
  exact ⟨d, log, _, _, rfl, hvalid, hstream, rfl, ⟨p, hsend⟩, hnot _ _⟩

end MongoSgx
