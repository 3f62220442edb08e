import MongoSgx.Adversary.Custody

/-! # Where signed documents and keys come from

Any number of clients work against a store that answers as it likes, except that it
can make neither a tag nor a ciphertext of its own. Then every document that passes a
check descends from requests that were made, and every key that a client gets was
registered as a key, or was the name of a group.
-/

namespace MongoSgx

open Bson Interaction

variable {β S ι : Type} [DecidableEq β] [DecidableEq ι] {P : Primitives β}
  {E : Env (Call β) Reply S} {reqs : ι → Request β} {w : S}
  {ms l l' : List (Move ι (Call β) Reply S)}
  {cfg : Config ι (Call β) Reply Stop (Answer β) S} {m : Move ι (Call β) Reply S}

section Accounts

/-- A read that returns a group document with a right signature returns one that can be entered
throughout. -/
def ReturnsNested (P : Primitives β) (x : Line β) : Prop :=
  ∀ cur d cur', x = ⟨.cursorNext cur, (some d, cur')⟩ →
    validateGroupSignature P d = some true → Nested d

theorem accounted_tags (hP : P.Ideal) (hE : ∀ c s r s', E c s r s' → KeepsFilter ⟨c, r⟩)
    (h : History E (fun i => (reqs i).prog P) (.start w) ms cfg)
    (hnested : ∀ m ∈ ms, (reqs m.client).Drops → ReturnsNested P m.line) :
    Accounted (HandsTag P) (Checked P) (fun i => (reqs i).Authenticates P) ms := by
  intro i l x l' hl s hs
  obtain ⟨hvouched, -⟩ := h.of_records hE (records_custody P (reqs i))
  have hreads : (reqs i).Drops → NestedReads P l := by
    rintro hdrops d ⟨cur, cur', hd⟩ hvalid
    have hmem : ⟨.cursorNext cur, (some d, cur')⟩ ∈ callsOf i ms :=
      hl ▸ List.mem_append_left _ hd
    obtain ⟨m, hm, rfl, hline⟩ := mem_callsOf.mp hmem
    exact hnested m hm hdrops cur d cur' hline hvalid
  obtain ⟨s', he, hs'⟩ := (hvouched l x l' hl).tags hreads _ hs
  rwa [hP.hmac_toList_inj.mp he]

theorem accounted_ciphertexts (hP : P.Ideal)
    (hE : ∀ c s r s', E c s r s' → KeepsFilter ⟨c, r⟩)
    (h : History E (fun i => (reqs i).prog P) (.start w) ms cfg) :
    Accounted (HandsSealed P) (Opened P) (fun i => (reqs i).Seals) ms := by
  rintro i l x l' hl data ⟨c, hc, hdata⟩
  obtain ⟨hvouched, -⟩ := h.of_records hE (records_custody P (reqs i))
  obtain ⟨iv, data', rfl, hseals⟩ := (hvouched l x l' hl).ciphertexts c hc
  obtain rfl := Option.some.inj ((hP.decrypt_encrypt iv data').symm.trans hdata)
  exact hseals

omit [DecidableEq β] [DecidableEq ι] in
theorem descends_seals {data : List β}
    (h : Descends (fun i A t => Active ms i ∧ (reqs i).Seals A t) data) :
    (∃ i u, Active ms i ∧ reqs i = .op (.createUser u data)) ∨
      ∃ i u, Active ms i ∧ reqs i = .op (.createGroup data u) := by
  induction h with
  | mk i _ h ih =>
    obtain ⟨hi, h⟩ := h
    generalize hq : reqs i = q at h
    cases h with
    | key => exact .inl ⟨i, _, hi, hq⟩
    | name => exact .inr ⟨i, _, hi, hq⟩
    | again _ hkey => exact ih _ hkey

end Accounts

/-- Whatever the store answers, if it makes no tag of its own and gives removals and deletions no
group document with an element that cannot be entered, the bytes of every document that passes a
check, and of every tag that is handed out, descend from requests that have made calls. -/
theorem run_custody (hP : P.Ideal) (hE : ∀ c s r s', E c s r s' → KeepsFilter ⟨c, r⟩)
    (h : History E (fun i => (reqs i).prog P) (.start w) ms cfg)
    (hnested : ∀ m ∈ ms, (reqs m.client).Drops → ReturnsNested P m.line)
    (hu : Unforged (HandsTag P) (Checked P) (ms.map Move.line)) (hms : ms = l ++ m :: l')
    {s : List β} (hs : HandsTag P m.line s ∨ Checked P m.line s) :
    Descends (fun i A t => Active (l ++ [m]) i ∧ (reqs i).Authenticates P A t) s :=
  (accounted_tags hP hE h hnested).descends hu hms hs

section Registered

variable {u key : List ℕ}

def registering (u key : List ℕ) : Log ℕ :=
  [⟨.randomIv, []⟩, ⟨.create .document, ()⟩,
    ⟨.insertOne .users (newUserDoc Primitives.nat u key []), .ok ()⟩, ⟨.destroy .document, ()⟩]

theorem evals_registering (u key : List ℕ) :
    ((Request.op (.createUser u key)).prog Primitives.nat).Evals (Recording KeepsFilter) []
      (.ok .done) (registering u key) := by
  refine .head (.call (r := ([] : List ℕ)) ⟨trivial, rfl⟩) ?_
  refine .head (.call (r := ()) ⟨trivial, rfl⟩) ?_
  refine .head (.call (r := .ok ()) ⟨trivial, rfl⟩) ?_
  refine .head (.call (r := ()) ⟨trivial, rfl⟩) ?_
  exact .refl _ _

theorem exists_registered (key : List ℕ) (q : Request ℕ) :
    ∃ (reqs : Bool → Request ℕ) (ms : List (Move Bool (Call ℕ) Reply (Log ℕ)))
      (cfg : Config Bool (Call ℕ) Reply Stop (Answer ℕ) (Log ℕ)),
      History (Recording KeepsFilter) (fun i => (reqs i).prog Primitives.nat) (.start []) ms cfg ∧
      reqs = (fun i => cond i q (.op (.createUser [1] key))) ∧
      cfg.status true = .running (q.prog Primitives.nat) ∧ cfg.world = registering [1] key := by
  let reqs : Bool → Request ℕ := fun i => cond i q (.op (.createUser [1] key))
  have hstart : History (Recording KeepsFilter) (fun i => (reqs i).prog Primitives.nat) (.start [])
      [] (.start []) := .nil _
  obtain ⟨ms, hms, -⟩ := hstart.complete (i := false) rfl (evals_registering [1] key)
  refine ⟨reqs, _, _, hms.invoke (i := true) ?_, rfl, Config.set_status_self .., rfl⟩
  rw [Config.set_status_of_ne _ _ (by decide)]
  rfl

theorem not_valid_newUserDoc {P : Primitives ℕ} {iv : List ℕ} (hP : P.Ideal)
    (hc : P.encryptAesgcm iv key ≠ []) :
    validateGroupSignature P (newUserDoc P u key iv) ≠ some true := by
  have hsign : groupSignature P (newUserDoc P u key iv) =
      some (P.hmac (hashName P u none).toList) := by
    simp [groupSignature, computeGroupSignature, feedDocument, Rounds.run, feedField, newUserDoc,
      Iter.binary, stream, feedAdditional]
  have hread : (Iter.initFind (newUserDoc P u key iv) "signature").binary = some
      (P.hmac ((hashName P u none).toList ++ P.encryptAesgcm iv key)).toList := rfl
  intro h
  simp only [validateGroupSignature, hsign, hread, Option.bind_eq_bind, Option.bind_some,
    Option.pure_def, Option.some.injEq, beq_iff_eq, hP.hmac_toList_inj] at h
  exact hc (List.append_right_eq_self.mp h.symm)

end Registered

/-- A client registers a user, another one adds it to a group and is given its record. -/
theorem run_custody_sample :
    ∃ (reqs : Bool → Request ℕ) (ms l : List (Move Bool (Call ℕ) Reply (Log ℕ)))
      (cfg : Config Bool (Call ℕ) Reply Stop (Answer ℕ) (Log ℕ))
      (m : Move Bool (Call ℕ) Reply (Log ℕ)) (s : List ℕ),
      reqs true = .op (.addUserToGroup [5] [1]) ∧
      History (Recording KeepsFilter) (fun i => (reqs i).prog Primitives.nat) (.start []) ms cfg ∧
      ms = l ++ [m] ∧ Checked Primitives.nat m.line s ∧
      Descends (fun i A t => Active (l ++ [m]) i ∧ (reqs i).Authenticates Primitives.nat A t)
        s := by
  have hP := Primitives.nat_ideal
  let key : List ℕ := .replicate 32 7
  let record : Doc ℕ := newUserDoc Primitives.nat [1] key []
  let cur : Cursor ℕ := findWithOpts .users (nameSelector (hashName Primitives.nat [1] none)) none
    (some .primaryPreferred)
  let quiet : Log ℕ := [⟨.create .query, ()⟩, ⟨.create .readPrefs, ()⟩, ⟨.create .cursor, ()⟩,
    ⟨.destroy .query, ()⟩, ⟨.destroy .readPrefs, ()⟩]
  let found : Line ℕ := ⟨.cursorNext cur, (some record, cur)⟩
  obtain ⟨reqs, ms, cfg, hms, rfl, hrunning, hworld⟩ :=
    exists_registered key (.op (.addUserToGroup [5] [1]))
  -- the second client has read the record
  have hread : ((Request.op (.addUserToGroup [5] [1])).prog Primitives.nat).Reaches
      (Recording KeepsFilter) (fun _ log => log = registering [1] key ++ quiet ++ [found])
      (registering [1] key) := by
    iterate 5 apply Prog.Reaches.call (r := ()) ⟨trivial, rfl⟩
    apply Prog.Reaches.call (r := (some record, cur)) ⟨rfl, rfl⟩
    exact .here rfl
  obtain ⟨p, _, hread, rfl⟩ := hread
  obtain ⟨ns, hns, -⟩ := hread.history (fun _ _ _ _ h => h) hrunning hworld
  have hrun := hms.trans hns
  have hlines : registering [1] key ++ quiet ++ [found] = (ms ++ ns).map Move.line := hrun.lines_eq
  have hu : Unforged (HandsTag Primitives.nat) (Checked Primitives.nat)
      ((ms ++ ns).map Move.line) := by
    have hquiet : ∀ y ∈ registering [1] key ++ quiet, ¬ y.call.Reads := by
      simp [registering, quiet, Call.Reads]
    rw [← hlines]
    refine (unforged_nil.append_of_none fun y hy t h => hquiet y hy h.reads).append ?_
    intro s h
    rcases checked_iff.mp h with ⟨hvalid, -⟩ | ⟨name, c, signature, rfl, hname, hc, -⟩
    · exact absurd hvalid (not_valid_newUserDoc hP (by simp [Primitives.nat]))
    · obtain rfl := Option.some.inj hname
      obtain rfl := Option.some.inj hc
      refine ⟨⟨.insertOne .users record, .ok ()⟩, by simp [registering, record], ?_⟩
      rw [HandsTag, Call.tags, tags_newUserDoc]
      exact List.mem_cons_of_mem _ (List.mem_singleton_self _)
  obtain ⟨l, m, hl, hm⟩ : ∃ l m, ms ++ ns = l ++ [m] ∧ m.line = found := by
    obtain ⟨l, l', hl, -, hl'⟩ := List.map_eq_append_iff.mp hlines.symm
    obtain ⟨m, rfl, hm⟩ := List.map_eq_singleton_iff.mp hl'
    exact ⟨l, m, hl, hm⟩
  have hnested : ∀ m ∈ ms ++ ns, (cond m.client (Request.op (.addUserToGroup [5] [1]))
      (.op (.createUser [1] key))).Drops → ReturnsNested Primitives.nat m.line := by
    rintro ⟨client, x⟩ -
    cases client <;> exact fun h => h.elim
  have hchecked : Checked Primitives.nat m.line
      ((hashName Primitives.nat [1] none).toList ++ Primitives.nat.encryptAesgcm [] key) := by
    rw [hm]
    exact .record rfl rfl rfl rfl
  exact ⟨_, _, l, _, m, _, rfl, hrun, hl, hchecked,
    run_custody hP (fun _ _ _ _ h => h.1) hrun hnested hu hl (.inr hchecked)⟩

/-- Whatever the store answers, if it makes no ciphertext of its own, every key that is returned
was registered with a user or is the name of a group that was to be created. -/
theorem run_keys_registered (hP : P.Ideal)
    (hE : ∀ c s r s', E c s r s' → KeepsFilter ⟨c, r⟩)
    (h : History E (fun i => (reqs i).prog P) (.start w) ms cfg)
    (hu : Unforged (HandsSealed P) (Opened P) (ms.map Move.line)) {i : ι} {ks : List (Key β)}
    (hi : cfg.status i = .finished (.ok (.keys ks))) :
    ∀ k ∈ ks, (∃ j u, Active ms j ∧ reqs j = .op (.createUser u k.toList)) ∨
      ∃ j u, Active ms j ∧ reqs j = .op (.createGroup k.toList u) := by
  intro k hk
  obtain ⟨-, hdone⟩ := h.of_records hE (records_custody P (reqs i))
  obtain ⟨x, hx, hopened⟩ := hdone _ hi ks rfl k hk
  obtain ⟨m, hm, -, rfl⟩ := mem_callsOf.mp hx
  obtain ⟨l, l', hms⟩ := List.append_of_mem hm
  have hdescends := (accounted_ciphertexts hP hE h).descends hu hms (.inr hopened)
  apply descends_seals (hdescends.mono _)
  rintro j A t ⟨hj, h⟩
  refine ⟨?_, h⟩
  rw [hms, show l ++ m :: l' = (l ++ [m]) ++ l' by simp]
  exact hj.append_left

section Delivered

variable {g u c iv : List β}

theorem validate_newGroupDoc : validateGroupSignature P (newGroupDoc P g u c iv) = some true := by
  have hd : HasFields (newGroupDoc P g u c iv) (hashName P g none).toList (P.encryptAesgcm iv g)
      [((hashName P u (some g)).toList, c)] := rfl
  have hread : (Iter.initFind (newGroupDoc P g u c iv) "signature").binary =
      some (P.hmac ((hashName P g none).toList ++ P.encryptAesgcm iv g ++
        Bytes.concat [((hashName P u (some g)).toList, c)])).toList := rfl
  simp only [validateGroupSignature, hd.groupSignature, hread, Option.bind_eq_bind,
    Option.bind_some, Option.pure_def, beq_self_eq_true]

omit [DecidableEq β] in
theorem keysRead_newGroupDoc : keysRead (newGroupDoc P g u c iv) = some [c] := rfl

def delivering (P : Primitives β) (g : List β) (d : Doc β) : Log β :=
  let cur := findWithOpts .groups (nameSelector (hashName P g none)) none (some .secondaryPreferred)
  [⟨.create .selector, ()⟩, ⟨.create .readPrefs, ()⟩, ⟨.create .cursor, ()⟩,
    ⟨.destroy .readPrefs, ()⟩] ++ [⟨.cursorNext cur, (some d, cur)⟩] ++ [⟨.destroy .cursor, ()⟩]

theorem evals_delivering (hP : P.Ideal) {iv' : List β} (k : Key β) (log : Log β) :
    ((Request.getKeysOfGroup g).prog P).Evals (Recording KeepsFilter) log (.ok (.keys [k]))
      (log ++ delivering P g (newGroupDoc P g u (P.encryptAesgcm iv k.toList) iv')) := by
  obtain ⟨arrayIter, harray, hkeys⟩ : ∃ arrayIter,
      (Iter.initFind (newGroupDoc P g u (P.encryptAesgcm iv k.toList) iv') "users").recurse none =
        some arrayIter ∧ readKeys P none arrayIter.rest = .pure [k] := by
    refine ⟨_, rfl, ?_⟩
    change readKeys P none [_] = _
    rw [readKeys_of_keyRead rfl, decryptData_encrypt hP, Prog.pure_bind, dif_pos k.toList_length]
    rfl
  simp only [Request.prog, getKeysOfGroup, create, destroy, cursorNext, Prog.bind_eq,
    Prog.request_bind, Prog.call_bind, throwCursorError_findWithOpts, Prog.pure_bind, Prog.pure_eq]
  iterate 4 refine .head (.call (r := ()) ⟨trivial, rfl⟩) ?_
  let cur := findWithOpts .groups (nameSelector (hashName P g none)) none (some .secondaryPreferred)
  have hfind : ∀ log, Recording KeepsFilter (.cursorNext cur) log
      (some (newGroupDoc P g u (P.encryptAesgcm iv k.toList) iv'), cur) (log ++ [_]) :=
    fun _ => ⟨rfl, rfl⟩
  refine .head (.call (hfind _)) ?_
  simp only [validate_newGroupDoc, harray, hkeys, read_some, Prog.pure_bind, Bool.not_true,
    Bool.false_eq_true, ↓reduceIte, Prog.call_bind]
  refine .head (.call (r := ()) ⟨trivial, rfl⟩) ?_
  simp only [delivering, List.append_assoc, List.cons_append, List.nil_append]
  exact .refl _ _

end Delivered

/-- A client registers a user; another one gets the key, in a group document for which the store
has copied the ciphertext. -/
theorem run_keys_registered_sample :
    ∃ (reqs : Bool → Request ℕ) (ms : List (Move Bool (Call ℕ) Reply (Log ℕ)))
      (cfg : Config Bool (Call ℕ) Reply Stop (Answer ℕ) (Log ℕ)) (k : Key ℕ),
      reqs true = .getKeysOfGroup [5] ∧
      History (Recording KeepsFilter) (fun i => (reqs i).prog Primitives.nat) (.start []) ms cfg ∧
      cfg.status true = .finished (.ok (.keys [k])) ∧
      ((∃ j u, Active ms j ∧ reqs j = .op (.createUser u k.toList)) ∨
        ∃ j u, Active ms j ∧ reqs j = .op (.createGroup k.toList u)) := by
  have hP := Primitives.nat_ideal
  let k : Key ℕ := ⟨.replicate 32 7, rfl⟩
  let d : Doc ℕ := newGroupDoc Primitives.nat [5] [1] (Primitives.nat.encryptAesgcm [] k.toList) []
  obtain ⟨reqs, ms, cfg, hms, rfl, hrunning, hworld⟩ :=
    exists_registered k.toList (.getKeysOfGroup [5])
  obtain ⟨ns, hns, -⟩ := (evals_delivering hP k _).history hrunning hworld
  have hrun := hms.trans hns
  have hlines : registering [1] k.toList ++ delivering Primitives.nat [5] d =
      (ms ++ ns).map Move.line := hrun.lines_eq
  have hu : Unforged (HandsSealed Primitives.nat) (Opened Primitives.nat)
      ((ms ++ ns).map Move.line) := by
    rw [← hlines, delivering, ← List.append_assoc, ← List.append_assoc]
    apply Unforged.append_of_none
    · apply Unforged.append
      · apply unforged_nil.append_of_none
        have hquiet : ∀ y ∈ registering [1] k.toList ++ [⟨.create .selector, ()⟩,
            ⟨.create .readPrefs, ()⟩, ⟨.create .cursor, ()⟩, ⟨.destroy .readPrefs, ()⟩],
            ¬ y.call.Reads := by
          simp [registering, Call.Reads]
        exact fun y hy t h => hquiet y hy h.reads
      · intro key h
        refine ⟨⟨.insertOne .users (newUserDoc Primitives.nat [1] k.toList []), .ok ()⟩,
          by simp [registering], Primitives.nat.encryptAesgcm [] k.toList, ?_, ?_⟩
        · rw [Call.ciphertexts, ciphertexts_newUserDoc]
          exact List.mem_singleton_self _
        · rcases opened_iff.mp h with ⟨c, hc, -⟩ | ⟨cs, hcs, c, hc, hkey⟩
          · cases hc
          · have hd : keysRead d = some [Primitives.nat.encryptAesgcm [] k.toList] :=
              keysRead_newGroupDoc
            obtain rfl := Option.some.inj (hd.symm.trans hcs)
            obtain rfl := List.mem_singleton.mp hc
            exact hkey
    · intro y hy t h
      rw [List.mem_singleton.mp hy] at h
      exact h.reads
  have hk := run_keys_registered hP (fun _ _ _ _ h => h.1) hrun hu (Config.set_status_self ..) k
    (List.mem_singleton_self _)
  exact ⟨_, _, _, k, rfl, hrun, Config.set_status_self .., hk⟩

end MongoSgx
