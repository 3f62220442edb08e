import MongoSgx.Concurrent.Application
import MongoSgx.Transcript.Names

/-! # Giving up under contention

An attempt to add or to remove a member fails only if the document it has read is no
longer in the store when its update arrives. A call that gives up has made ten
such attempts, one after the other, so there are ten changes of the group by others, one
between the two calls of each attempt. Since a call that is not a deletion changes
the store at most once, they belong to ten different calls. The call that gives up has
changed nothing itself, like every call that ends with an exception of its own.
-/

namespace MongoSgx

open Bson Interaction

variable {β : Type} [DecidableEq β]

section Rounds

variable (P : Primitives β) (g : List β)

/-- A group document is read, and an update that it answers to is sent and finds no document. -/
def FailedRound (p : Line β × Line β) : Prop :=
  ∃ found d cur sel upd r,
    p.1 = ⟨.cursorNext (findWithOpts .groups found none none), (some d, cur)⟩ ∧
    p.2 = ⟨.updateOne .groups sel upd, r⟩ ∧
    (found.Matches d → (nameSelector (hashName P g none)).Matches d ∧ sel.Matches d) ∧
    ¬ Effective p.2 ∧ ∀ e, r = .error e → e.code = 0

def roundCalls {γ : Type} (rounds : List (γ × γ)) : List γ := rounds.flatMap fun p => [p.1, p.2]

def Rounds (n : ℕ) (log : Log β) : Prop :=
  ∃ rounds, rounds.length = n ∧ (∀ p ∈ rounds, FailedRound P g p) ∧ (roundCalls rounds).Sublist log

/-- There were `n` failed rounds, and then the document was read. -/
def Halfway (n : ℕ) (edit : GroupEdit β) (d : Doc β) (log : Log β) : Prop :=
  ∃ rounds cur, rounds.length = n ∧ (∀ p ∈ rounds, FailedRound P g p) ∧
    (roundCalls rounds ++ [findLine edit (some d, cur)]).Sublist log

/-- A call that gives up by itself has made ten rounds. -/
def TenRounds {α : Type} (r : Except Stop α) (log : Log β) : Prop :=
  ∀ e, r = .error (.thrown e) → GaveUp e → (∀ x ∈ log, failure x ≠ some e) → Rounds P g 10 log

def honestWatch : Watch β where
  allowed x := ∃ w w', Honest .int64 x.call w x.reply w'
  guar _ _ := True
  silent _ _ _ := trivial

end Rounds

variable {P : Primitives β} {g u : List β} {log : Log β} {n : ℕ}

section Transcripts

omit [DecidableEq β] in
theorem quiet_rounds : Quiet (Rounds P g n) := by
  rintro log x ⟨rounds, hn, hfailed, hs⟩ -
  exact ⟨rounds, hn, hfailed, hs.trans (List.sublist_append_left _ _)⟩

omit [DecidableEq β] in
theorem quiet_halfway {edit : GroupEdit β} {d : Doc β} : Quiet (Halfway P g n edit d) := by
  rintro log x ⟨rounds, cur, hn, hfailed, hs⟩ -
  exact ⟨rounds, cur, hn, hfailed, hs.trans (List.sublist_append_left _ _)⟩

omit [DecidableEq β] in
theorem quiet_tenRounds {α : Type} (r : Except Stop α) : Quiet (TenRounds P g r) := by
  intro log x h hx e he hgave hno
  apply quiet_rounds log x (h e he hgave fun y hy => ?_) hx
  exact hno y (List.mem_append_left _ hy)

omit [DecidableEq β] in
theorem tenRounds_ok {α : Type} {a : α} : TenRounds P g (.ok a) log := by
  rintro e ⟨⟩

omit [DecidableEq β] in
theorem tenRounds_thrown {α : Type} {e : BsonError} (he : ¬ GaveUp e) :
    TenRounds P g (.error (.thrown e) : Except Stop α) log := by
  rintro e' ⟨⟩ hgave
  exact absurd hgave he

omit [DecidableEq β] in
theorem tenRounds_failure {α : Type} {x : Line β} {e : BsonError} (hx : failure x = some e) :
    TenRounds P g (.error (.thrown e) : Except Stop α) (log ++ [x]) := by
  rintro e' ⟨⟩ - hno
  exact absurd hx (hno x (List.mem_append_right _ (List.mem_singleton_self x)))

omit [DecidableEq β] in
theorem Rounds.read (h : Rounds P g n log) (edit : GroupEdit β) (d : Doc β) (cur : Cursor β) :
    Halfway P g n edit d (log ++ [findLine edit (some d, cur)]) := by
  obtain ⟨rounds, hn, hfailed, hs⟩ := h
  exact ⟨rounds, cur, hn, hfailed, hs.append (.refl _)⟩

/-- A document that was accepted answers to its own signature. -/
theorem matches_own_signature {d : Doc β} {σ : List β}
    (hvalid : validateGroupSignature P d = some true)
    (hσ : (Iter.initFind d "signature").binary = some σ) :
    Selector.Matches [(["signature"], .eq (.binary σ))] d := by
  have hne : σ ≠ [] := by
    rintro rfl
    simp only [validateGroupSignature, hσ, Option.bind_eq_bind, Option.bind_some] at hvalid
    obtain ⟨s, -, hs⟩ := Option.bind_eq_some_iff.mp hvalid
    have hnil : s.toList = [] := by simpa using hs
    have hlength : ([] : List β).length = hmacResultLength := hnil ▸ s.toList_length
    simp [hmacResultLength] at hlength
  have hget : Doc.get? d "signature" = some (.binary σ) := Iter.get?_of_binary hσ hne
  simp [Value.resolve, Value.field, hget, Value.leaves]

theorem Halfway.fail {edit : GroupEdit β} {sel₀ sel : Selector β} {d : Doc β} {upd : Update β}
    {r : Except BsonError (Doc β)} (h : Halfway P g n edit d log)
    (hsel : edit.selector = nameSelector (hashName P g none) ++ sel₀)
    (hedit : EditOf P edit d sel upd) (heff : ¬ Effective ⟨.updateOne .groups sel upd, r⟩)
    (hcode : ∀ e, r = .error e → e.code = 0) :
    Rounds P g (n + 1) (log ++ [⟨.updateOne .groups sel upd, r⟩]) := by
  obtain ⟨rounds, cur, hn, hfailed, hs⟩ := h
  refine ⟨rounds ++ [(findLine edit (some d, cur), ⟨.updateOne .groups sel upd, r⟩)], ?_, ?_, ?_⟩
  · simp [hn]
  · intro p hp
    rcases List.mem_append.mp hp with hp | hp
    · exact hfailed p hp
    · rw [List.mem_singleton.mp hp]
      refine ⟨edit.selector, d, cur, sel, upd, r, rfl, rfl, fun hm => ?_, heff, hcode⟩
      obtain ⟨hvalid, σ, s, hσ, -, rfl, -⟩ := hedit
      refine ⟨?_, (Selector.matches_append _ _ _).mpr ⟨hm, matches_own_signature hvalid hσ⟩⟩
      rw [hsel, Selector.matches_append] at hm
      exact hm.1
  · simpa [roundCalls] using hs.append (.refl [⟨.updateOne .groups sel upd, r⟩])

theorem editRule_rounds {edit : GroupEdit β} {sel₀ : Selector β}
    (hsel : edit.selector = nameSelector (hashName P g none) ++ sel₀)
    (hinvalid : ¬ GaveUp edit.invalid) :
    EditRule honestWatch P edit (fun n log => ∃ k, k + n = 10 ∧ Rounds P g k log)
      (fun n d log => ∃ k, k + n = 9 ∧ Halfway P g k edit d log) (TenRounds P g) where
  quiet_start _ _ x := fun ⟨k, hk, h⟩ hx => ⟨k, hk, quiet_rounds _ x h hx⟩
  quiet_read _ _ _ x := fun ⟨k, hk, h⟩ hx => ⟨k, hk, quiet_halfway _ x h hx⟩
  quiet_done := quiet_tenRounds
  find _ _ _ _ _ := trivial
  absent _ _ _ _ _ := tenRounds_ok
  present n log d cur := fun ⟨k, hk, h⟩ _ => ⟨k, by omega, h.read edit d cur⟩
  stop _ _ _ e _ he := by
    rcases he with rfl | rfl
    · rintro e ⟨⟩
    · exact tenRounds_thrown hinvalid
  send _ _ _ _ _ _ _ _ _ := trivial
  answer n d log sel upd r := by
    rintro ⟨k, hk, h⟩ hedit -
    cases r with
    | ok reply =>
      refine ⟨fun _ => by rintro e ⟨⟩, fun v hv => ?_⟩
      split
      · exact tenRounds_ok
      · rename_i hone
        refine ⟨k + 1, by omega, h.fail hsel hedit ?_ nofun⟩
        rintro ⟨v', hv', hone'⟩
        exact hone (Option.some.inj (hv.symm.trans hv') ▸ hone')
    | error e =>
      simp only [Answered]
      split
      · exact tenRounds_failure rfl
      · rename_i hcode
        refine ⟨k + 1, by omega, h.fail hsel hedit id ?_⟩
        rintro e' ⟨⟩
        exact not_not.mp hcode
  exhausted log := by
    rintro ⟨k, hk, h⟩ e ⟨⟩ - -
    obtain rfl : k = 10 := by omega
    exact h

omit [DecidableEq β] in
theorem rounds_nil : Rounds P g 0 log := ⟨[], rfl, by simp, by simp [roundCalls]⟩

theorem error_of_honest {x : Option (Doc β) × Cursor β}
    (h : honestWatch.allowed (recordLine P u x)) : x.2.error = none := by
  obtain ⟨w, w', -, ⟨d, id, -, -, -, -, rfl⟩ | ⟨-, rfl⟩⟩ := h
  · rfl
  · rfl

theorem joinRule_rounds : JoinRule honestWatch P g u (fun _ => True)
    (fun _ cur _ => cur.error = none) (fun _ n log => ∃ k, k + n = 10 ∧ Rounds P g k log)
    (fun c n d log => ∃ k, k + n = 9 ∧ Halfway P g k (addEdit P g u c) d log)
    (TenRounds P g) where
  record := {
    quiet_start := fun _ _ _ _ => trivial
    quiet_read := fun _ _ _ _ h _ => h
    find := fun _ _ _ _ => trivial
    absent := fun _ _ _ _ => tenRounds_thrown (by decide)
    present := fun _ _ _ _ h => error_of_honest h
    stop := by
      rintro d cur log e herr (rfl | rfl | rfl | ⟨e', he', rfl⟩)
      · rintro e ⟨⟩
      · exact tenRounds_thrown (by decide)
      · exact tenRounds_thrown (by decide)
      · rw [herr] at he'
        cases he' }
  edit _ := editRule_rounds rfl
    (show ¬ GaveUp (bsonError "Error in signature validation at line" 194) by decide)
  start _ _ _ _ _ _ _ := ⟨0, rfl, rounds_nil⟩

theorem records_rounds {q : Request β}
    (hq : q = .op (.addUserToGroup g u) ∨ q = .op (.removeUserFromGroup g u)) :
    honestWatch.Records (TenRounds P g) (q.prog P) [] := by
  have hmap : ∀ (r : Except Stop Unit) (log : Log β), TenRounds P g r log →
      TenRounds P g (r.map fun _ => Answer.done (β := β)) log := by
    rintro (e | ⟨⟩) log h
    · exact fun e' he => h e' (congrArg _ (Except.error.inj he))
    · exact tenRounds_ok
  rcases hq with rfl | rfl
  · apply Records.map
    exact (joinRule_rounds.records_addUserToGroup trivial).mono fun r log => hmap r log
  · apply Records.map
    have hedit : EditRule honestWatch P (removeEdit P g u) _ _ (TenRounds P g) :=
      editRule_rounds rfl
      (show ¬ GaveUp (bsonError "Error in signature validation" 274) by decide)
    exact (hedit.records_editAttempts 10 ⟨0, rfl, rounds_nil⟩).mono fun r log => hmap r log

end Transcripts

section Charges

variable {ι : Type} {m n : Move ι (Call β) Reply (World β)}

def Finds (m : Move ι (Call β) Reply (World β)) : Prop :=
  ∃ cur, m.line.call = .cursorNext cur ∧ cur.collection = .groups

def Updates (m : Move ι (Call β) Reply (World β)) : Prop :=
  ∃ sel upd, m.line.call = .updateOne .groups sel upd

def Changes (P : Primitives β) (g : List β) (m : Move ι (Call β) Reply (World β)) : Prop :=
  groupDocs P g m.before ≠ groupDocs P g m.after

theorem FailedRound.gone (h : FailedRound P g (m.line, n.line))
    (hm : Honest .int64 m.line.call m.before m.line.reply m.after)
    (hn : Honest .int64 n.line.call n.before n.line.reply n.after) :
    Finds m ∧ Updates n ∧ ∃ d, (nameSelector (hashName P g none)).Matches d ∧
      d ∈ m.after.groups ∧ d ∉ n.before.groups := by
  obtain ⟨found, d, cur, sel, upd, r, hml, hnl, hsel, heff, hcode⟩ := h
  change m.line = _ at hml
  change n.line = _ at hnl
  change ¬ Effective n.line at heff
  rw [hml] at hm
  rw [hnl] at hn heff
  refine ⟨⟨_, congrArg Exchange.call hml, rfl⟩, ⟨sel, upd, congrArg Exchange.call hnl⟩, d, ?_⟩
  obtain ⟨hafter, ⟨d', id, hd', hmatch, -, -, he⟩ | ⟨-, he⟩⟩ := hm
  · obtain rfl : d = d' := Option.some.inj (congrArg Prod.fst he)
    obtain ⟨hname, hd⟩ := hsel hmatch
    refine ⟨hname, hafter ▸ hd', fun hd'' => ?_⟩
    rcases hn with ⟨k, ds, hu, rfl, -⟩ | ⟨-, -, e, he, rfl⟩
    · change UpdateOne sel upd n.before.groups k ds at hu
      generalize n.before.groups = ds₀ at hu hd''
      cases hu with
      | none hno => exact hno d hd'' hd
      | one => exact heff ⟨1, read_matchedCount 1, le_refl 1⟩
    · exact he (hcode e rfl)
  · cases congrArg Prod.fst he

omit [DecidableEq β] in
theorem exists_stretch {γ : Type} {x y : γ} {rest l : List γ} (h : (x :: y :: rest).Sublist l) :
    ∃ a mid b, l = a ++ (x :: mid ++ [y]) ++ b ∧ rest.Sublist b := by
  obtain ⟨b₁, b₂, rfl, hx, h₁⟩ := List.cons_sublist_iff.mp h
  obtain ⟨b₃, b₄, rfl, hy, h₂⟩ := List.cons_sublist_iff.mp h₁
  obtain ⟨c₁, c₂, rfl⟩ := List.append_of_mem hx
  obtain ⟨c₃, c₄, rfl⟩ := List.append_of_mem hy
  refine ⟨c₁, c₂ ++ c₃, c₄ ++ b₄, by simp, ?_⟩
  exact h₂.trans (List.sublist_append_right _ _)

variable {i : ι} {ms : List (Move ι (Call β) Reply (World β))}

theorem exists_changes (henv : ∀ m ∈ ms, Honest .int64 m.line.call m.before m.line.reply m.after)
    (hown : ∀ m ∈ ms, m.client = i → m.after = m.before)
    (hchain : ms.IsChain fun m n => n.before = m.after)
    (rounds : List (Move ι (Call β) Reply (World β) × Move ι (Call β) Reply (World β)))
    (hfailed : ∀ p ∈ rounds, FailedRound P g (p.1.line, p.2.line))
    (hclient : ∀ m ∈ roundCalls rounds, m.client = i) (hs : (roundCalls rounds).Sublist ms) :
    ∃ l, l.length = rounds.length ∧ (∀ m ∈ l, m.client ≠ i ∧ Changes P g m) ∧
      (rounds ≠ [] → ∃ f x, (f :: l ++ [x]).Sublist ms ∧ f.client = i ∧ Finds f ∧
        x.client = i ∧ Updates x) := by
  -- induction on the rounds: the calls after the first round are a later part of the history
  induction rounds generalizing ms with
  | nil => exact ⟨[], rfl, by simp, fun h => absurd rfl h⟩
  | cons p rounds ih =>
    obtain ⟨f, x⟩ := p
    obtain ⟨a, mid, b, rfl, hrest⟩ := exists_stretch hs
    have hf : f ∈ a ++ (f :: mid ++ [x]) ++ b := by simp
    have hx : x ∈ a ++ (f :: mid ++ [x]) ++ b := by simp
    have hb : ∀ m ∈ b, m ∈ a ++ (f :: mid ++ [x]) ++ b := fun m hm => List.mem_append_right _ hm
    obtain ⟨hfinds, hupdates, d, hd, hd₁, hd₂⟩ :=
      (hfailed (f, x) (List.mem_cons_self ..)).gone (henv f hf) (henv x hx)
    obtain ⟨y, hy, hy₁, hy₂⟩ := exists_change (Q := fun w => d ∈ w.groups)
      (hchain.left_of_append.right_of_append) hd₁ hd₂
    have hyms : y ∈ a ++ (f :: mid ++ [x]) ++ b := by simp [hy]
    have hyi : y.client ≠ i := fun h => hy₂ (hown y hyms h ▸ hy₁)
    have hychange : Changes P g y := by
      intro h
      have hmem : d ∈ groupDocs P g y.before := List.mem_filter.mpr ⟨hy₁, by simpa using hd⟩
      rw [h] at hmem
      exact hy₂ (List.mem_of_mem_filter hmem)
    obtain ⟨l, hl, hlc, hends⟩ := ih (fun m hm => henv m (hb m hm)) (fun m hm => hown m (hb m hm))
      hchain.right_of_append (fun p hp => hfailed p (List.mem_cons_of_mem _ hp))
      (fun m hm => hclient m (by simp [roundCalls] at hm ⊢; simp [hm])) hrest
    refine ⟨y :: l, by simp [hl], ?_, fun _ => ?_⟩
    · intro m hm
      rcases List.mem_cons.mp hm with rfl | hm
      · exact ⟨hyi, hychange⟩
      · exact hlc m hm
    · have hstretch : ∀ t : List (Move ι (Call β) Reply (World β)), t.Sublist ([x] ++ b) →
          (f :: y :: t).Sublist (a ++ (f :: mid ++ [x]) ++ b) := by
        intro t ht
        have h := (List.Sublist.refl [f]).append ((List.singleton_sublist.mpr hy).append ht)
        simpa using h.trans (List.sublist_append_right a _)
      cases rounds with
      | nil =>
        obtain rfl : l = [] := List.length_eq_zero_iff.mp hl
        refine ⟨f, x, hstretch [x] (by simp), ?_, hfinds, ?_, hupdates⟩
        · exact hclient f (by simp [roundCalls])
        · exact hclient x (by simp [roundCalls])
      | cons q rounds =>
        obtain ⟨f', x', hs', -, -, hx', hupdates'⟩ := hends (by simp)
        refine ⟨f, x', hstretch (l ++ [x']) ?_, hclient f (by simp [roundCalls]), hfinds, hx',
          hupdates'⟩
        exact ((List.sublist_cons_self _ _).trans hs').trans (List.sublist_append_right _ _)

omit [DecidableEq β] in
theorem exists_rounds {rounds : List (Line β × Line β)} :
    ∀ {ns : List (Move ι (Call β) Reply (World β))},
    ns.map Move.line = roundCalls rounds →
      ∃ rs, roundCalls rs = ns ∧ rs.map (fun p => (p.1.line, p.2.line)) = rounds := by
  induction rounds with
  | nil =>
    intro ns h
    exact ⟨[], (List.map_eq_nil_iff.mp h).symm, rfl⟩
  | cons p rounds ih =>
    intro ns h
    obtain ⟨m, ns, rfl, hm, h⟩ := List.map_eq_cons_iff.mp h
    obtain ⟨n, ns, rfl, hn, h⟩ := List.map_eq_cons_iff.mp h
    obtain ⟨rs, rfl, hrs⟩ := ih h
    exact ⟨(m, n) :: rs, rfl, by rw [List.map_cons, hm, hn, hrs]⟩

end Charges

section Runs

variable {ι : Type} [DecidableEq ι] {prog : ι → Enclave β (Answer β)} {w : World β}
  {ms : List (Move ι (Call β) Reply (World β))} {i : ι}
  {cfg : Config ι (Call β) Reply Stop (Answer β) (World β)} {q : Request β}

/-- The call has given up, by an exception of its own and not one that the driver has reported
to it. -/
def GivesUp (ms : List (Move ι (Call β) Reply (World β)))
    (cfg : Config ι (Call β) Reply Stop (Answer β) (World β)) (i : ι) : Prop :=
  ∃ e, GaveUp e ∧ cfg.status i = .finished (.error (.thrown e)) ∧
    ∀ m ∈ ms, m.client = i → failure m.line ≠ some e

/-- The call `j` is at work between two calls of `i`. -/
def Overlaps (ms : List (Move ι (Call β) Reply (World β))) (i j : ι) : Prop :=
  ∃ m x n, [m, x, n].Sublist ms ∧ m.client = i ∧ x.client = j ∧ n.client = i

/-- A call that gives up has been preceded by ten changes of others to its group. -/
theorem givesUp_changes (h : History (Honest .int64) prog (.start w) ms cfg)
    (hq : q = .op (.addUserToGroup g u) ∨ q = .op (.removeUserFromGroup g u))
    (hi : prog i = q.prog P) (hgives : GivesUp ms cfg i) :
    ∃ f x l, l.length = 10 ∧ (f :: l ++ [x]).Sublist ms ∧ f.client = i ∧ Finds f ∧
      x.client = i ∧ Updates x ∧ ∀ m ∈ l, m.client ≠ i ∧ Changes P g m := by
  obtain ⟨e, hgave, he, hno⟩ := hgives
  have hrec : honestWatch.Records (TenRounds P g) (prog i) [] := hi ▸ records_rounds hq
  have hallowed : ∀ c s r s', Honest .int64 c s r s' → honestWatch.allowed (β := β) ⟨c, r⟩ :=
    fun c s r s' hE => ⟨s, s', hE⟩
  obtain ⟨rounds, hlength, hfailed, hsub⟩ := (h.of_records hallowed hrec).2 _ he e rfl hgave (by
    intro x hx
    obtain ⟨m, hm, hmi, rfl⟩ := mem_callsOf.mp hx
    exact hno m hm hmi)
  obtain ⟨ns, hns, hmap, hclient⟩ := exists_moves hsub
  obtain ⟨rs, rfl, rfl⟩ := exists_rounds hmap
  have hdeletes : ¬ q.Deletes := by
    rcases hq with rfl | rfl
    · exact id
    · exact id
  have hunmoved := unmoved_of_error h hi hdeletes he
  have hown : ∀ m ∈ ms, m.client = i → m.after = m.before := fun m hm hmi =>
    honest_unchanged (h.env hm) (hunmoved _ (mem_callsOf.mpr ⟨m, hm, hmi, rfl⟩))
  obtain ⟨l, hl, hlc, hends⟩ :=
    exists_changes (g := g) (P := P) (fun m hm => h.env hm) hown h.chain rs
    (fun p hp => hfailed _ (List.mem_map_of_mem hp)) hclient hns
  rw [List.length_map] at hlength
  obtain ⟨f, x, hs, hf, hfinds, hx, hupdates⟩ := hends (by rintro rfl; simp at hlength)
  exact ⟨f, x, l, hl.trans hlength, hs, hf, hfinds, hx, hupdates, hlc⟩

inductive Request.UpdatesGroup (g : List β) : Request β → Prop
  | create (u : List β) : UpdatesGroup g (.op (.createGroup g u))
  | add (u : List β) : UpdatesGroup g (.op (.addUserToGroup g u))
  | remove (u : List β) : UpdatesGroup g (.op (.removeUserFromGroup g u))

omit [DecidableEq β] in
theorem Request.UpdatesGroup.not_deletes (hq : q.UpdatesGroup g) : ¬ q.Deletes := by
  cases hq <;> exact id

variable {ops : ι → Request β}

theorem call_names (hP : P.Ideal) (g : List β)
    (h : History (Honest .int64) (fun j => (ops j).prog P) (.start w) ms cfg)
    {m : Move ι (Call β) Reply (World β)} (hm : m ∈ ms) :
    m.line.call.KeepsNames ∧ ((ops m.client).Elsewhere g → m.line.call.Spares P g) := by
  obtain ⟨hguar, -⟩ := h.of_records (fun _ _ _ _ _ => trivial) (records_names hP g (ops m.client))
  obtain ⟨l, l', hl⟩ := List.append_of_mem (mem_callsOf.mpr ⟨m, hm, rfl, rfl⟩)
  exact hguar l m.line l' hl

theorem nodup_changers (h : History (Honest .int64) (fun j => (ops j).prog P) (.start w) ms cfg)
    {l : List (Move ι (Call β) Reply (World β))} (hl : l.Sublist ms)
    (hchange : ∀ m ∈ l, Changes P g m) (hno : ∀ m ∈ l, ¬ (ops m.client).Deletes) :
    (l.map Move.client).Nodup := by
  rw [List.nodup_iff_sublist]
  intro j hj
  obtain ⟨l', hl', hmap⟩ := List.sublist_map_iff.mp hj
  obtain ⟨y, z, rfl⟩ : ∃ y z, l' = [y, z] := by
    obtain ⟨y, l', rfl, -, h'⟩ := List.map_eq_cons_iff.mp hmap.symm
    obtain ⟨z, l', rfl, -, h''⟩ := List.map_eq_cons_iff.mp h'
    obtain rfl := List.map_eq_nil_iff.mp h''
    exact ⟨y, z, rfl⟩
  simp only [List.map_cons, List.map_nil, List.cons.injEq, and_true] at hmap
  obtain ⟨rfl, hz⟩ := hmap
  have heffective : ∀ m ∈ [y, z], Effective m.line := by
    intro m hm
    have hml : m ∈ l := hl'.subset hm
    refine by_contra fun hno => hchange m hml ?_
    rw [honest_unchanged (h.env (hl.subset hml)) hno]
  have hfilter : [y, z].Sublist (ms.filter fun m => m.client = y.client) := by
    have h := (hl'.trans hl).filter fun m => decide (m.client = y.client)
    simpa [← hz] using h
  exact changes_once h rfl (hno y (hl'.subset (by simp))) hfilter (heffective y (by simp))
    (heffective z (by simp))

/-- A call that adds or removes a member and gives up lies across ten changes of its group by other
calls. If the other calls for the group that were at work in the meantime update it only once, there
were at least ten of them. -/
theorem contention (hP : P.Ideal) (hw : WellNamed w)
    (h : History (Honest .int64) (fun j => (ops j).prog P) (.start w) ms cfg)
    (hi : ops i = .op (.addUserToGroup g u) ∨ ops i = .op (.removeUserFromGroup g u))
    (hgives : GivesUp ms cfg i) :
    (∃ f x l, l.length = 10 ∧ (f :: l ++ [x]).Sublist ms ∧ f.client = i ∧ Finds f ∧
      x.client = i ∧ Updates x ∧ ∀ m ∈ l, m.client ≠ i ∧ Changes P g m) ∧
    ∀ J : Finset ι, (∀ j ∈ J, (ops j).UpdatesGroup g) →
      (∀ j, j ≠ i → j ∉ J → Overlaps ms i j → (ops j).Elsewhere g) → 10 ≤ (J.erase i).card := by
  have hchanges := givesUp_changes h hi rfl hgives
  refine ⟨hchanges, fun J hJ hothers => ?_⟩
  obtain ⟨f, x, l, hl, hs, hf, -, hx, -, hlc⟩ := hchanges
  have hlms : l.Sublist ms :=
    ((List.sublist_append_left l [x]).trans (List.sublist_cons_self f _)).trans hs
  have hnamed : ∀ m ∈ ms, WellNamed m.before := (h.invariant hw fun m hm hb =>
    (call_names hP g h hm).1 _ _ _ (h.env hm) hb).1
  -- whoever changes the group in the meantime is one of the calls that update it once
  have hclients : ∀ m ∈ l, m.client ∈ J.erase i := by
    intro m hm
    obtain ⟨hmi, hchange⟩ := hlc m hm
    have hmms : m ∈ ms := hlms.subset hm
    refine Finset.mem_erase.mpr ⟨hmi, by_contra fun hmJ => hchange ?_⟩
    have hoverlap : Overlaps ms i m.client := by
      refine ⟨f, m, x, List.Sublist.trans ?_ hs, hf, rfl, hx⟩
      exact ((List.singleton_sublist.mpr hm).append (.refl [x])).cons_cons f
    exact ((call_names hP g h hmms).2 (hothers _ hmi hmJ hoverlap) _ _ _ (h.env hmms)
      (hnamed m hmms)).symm
  -- and no two of the changes are by the same call
  have hnodup : (l.map Move.client).Nodup := by
    apply nodup_changers h hlms fun m hm => (hlc m hm).2
    intro m hm
    exact (hJ _ (Finset.mem_of_mem_erase (hclients m hm))).not_deletes
  calc 10 = (l.map Move.client).toFinset.card := by
        rw [List.toFinset_card_of_nodup hnodup, List.length_map, hl]
    _ ≤ (J.erase i).card := by
        apply Finset.card_le_card
        intro j hj
        obtain ⟨m, hm, rfl⟩ := List.mem_map.mp (List.mem_toFinset.mp hj)
        exact hclients m hm

end Runs

section Crowd

theorem Group.signature_next_join (hP : P.Ideal) {G : Group β} (hS : G.Signed P) {m : Member β}
    (h : (Change.join m).Applies G) : (G.next P (.join m)).signature ≠ G.signature := by
  intro heq
  rw [Group.next, Group.signature_join h, hS, nextSignature, hP.hmac_inj] at heq
  have hlength := congrArg List.length heq
  have hname : 0 < (hashName P m.user (some G.name)).toList.length := by
    rw [List.Vector.toList_length]
    decide
  simp only [stream, encname, change_name, change_iv, entries_join h, Bytes.concat_append,
    Bytes.concat_cons, Bytes.concat_nil, Member.entry, List.length_append,
    List.length_nil] at hlength
  omega

omit [DecidableEq β] in
theorem wellNamed_toWorld (V : Vault β) : WellNamed (V.toWorld P) := by
  intro d hd
  obtain ⟨G, -, rfl⟩ := List.mem_map.mp hd
  exact ⟨_, rfl⟩

/-- Client `0` removes its user from the group and everybody else adds another one. -/
def crowdOps (g : List β) (user : ℕ → List β) : ℕ → Request β
  | 0 => .op (.removeUserFromGroup g (user 0))
  | k + 1 => .op (.addUserToGroup g (user (k + 1)))

structure Crowded (P : Primitives β) (g : List β) (user : ℕ → List β) (w : World β) (k : ℕ)
    (ms : List (Move ℕ (Call β) Reply (World β)))
    (cfg : Config ℕ (Call β) Reply Stop (Answer β) (World β)) (V : Vault β) : Prop where
  history : History (Honest .int64) (fun j => (crowdOps g user j).prog P) (.start w) ms cfg
  world : cfg.world = V.toWorld P
  signed : V.Signed P
  accounts : ∀ j ≤ 10, user j ∈ V.accounts.keys
  group : ∃ G ∈ V.groups, G.name = g ∧ user 0 ∈ G.users ∧ ∀ j ≤ 10, k < j → user j ∉ G.users
  status : cfg.status 0 = .running ((editAttempts P (removeEdit P g (user 0)) (10 - k)).bind
    fun _ => .pure .done)
  idle : ∀ j, k < j → cfg.status j = .idle
  unfailing : ∀ m ∈ ms, m.client = 0 → failure m.line = none

variable {user : ℕ → List β} {w : World β} {k : ℕ} {ms : List (Move ℕ (Call β) Reply (World β))}
  {cfg : Config ℕ (Call β) Reply Stop (Answer β) (World β)} {V : Vault β}

theorem exists_evals_add (hP : P.Ideal) (hS : V.Signed P) {u : List β} (hu : u ∈ V.accounts.keys) :
    ∃ m : Member β, m.user = u ∧ ((Request.op (.addUserToGroup g u)).prog P).Evals (Honest .int64)
      (V.toWorld P) (.ok .done) ((V.update P g (.join m)).toWorld P) := by
  obtain ⟨r, _, hadd, ⟨a, ha, rfl, iv, rfl, rfl⟩ | ⟨hno, -⟩⟩ :=
    (wp_addUserToGroup (u := u) (g := g) hP hS).exists_evals (honest_total .int64)
  · exact ⟨⟨a.user, a.key, iv⟩, rfl, hadd.steps_bind _⟩
  · exact absurd hu hno

theorem honest_missed (hP : P.Ideal) (hS : V.Signed P) {G : Group β} (hG : G ∈ V.groups)
    {m : Member β} (hm : (Change.join m).Applies G) (c : Change β) :
    Honest .int64 (.updateOne .groups (guardOf P c G)
        ((c.groupEdit P G.name).update (G.nextSignature P c)))
      ((V.update P G.name (.join m)).toWorld P) (.ok (updateReply .int64 0))
      ((V.update P G.name (.join m)).toWorld P) := by
  obtain ⟨r, w, hE⟩ := honest_total .int64 (.updateOne .groups (guardOf P c G)
    ((c.groupEdit P G.name).update (G.nextSignature P c)))
    ((V.update P G.name (.join m)).toWorld P)
  rcases honest_edit hP hE with ⟨rfl, rfl, -⟩ | ⟨-, -, H, hH, hHg, -, hsig⟩
  · exact hE
  · obtain ⟨H', hH', rfl⟩ := Vault.mem_groups_update.mp hH
    have hHG : H' = G :=
      Keyed.eq_of_key_eq hH' hG (by split at hHg <;> simpa [Group.next] using hHg)
    subst hHG
    rw [if_pos rfl] at hsig
    exact absurd (List.Vector.toList_injective hsig) (Group.signature_next_join hP (hS _ hG) hm)

theorem Crowded.group_next (h : Crowded P g user w k ms cfg V) (huser : Function.Injective user)
    {G : Group β} (hG : G ∈ V.groups) (hg : G.name = g) {m : Member β} (hm : m.user = user (k + 1))
    (happ : (Change.join m).Applies G) :
    ∃ H ∈ (V.update P g (.join m)).groups, H.name = g ∧ user 0 ∈ H.users ∧
      ∀ j ≤ 10, k + 1 < j → user j ∉ H.users := by
  obtain ⟨G', hG', hg', h0, hnew⟩ := h.group
  obtain rfl : G' = G := Keyed.eq_of_key_eq hG' hG (hg'.trans hg.symm)
  subst hg
  refine ⟨G'.next P (.join m), Vault.mem_groups_update.mpr ⟨G', hG, if_pos rfl⟩,
    Group.change_name, ?_⟩
  have husers : (G'.next P (.join m)).users = G'.users ++ [m.user] := by
    rw [Group.next, Group.users_join, if_neg happ]
  rw [husers, hm]
  refine ⟨List.mem_append_left _ h0, fun j hj hkj hmem => ?_⟩
  rcases List.mem_append.mp hmem with hmem | hmem
  · exact hnew j hj (by omega) hmem
  · have hjk : j = k + 1 := huser (List.mem_singleton.mp hmem)
    omega

/-- Client `0` reads the group, client `k + 1` adds its user, and the update of client `0` fails. -/
theorem Crowded.next (hP : P.Ideal) (huser : Function.Injective user)
    (h : Crowded P g user w k ms cfg V) (hk : k < 10) :
    ∃ ms cfg V, Crowded P g user w (k + 1) ms cfg V := by
  let prog : ℕ → Enclave β (Answer β) := fun j => (crowdOps g user j).prog P
  obtain ⟨G, hG, hg, h0, hnew⟩ := h.group
  subst hg
  have h0k : 0 ≠ k + 1 := by omega
  -- the read
  have hstatus : cfg.status 0 = .running ((editAttempts P
      ((Change.leave (user 0)).groupEdit P G.name) (9 - k + 1)).bind fun _ => .pure .done) := by
    rw [h.status]
    congr 2
    congr 1
    omega
  have hleave : (Change.leave (user 0)).Applies G := h0
  obtain ⟨q, hq, ms₁, h₁, hcalls₁⟩ :=
    exists_update prog .int64 hP h.signed hG hleave hstatus h.world
  -- the call that comes in between
  obtain ⟨m, hm, hadd⟩ := exists_evals_add (g := G.name) hP h.signed (h.accounts (k + 1) hk)
  have happ : (Change.join m).Applies G := by
    change m.user ∉ G.users
    rw [hm]
    exact hnew (k + 1) hk (Nat.lt_succ_self k)
  have hidle : cfg.status (k + 1) = .idle := h.idle _ (Nat.lt_succ_self k)
  rw [← Config.set_status_of_ne cfg (V.toWorld P) h0k.symm] at hidle
  obtain ⟨ms₂, h₂, hcalls₂⟩ := (h.history.trans h₁).complete hidle hadd
  -- the update
  obtain ⟨ms₃, h₃, hcalls₃⟩ := exists_retry prog hq
    ((Config.set_status_of_ne _ _ h0k _).trans (Config.set_status_self ..))
    (honest_missed hP h.signed hG happ (.leave (user 0))) (v := 0) rfl (by decide)
  exact ⟨_, _, V.update P G.name (.join m), {
    history := h₂.trans h₃
    world := rfl
    signed := h.signed.update
    accounts := h.accounts
    group := h.group_next huser hG rfl hm happ
    status := by
      rw [Config.set_status_self]
      congr 2
      congr 1
      omega
    idle := by
      intro j hj
      have hj0 : j ≠ 0 := by omega
      have hjk : j ≠ k + 1 := by omega
      rw [Config.set_status_of_ne _ _ hj0, Config.set_status_of_ne _ _ hjk,
        Config.set_status_of_ne _ _ hj0]
      exact h.idle j (by omega)
    unfailing := by
      intro x hx hx0
      simp only [List.mem_append, List.mem_cons] at hx
      rcases hx with ((hx | hx) | hx) | rfl | hx
      · exact h.unfailing x hx hx0
      · exact (hcalls₁ x hx).2.2
      · exact absurd ((hcalls₂ x hx).1.symm.trans hx0) (by omega)
      · rfl
      · exact (hcalls₃ x hx).2.2 }⟩

theorem Crowded.givesUp (hP : P.Ideal) (huser : Function.Injective user)
    (h : Crowded P g user w 0 ms cfg V) :
    ∃ ms cfg, History (Honest .int64) (fun j => (crowdOps g user j).prog P) (.start w) ms cfg ∧
      GivesUp ms cfg 0 := by
  have hrounds : ∀ k ≤ 10, ∃ ms cfg V, Crowded P g user w k ms cfg V := by
    intro k
    induction k with
    | zero => exact fun _ => ⟨ms, cfg, V, h⟩
    | succ k ih =>
      intro hk
      obtain ⟨ms, cfg, V, h⟩ := ih (by omega)
      exact h.next hP huser (by omega)
  obtain ⟨ms, cfg, V, h⟩ := hrounds 10 (le_refl 10)
  have hfinish := h.history.quiet (.finish
    (r := .error (.thrown (removeEdit P g (user 0)).exhausted))
    h.status) rfl
  refine ⟨_, _, hfinish, _, .inr rfl, Config.set_status_self .., fun m hm hm0 => ?_⟩
  rw [h.unfailing m hm hm0]
  nofun

def crowd : Vault ℕ :=
  let users : Vault ℕ := (List.range 11).foldr
    (fun k V => Vault.register [k] (.replicate keySize 7) [] V) Vault.empty
  users.establish Primitives.nat [5] [] ⟨[0], .replicate keySize 7, []⟩

/-- Ten calls that add other users let a call that removes one give up. -/
theorem exists_crowd_givesUp : ∃ ms cfg,
    History (Honest .int64) (fun j => (crowdOps [5] (fun k => [k]) j).prog Primitives.nat)
      (.start (crowd.toWorld Primitives.nat)) ms cfg ∧ GivesUp ms cfg 0 := by
  have hkeys : crowd.accounts.keys = [[10], [9], [8], [7], [6], [5], [4], [3], [2], [1], [0]] := rfl
  have hgroups : crowd.groups.elems = [⟨11, [5], [], [⟨[0], .replicate keySize 7, []⟩],
      List.nodup_singleton _, Vault.foundingSignature Primitives.nat [5] []
        ⟨[0], .replicate keySize 7, []⟩⟩] := rfl
  let prog : ℕ → Enclave ℕ (Answer ℕ) :=
    fun j => (crowdOps [5] (fun k => [k]) j).prog Primitives.nat
  have hprog : prog 0 = (editAttempts Primitives.nat (removeEdit Primitives.nat [5] [0]) 10).bind
      fun _ => .pure .done := rfl
  have hstart : Crowded Primitives.nat [5] (fun k => [k]) (crowd.toWorld Primitives.nat) 0 []
      ((Config.start (crowd.toWorld Primitives.nat)).set (crowd.toWorld Primitives.nat) 0
        (.running (prog 0))) crowd := {
    history := (History.nil _).invoke rfl
    world := rfl
    signed := by
      intro G hG
      rw [Keyed.mem_def, hgroups, List.mem_singleton] at hG
      subst hG
      rfl
    accounts := by
      intro j hj
      rw [hkeys]
      simp only [List.mem_cons, List.cons.injEq, and_true, List.not_mem_nil, or_false]
      omega
    group := by
      refine ⟨_, by rw [Keyed.mem_def, hgroups]; exact List.mem_singleton_self _, rfl,
        by decide, ?_⟩
      intro j _ hj
      simp [Group.users]
      omega
    status := by rw [Config.set_status_self, hprog, Nat.sub_zero]
    idle := fun j hj => Config.set_status_of_ne _ _ (by omega) _
    unfailing := fun m hm => absurd hm List.not_mem_nil }
  have huser : Function.Injective fun k : ℕ => [k] := List.singleton_injective
  exact hstart.givesUp Primitives.nat_ideal huser

end Crowd

/-- The removal in the crowd gives up, between ten additions. -/
theorem contention_sample : ∃ ms cfg,
    History (Honest .int64) (fun j => (crowdOps [5] (fun k => [k]) j).prog Primitives.nat)
      (.start (crowd.toWorld Primitives.nat)) ms cfg ∧ GivesUp ms cfg 0 ∧
    ∃ f x l, l.length = 10 ∧ (f :: l ++ [x]).Sublist ms ∧ f.client = 0 ∧ Finds f ∧
      x.client = 0 ∧ Updates x ∧ ∀ m ∈ l, m.client ≠ 0 ∧ Changes Primitives.nat [5] m := by
  obtain ⟨ms, cfg, h, hgives⟩ := exists_crowd_givesUp
  have hop : crowdOps [5] (fun k : ℕ => [k]) 0 = .op (.removeUserFromGroup [5] [0]) := rfl
  have hw : WellNamed (crowd.toWorld Primitives.nat) := wellNamed_toWorld crowd
  obtain ⟨hchanges, -⟩ := contention Primitives.nat_ideal hw h (.inr hop) hgives
  exact ⟨ms, cfg, h, hgives, hchanges⟩

section OwnErrors

variable {ι : Type} [DecidableEq ι] {prog : ι → Enclave β (Answer β)} {w : World β}
  {E : Env (Call β) Reply (World β)} {ms : List (Move ι (Call β) Reply (World β))} {i : ι}
  {cfg : Config ι (Call β) Reply Stop (Answer β) (World β)} {q : Request β}

/-- A call that ends with an exception of its own, not one that the driver has reported to it, has
changed nothing, whatever the store contains and whatever the others do to it meanwhile. -/
theorem own_error_changes_nothing {e : BsonError} (h : History E prog (.start w) ms cfg)
    (hi : prog i = q.prog P)
    (hhonest : ∀ m ∈ ms, m.client = i → Honest .int64 m.line.call m.before m.line.reply m.after)
    (he : cfg.status i = .finished (.error (.thrown e)))
    (hown : ∀ m ∈ ms, m.client = i → failure m.line ≠ some e) :
    ∀ m ∈ ms, m.client = i → m.after = m.before := by
  have hrec : (effectWatch q).Records Owned (prog i) [] := hi ▸ records_effects q
  obtain ⟨-, hend⟩ := h.of_records (fun _ _ _ _ _ => trivial) hrec
  have hunmoved : Unmoved (callsOf i ms) := by
    apply hend _ he e rfl
    intro x hx
    obtain ⟨m, hm, hmi, rfl⟩ := mem_callsOf.mp hx
    exact hown m hm hmi
  intro m hm hmi
  exact honest_unchanged (hhonest m hm hmi) (hunmoved _ (mem_callsOf.mpr ⟨m, hm, hmi, rfl⟩))

/-- The removal that gives up in the crowd has sent updates, and changed nothing. -/
theorem own_error_changes_nothing_sample : ∃ ms cfg,
    History (Honest .int64) (fun j => (crowdOps [5] (fun k => [k]) j).prog Primitives.nat)
      (.start (crowd.toWorld Primitives.nat)) ms cfg ∧
    (∃ e, cfg.status 0 = .finished (.error (.thrown e))) ∧
    (∃ x ∈ ms, x.client = 0 ∧ Updates x) ∧ (∃ m ∈ ms, m.client ≠ 0 ∧ m.after ≠ m.before) ∧
    ∀ m ∈ ms, m.client = 0 → m.after = m.before := by
  obtain ⟨ms, cfg, h, hgives⟩ := exists_crowd_givesUp
  obtain ⟨f, x, l, hl, hs, -, -, hx, hupdates, hchanges⟩ :=
    givesUp_changes h (.inr rfl) rfl hgives
  obtain ⟨m, hml⟩ := List.exists_mem_of_length_pos (by omega : 0 < l.length)
  obtain ⟨e, -, he, hown⟩ := hgives
  have hxs : x ∈ ms := hs.subset (by simp)
  have hms : m ∈ ms := hs.subset (by simp [hml])
  obtain ⟨hm, hchange⟩ := hchanges m hml
  refine ⟨ms, cfg, h, ⟨e, he⟩, ⟨x, hxs, hx, hupdates⟩, ⟨m, hms, hm, fun hsame => ?_⟩, ?_⟩
  · exact hchange (by rw [hsame])
  · exact own_error_changes_nothing h rfl (fun m hm _ => h.env hm) he hown

end OwnErrors

end MongoSgx
