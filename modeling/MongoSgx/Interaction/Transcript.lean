import MongoSgx.Interaction.Rely

/-! # Transcripts

An exchange is a call with its reply. The recording environment answers as it
likes, within a set of allowed exchanges, and its state is the list of the
exchanges so far: what a program does against it is what the program can do
against any environment. `Records` asks that every call satisfy a condition on the
exchanges before it, and every result one on all of them.
-/

namespace Interaction

variable {C : Type} {R : C → Type} {ε S α β σ : Type}

structure Exchange (C : Type) (R : C → Type) where
  call : C
  reply : R call

/-- Any allowed reply, put on record. -/
def Recording (allowed : Exchange C R → Prop) : Env C R (List (Exchange C R)) :=
  fun c log r log' => allowed ⟨c, r⟩ ∧ log' = log ++ [⟨c, r⟩]

/-- Nobody else writes to the record, and every exchange satisfies a condition on the ones
before it. -/
def Contract.recording (G : List (Exchange C R) → Exchange C R → Prop) :
    Contract (List (Exchange C R)) where
  rely s t := t = s
  guar s t := ∀ x, t = s ++ [x] → G s x
  rely_refl _ := rfl
  rely_trans h h' := h'.trans h
  guar_refl s x h := absurd (congrArg List.length h) (by simp)

variable {E : Env C R S} {p q : Prog C R ε α} {s t : S} {allowed : Exchange C R → Prop}
  {G : List (Exchange C R) → Exchange C R → Prop}
  {Q Q' : Except ε α → List (Exchange C R) → Prop} {log log' : List (Exchange C R)}

section Alone

variable {K : Contract S} {Q : Except ε α → S → Prop}

theorem Safe.step {c : Option C} (h : Safe E K Q p s) (hs : Prog.Step E p s c q t) :
    Safe E K Q q t := by
  cases hs with
  | call hE => exact (safe_call_iff.mp h _ (K.rely_refl _) _ _ hE).2
  | unroll => exact safe_loop_iff.mp h

theorem Safe.steps (h : Safe E K Q p s) (hs : p.Steps E s q t) : Safe E K Q q t := by
  induction hs with
  | refl => exact h
  | head hs _ ih => exact ih (h.step hs)

theorem Safe.invariant {Inv : S → Prop} (hguar : ∀ {s t}, K.guar s t → Inv s → Inv t)
    (h : Safe E K Q p s) (hs : p.Steps E s q t) (hI : Inv s) : Inv t := by
  induction hs with
  | refl => exact hI
  | head hs _ ih =>
    refine ih (h.step hs) ?_
    cases hs with
    | call hE => exact hguar (safe_call_iff.mp h _ (K.rely_refl _) _ _ hE).1 hI
    | unroll => exact hI

theorem Safe.of_evals {r : Except ε α} (h : Safe E K Q p s) (hr : p.Evals E s r t) : Q r t := by
  have h := h.steps hr
  cases r with
  | ok a => exact safe_pure_iff.mp h t (K.rely_refl t)
  | error e => exact safe_throw_iff.mp h t (K.rely_refl t)

end Alone

/-- Every run of the program against the recording environment satisfies `G` at every exchange
and `Q` at its end. -/
def Records (allowed : Exchange C R → Prop) (G : List (Exchange C R) → Exchange C R → Prop)
    (Q : Except ε α → List (Exchange C R) → Prop) (p : Prog C R ε α)
    (log : List (Exchange C R)) : Prop :=
  Safe (Recording allowed) (.recording G) Q p log

@[simp] theorem records_pure_iff {a : α} : Records allowed G Q (.pure a) log ↔ Q (.ok a) log := by
  unfold Records
  rw [safe_pure_iff]
  exact ⟨fun h => h log rfl, fun h _ ht => ht ▸ h⟩

@[simp] theorem records_throw_iff {e : ε} :
    Records allowed G Q (.throw e) log ↔ Q (.error e) log := by
  unfold Records
  rw [safe_throw_iff]
  exact ⟨fun h => h log rfl, fun h _ ht => ht ▸ h⟩

@[simp] theorem records_ofExcept_iff {r : Except ε α} :
    Records allowed G Q (Prog.ofExcept r) log ↔ Q r log := by
  cases r with
  | ok a => exact records_pure_iff
  | error e => exact records_throw_iff

theorem records_call_iff {c : C} {k : R c → Prog C R ε α} :
    Records allowed G Q (.call c k) log ↔
      ∀ r, allowed ⟨c, r⟩ → G log ⟨c, r⟩ ∧ Records allowed G Q (k r) (log ++ [⟨c, r⟩]) := by
  unfold Records
  rw [safe_call_iff]
  constructor
  · intro h r hr
    obtain ⟨hg, hk⟩ := h log rfl r _ ⟨hr, rfl⟩
    exact ⟨hg _ rfl, hk⟩
  · rintro h _ rfl r _ ⟨hr, rfl⟩
    refine ⟨fun x hx => ?_, (h r hr).2⟩
    obtain rfl := List.singleton_inj.mp (List.append_cancel_left hx)
    exact (h r hr).1

theorem Records.mono (h : Records allowed G Q p log) (hQ : ∀ r log, Q r log → Q' r log) :
    Records allowed G Q' p log := Safe.mono h hQ

def thenRecords (allowed : Exchange C R → Prop)
    (G : List (Exchange C R) → Exchange C R → Prop)
    (Q : Except ε β → List (Exchange C R) → Prop) (f : α → Prog C R ε β) :
    Except ε α → List (Exchange C R) → Prop
  | .ok a, log => Records allowed G Q (f a) log
  | .error e, log => Q (.error e) log

theorem Records.bind {Q : Except ε β → List (Exchange C R) → Prop} {f : α → Prog C R ε β}
    (h : Records allowed G (thenRecords allowed G Q f) p log) :
    Records allowed G Q (p.bind f) log :=
  Safe.bind (Safe.mono h fun r _ hr => by cases r <;> exact hr)

theorem Records.loop {body : σ → Prog C R ε (σ ⊕ β)} {k : β → Prog C R ε α}
    (I : σ → List (Exchange C R) → Prop)
    (hbody : ∀ x log, I x log →
      Records allowed G (roundPost Q (fun b log => Records allowed G Q (k b) log) I) (body x) log)
    {x : σ} (hI : I x log) : Records allowed G Q (.loop body x k) log := Safe.loop I hbody hI

theorem Records.of_evals {r : Except ε α} (h : Records allowed G Q p log)
    (hr : p.Evals (Recording allowed) log r log') : Q r log' := Safe.of_evals h hr

def recordingRule (allowed : Exchange C R → Prop)
    (G : List (Exchange C R) → Exchange C R → Prop) : CallRule C R (List (Exchange C R)) where
  pre c log Φ := ∀ r, allowed ⟨c, r⟩ → G log ⟨c, r⟩ ∧ Φ r (log ++ [⟨c, r⟩])
  mono h hΦ r hr := ⟨(h r hr).1, hΦ r _ (h r hr).2⟩

theorem sound_records : (recordingRule allowed G).Sound (Records allowed G Q) :=
  fun h => records_call_iff.mpr h

theorem loops_records : (recordingRule allowed G).Loops (Records allowed G Q) := by
  intro σ β body k I hbody x log hI
  refine Records.loop I (fun x log hI => ?_) hI
  apply (hbody x log hI).judged sound_records
  rintro (e | y | b) log hr
  · have hQ : Q (.error e) log := records_throw_iff.mp hr
    exact records_throw_iff.mpr hQ
  · exact records_pure_iff.mpr hr
  · exact records_pure_iff.mpr hr

theorem CallRule.Ends.records (h : (recordingRule allowed G).Ends Q p log) :
    Records allowed G Q p log :=
  h.judged sound_records fun _ _ hr => records_ofExcept_iff.mpr hr

/-- A program keeps a guarantee that follows from what is known of its exchanges. -/
theorem Records.safe {K : Contract S} (h : Records allowed G Q p log)
    (hE : ∀ c s r s', E c s r s' → allowed ⟨c, r⟩)
    (hguar : ∀ log c s r s', G log ⟨c, r⟩ → E c s r s' → K.guar s s') (s : S) :
    Safe E K (fun _ _ => True) p s := by
  intro n
  induction n generalizing p log s with
  | zero => trivial
  | succ n ih =>
    cases p with
    | pure a => exact fun _ _ => trivial
    | throw e => exact fun _ _ => trivial
    | call c k =>
      intro t _ r u hu
      obtain ⟨hG, hk⟩ := records_call_iff.mp h r (hE _ _ _ _ hu)
      exact ⟨hguar _ _ _ _ _ hG hu, ih hk u⟩
    | loop body x k => exact ih (p := Prog.unroll body k x) (safe_loop_iff.mp h) s

theorem Records.of_log (h : Records allowed G Q p log)
    (hs : p.Steps (Recording allowed) log q log') :
    ∃ xs, log' = log ++ xs ∧ ∀ l x l', xs = l ++ x :: l' → G (log ++ l) x := by
  -- induction on the run: a call puts one exchange at the front of the rest
  unfold Records at h
  induction hs with
  | refl p log => exact ⟨[], (List.append_nil log).symm, by simp⟩
  | @head p p' q log log₁ log' c hstep hs ih =>
    obtain ⟨xs, rfl, hxs⟩ := ih (h.step hstep)
    cases hstep with
    | unroll => exact ⟨xs, rfl, hxs⟩
    | @call c k _ _ r hE =>
      obtain ⟨hr, rfl⟩ := hE
      refine ⟨⟨c, r⟩ :: xs, by simp, ?_⟩
      intro l x l' hl
      cases l with
      | nil =>
        obtain ⟨rfl, -⟩ := List.cons.inj hl
        rw [List.append_nil]
        exact ((records_call_iff.mp h) r hr).1
      | cons y l =>
        obtain ⟨rfl, hrest⟩ := List.cons.inj hl
        simpa using hxs l x l' hrest

theorem Prog.Steps.recorded (hs : p.Steps (Recording allowed) log q log') :
    ∃ xs, log' = log ++ xs ∧ ∀ x ∈ xs, allowed x := by
  induction hs with
  | refl p log => exact ⟨[], (List.append_nil log).symm, by simp⟩
  | head hstep hs ih =>
    obtain ⟨xs, rfl, hxs⟩ := ih
    cases hstep with
    | unroll => exact ⟨xs, rfl, hxs⟩
    | @call c k _ _ r hE =>
      obtain ⟨hr, rfl⟩ := hE
      exact ⟨⟨c, r⟩ :: xs, by simp, List.forall_mem_cons.mpr ⟨hr, hxs⟩⟩

theorem Records.map {Q : Except ε β → List (Exchange C R) → Prop} (f : α → β)
    (h : Records allowed G (fun r log => Q (r.map f) log) p log) :
    Records allowed G Q (p.bind fun a => .pure (f a)) log := by
  apply Records.bind
  apply h.mono
  rintro (e | a) log hr
  · exact hr
  · exact records_pure_iff.mpr hr

/-- Whatever a program does against an environment that gives allowed replies can be recorded. -/
theorem Prog.Steps.recording (hs : p.Steps E s q t)
    (hE : ∀ c s r s', E c s r s' → allowed ⟨c, r⟩) (log : List (Exchange C R)) :
    ∃ log', p.Steps (Recording allowed) log q log' := by
  induction hs generalizing log with
  | refl p s => exact ⟨log, .refl p log⟩
  | head hstep hs ih =>
    cases hstep with
    | call hcall =>
      obtain ⟨log', h⟩ := ih (log ++ [⟨_, _⟩])
      exact ⟨log', .head (.call ⟨hE _ _ _ _ hcall, rfl⟩) h⟩
    | unroll =>
      obtain ⟨log', h⟩ := ih log
      exact ⟨log', .head .unroll h⟩

def CanEnd (allowed : Exchange C R → Prop) (Q : Except ε α → List (Exchange C R) → Prop)
    (p : Prog C R ε α) (log : List (Exchange C R)) : Prop :=
  ∃ r log', p.Evals (Recording allowed) log r log' ∧ Q r log'

namespace CanEnd

theorem pure {a : α} (h : Q (.ok a) log) : CanEnd allowed Q (.pure a) log :=
  ⟨.ok a, log, .refl _ _, h⟩

theorem call {c : C} {k : R c → Prog C R ε α} (r : R c) (hr : allowed ⟨c, r⟩)
    (h : CanEnd allowed Q (k r) (log ++ [⟨c, r⟩])) : CanEnd allowed Q (.call c k) log := by
  obtain ⟨x, log', hx, hQ⟩ := h
  exact ⟨x, log', .head (.call ⟨hr, rfl⟩) hx, hQ⟩

theorem unroll {body : σ → Prog C R ε (σ ⊕ β)} {k : β → Prog C R ε α} {x : σ}
    (h : CanEnd allowed Q (Prog.unroll body k x) log) : CanEnd allowed Q (.loop body x k) log := by
  obtain ⟨r, log', hr, hQ⟩ := h
  exact ⟨r, log', .head .unroll hr, hQ⟩

def rule (allowed : Exchange C R → Prop) : CallRule C R (List (Exchange C R)) where
  pre c log Φ := ∃ r, allowed ⟨c, r⟩ ∧ Φ r (log ++ [⟨c, r⟩])
  mono := fun ⟨r, hr, h⟩ hΦ => ⟨r, hr, hΦ r _ h⟩

theorem sound : (rule allowed).Sound (CanEnd allowed Q) := fun ⟨r, hr, h⟩ => call r hr h

theorem unrolls : CallRule.Unrolls (CanEnd allowed Q) := unroll

theorem of_ends (h : (rule allowed).Ends Q p log) : CanEnd allowed Q p log :=
  h.judged sound fun r log hr => ⟨r, log, .refl _ _, hr⟩

end CanEnd

end Interaction
