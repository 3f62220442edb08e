import MongoSgx.Interaction.Attempt
import MongoSgx.Interaction.Linearization

/-! # Clients of linear calls

Clients are programs whose calls are themselves carried out by programs, and they
catch what these throw. If the programs of the calls are linear, the clients cannot
tell them from an abstract system that carries out each call at once: to every run
of the clients there is one over the abstract system in which they start and finish
in the same order and with the same results.
-/

namespace Interaction

variable {C Q : Type} {R : C → Type} {A : Q → Type} {ε ε' S D γ ι : Type}

def Holding (Holds : S → D → Prop) (s : S) (X : Set D) : Prop := ∃ a ∈ X, Holds s a

/-- The abstract states that an answer may leave behind. -/
def Env.after (B : Env Q (fun q => Except ε (A q)) D) (q : Q) (r : Except ε (A q))
    (X : Set D) : Set D := {a' | ∃ a ∈ X, B q a r a'}

section Programs

variable (E : Env C R S) (F : Frame S) (Holds : S → D → Prop)
  (B : Env Q (fun q => Except ε (A q)) D) (impl : (q : Q) → Prog C R ε (A q)) (φ : Q → Prop)

/-- The program has one effective step, at which the abstract system gives its answer. -/
def Serving (q : Q) (p : Prog C R ε (A q)) (s : S) : Prop :=
  Linear E F (Holding Holds) (B.after q) (fun _ => True) p s

/-- What a client has left to do while the abstract one has the second program left. -/
inductive Tracks : Prog C R ε' γ → Prog Q (fun q => Except ε (A q)) ε' γ → S → Prop
  | pure (a : γ) (s : S) : Tracks (.pure a) (.pure a) s
  | throw (e : ε') (s : S) : Tracks (.throw e) (.throw e) s
  | loop {σ β : Type} {body : σ → Prog Q (fun q => Except ε (A q)) ε' (σ ⊕ β)} {x : σ}
      {k : β → Prog Q (fun q => Except ε (A q)) ε' γ} {s : S} (h : (Prog.loop body x k).Makes φ) :
      Tracks (.loop (fun y => (body y).through impl) x fun b => (k b).through impl)
        (.loop body x k) s
  /-- Inside a call that has not taken effect. -/
  | pending {q : Q} {k : Except ε (A q) → Prog Q (fun q => Except ε (A q)) ε' γ}
      {p : Prog C R ε' γ} {p₀ : Prog C R ε (A q)} {s : S}
      (hp : p = p₀.attempt fun r => (k r).through impl) (h : Serving E F Holds B q p₀ s)
      (hk : ∀ r, (k r).Makes φ) : Tracks p (.call q k) s
  /-- Inside a call that has taken effect, with its result. -/
  | settled {q : Q} {k : Except ε (A q) → Prog Q (fun q => Except ε (A q)) ε' γ}
      {p : Prog C R ε' γ} {p₀ : Prog C R ε (A q)} {res : Except ε (A q)} {s : S}
      (hp : p = p₀.attempt fun r => (k r).through impl) (hne : ∀ r, p₀ ≠ .ofExcept r)
      (h : Safe E (.around F (Holding Holds)) (fun r _ => r = res) p₀ s)
      (hk : ∀ r, (k r).Makes φ) : Tracks p (k res) s

end Programs

variable {E : Env C R S} {F : Frame S} {Holds : S → D → Prop}
  {B : Env Q (fun q => Except ε (A q)) D} {impl : (q : Q) → Prog C R ε (A q)} {φ : Q → Prop}

section Steps

variable {p p' : Prog C R ε' γ} {a : Prog Q (fun q => Except ε (A q)) ε' γ} {s s' t : S} {x : D}

theorem tracks_through (hserve : ∀ q, φ q → Serving E F Holds B q (impl q) s) (ha : a.Makes φ) :
    Tracks E F Holds B impl φ (a.through impl) a s := by
  cases a with
  | pure a => exact .pure a s
  | throw e => exact .throw e s
  | call q k => exact .pending rfl (hserve q ha.1) ha.2
  | loop body x k => exact .loop ha

theorem tracks_settled {q : Q} {k : Except ε (A q) → Prog Q (fun q => Except ε (A q)) ε' γ}
    {p₀ : Prog C R ε (A q)} {res : Except ε (A q)}
    (hserve : ∀ q, φ q → Serving E F Holds B q (impl q) s)
    (h : Safe E (.around F (Holding Holds)) (fun r _ => r = res) p₀ s)
    (hk : ∀ r, (k r).Makes φ) :
    Tracks E F Holds B impl φ (p₀.attempt fun r => (k r).through impl) (k res) s := by
  cases p₀ with
  | pure b =>
    obtain rfl : .ok b = res := safe_pure_iff.mp h s (F.refl s)
    exact tracks_through hserve (hk _)
  | throw e =>
    obtain rfl : .error e = res := safe_throw_iff.mp h s (F.refl s)
    exact tracks_through hserve (hk _)
  | call c f => exact .settled rfl (by rintro (_ | _) hr <;> cases hr) h hk
  | loop body x f => exact .settled rfl (by rintro (_ | _) hr <;> cases hr) h hk

theorem Tracks.stable (h : Tracks E F Holds B impl φ p a s) (hst : F.Keeps s t) :
    Tracks E F Holds B impl φ p a t := by
  cases h with
  | pure a => exact .pure a t
  | throw e => exact .throw e t
  | loop h => exact .loop h
  | pending hp h hk => exact .pending hp (Linear.stable h hst) hk
  | settled hp hne h hk => exact .settled hp hne (Safe.stable h hst) hk

theorem Tracks.finished {r : Except ε' γ} (h : Tracks E F Holds B impl φ (.ofExcept r) a s) :
    a = .ofExcept r := by
  have hcall : ∀ {q : Q} {p₀ : Prog C R ε (A q)} {k : Except ε (A q) → Prog C R ε' γ},
      Prog.ofExcept r = p₀.attempt k → ∃ r, p₀ = .ofExcept r := by
    intro q p₀ k hp
    cases p₀ with
    | pure b => exact ⟨.ok b, rfl⟩
    | throw e => exact ⟨.error e, rfl⟩
    | call c f => cases r <;> cases hp
    | loop body x f => cases r <;> cases hp
  generalize hr : Prog.ofExcept r = p at h
  cases h with
  | pure b =>
    cases r <;> cases hr
    rfl
  | throw e =>
    cases r <;> cases hr
    rfl
  | loop h => cases r <;> cases hr
  | pending hp h hk =>
    obtain ⟨res, rfl⟩ := hcall (hr.trans hp)
    cases res <;> exact (h 1).elim
  | settled hp hne h hk =>
    obtain ⟨res, rfl⟩ := hcall (hr.trans hp)
    exact absurd rfl (hne res)

/-- A step of a client is one of the abstract client, or is not seen in the abstract system. -/
theorem Tracks.step {c : Option C} (hserve : ∀ q, φ q → Serving E F Holds B q (impl q) s)
    (h : Tracks E F Holds B impl φ p a s) (hs : Prog.Step E p s c p' s') :
    F.Keeps s s' ∧ ∀ x, Holds s x →
      (Holds s' x ∧ Tracks E F Holds B impl φ p' a s') ∨
      ∃ d a' x', Prog.Step B a x d a' x' ∧ Holds s' x' ∧ Tracks E F Holds B impl φ p' a' s' := by
  have hneutral : ∀ {t : S}, (Contract.around F (Holding Holds)).guar s t →
      ∀ x, Holds s x → Holds t x := by
    intro t hg x hx
    obtain ⟨_, rfl, hx'⟩ := hg.2 {x} ⟨x, rfl, hx⟩
    exact hx'
  cases hs with
  | @call c f _ _ r hE =>
    cases h with
    | @pending q k _ p₀ _ hp h hk =>
      cases p₀ with
      | pure b => exact (h 1).elim
      | throw e => exact (h 1).elim
      | call d g =>
        obtain ⟨rfl, hf⟩ := Prog.call.inj hp
        obtain rfl := eq_of_heq hf
        rcases linear_call_iff.mp h s (F.refl s) r s' hE with ⟨hg, hk'⟩ | ⟨res, -, hc, hsafe⟩
        · exact ⟨hg.1, fun x hx => .inl ⟨hneutral hg x hx, .pending rfl hk' hk⟩⟩
        · refine ⟨hc.1, fun x hx => .inr ?_⟩
          -- the abstract system answers where the call takes effect
          obtain ⟨x', ⟨_, rfl, hB⟩, hx'⟩ := hc.2 {x} ⟨x, rfl, hx⟩
          have hserve' : ∀ q, φ q → Serving E F Holds B q (impl q) s' :=
            fun q hq => Linear.stable (hserve q hq) hc.1
          exact ⟨some q, k res, x', .call hB, hx', tracks_settled hserve' hsafe hk⟩
      | loop body x g => cases hp
    | @settled q k _ p₀ res _ hp hne h hk =>
      cases p₀ with
      | pure b => exact absurd rfl (hne (.ok b))
      | throw e => exact absurd rfl (hne (.error e))
      | call d g =>
        obtain ⟨rfl, hf⟩ := Prog.call.inj hp
        obtain rfl := eq_of_heq hf
        obtain ⟨hg, hk'⟩ := safe_call_iff.mp h s (F.refl s) r s' hE
        have hserve' : ∀ q, φ q → Serving E F Holds B q (impl q) s' :=
          fun q hq => Linear.stable (hserve q hq) hg.1
        exact ⟨hg.1, fun x hx => .inl ⟨hneutral hg x hx, tracks_settled hserve' hk' hk⟩⟩
      | loop body x g => cases hp
  | @unroll σ β body y f =>
    refine ⟨F.refl s, fun x hx => ?_⟩
    cases h with
    | @loop σ β body y k _ h =>
      refine .inr ⟨none, _, x, .unroll, hx, ?_⟩
      rw [Prog.unroll_through]
      exact tracks_through hserve h.unroll
    | @pending q k _ p₀ _ hp h hk =>
      cases p₀ with
      | pure b => exact (h 1).elim
      | throw e => exact (h 1).elim
      | call d g => cases hp
      | loop body y g =>
        rw [Prog.attempt_loop] at hp
        cases hp
        rw [Prog.unroll_attempt]
        exact .inl ⟨hx, .pending rfl (fun n => h (n + 1)) hk⟩
    | @settled q k _ p₀ res _ hp hne h hk =>
      cases p₀ with
      | pure b => exact absurd rfl (hne (.ok b))
      | throw e => exact absurd rfl (hne (.error e))
      | call d g => cases hp
      | loop body y g =>
        rw [Prog.attempt_loop] at hp
        cases hp
        rw [Prog.unroll_attempt]
        exact .inl ⟨hx, tracks_settled hserve (safe_loop_iff.mp h) hk⟩

end Steps

section Pools

/-- What the callers see of a run: who starts, and who finishes. -/
inductive Border (ι : Type) where
  | invoke (i : ι)
  | finish (i : ι)

def Event.border? : Event ι C → Option (Border ι)
  | .invoke i => some (.invoke i)
  | .finish i => some (.finish i)
  | .call _ _ | .unroll _ => none

variable (E F Holds B impl φ)

inductive Status.Tracks : Status C R ε' γ → Status Q (fun q => Except ε (A q)) ε' γ → S → Prop
  | idle (s : S) : Tracks .idle .idle s
  | running {p : Prog C R ε' γ} {a : Prog Q (fun q => Except ε (A q)) ε' γ} {s : S}
      (h : Interaction.Tracks E F Holds B impl φ p a s) : Tracks (.running p) (.running a) s
  | finished (r : Except ε' γ) (s : S) : Tracks (.finished r) (.finished r) s

structure Config.Tracks (w : S) (cfg : Config ι C R ε' γ S)
    (acfg : Config ι Q (fun q => Except ε (A q)) ε' γ D) : Prop where
  reached : F.Keeps w cfg.world
  holds : Holds cfg.world acfg.world
  status : ∀ i, (cfg.status i).Tracks E F Holds B impl φ (acfg.status i) cfg.world

variable {E F Holds B impl φ}
variable [DecidableEq ι] {w v : S} {cfg cfg' : Config ι C R ε' γ S}
  {acfg : Config ι Q (fun q => Except ε (A q)) ε' γ D}
  {clients : ι → Prog Q (fun q => Except ε (A q)) ε' γ} {evs : List (Event ι C)} {e : Event ι C}

theorem Status.Tracks.finished_iff {st : Status C R ε' γ}
    {ast : Status Q (fun q => Except ε (A q)) ε' γ} {s : S} {r : Except ε' γ}
    (h : st.Tracks E F Holds B impl φ ast s) : st = .finished r ↔ ast = .finished r := by
  cases h with
  | idle => simp
  | running => simp
  | finished => simp

theorem Config.Tracks.set (h : cfg.Tracks E F Holds B impl φ w acfg) {i : ι} {x : D}
    {st : Status C R ε' γ} {ast : Status Q (fun q => Except ε (A q)) ε' γ}
    (hv : F.Keeps cfg.world v) (hx : Holds v x) (hst : st.Tracks E F Holds B impl φ ast v) :
    (cfg.set v i st).Tracks E F Holds B impl φ w (acfg.set x i ast) where
  reached := F.trans h.reached hv
  holds := hx
  status := by
    intro j
    by_cases hij : j = i
    · subst hij
      rw [Config.set_status_self, Config.set_status_self]
      exact hst
    · rw [Config.set_status_of_ne _ _ hij, Config.set_status_of_ne _ _ hij]
      generalize cfg.status j = stj, acfg.status j = astj, h.status j = hj
      cases hj with
      | idle => exact .idle v
      | running h => exact .running (h.stable hv)
      | finished r => exact .finished r v

theorem Prog.Step.config {prog : ι → Prog C R ε' γ} {p q : Prog C R ε' γ} {c : Option C} {i : ι}
    (hs : Prog.Step E p cfg.world c q v) (hi : cfg.status i = .running p) :
    ∃ e, cfg.Step E prog e (cfg.set v i (.running q)) ∧ e.border? = none := by
  cases hs with
  | call hE => exact ⟨_, .call hi hE, rfl⟩
  | unroll => exact ⟨_, .unroll hi, rfl⟩

/-- Inside a call the abstract system may move, but nobody starts or finishes. -/
theorem Config.Tracks.inside (hserve : ∀ q, φ q → Serving E F Holds B q (impl q) w)
    (h : cfg.Tracks E F Holds B impl φ w acfg) {i : ι} {p q : Prog C R ε' γ} {c : Option C}
    (hi : cfg.status i = .running p) (hs : Prog.Step E p cfg.world c q v) :
    ∃ es acfg', Run B clients (fun _ _ => True) acfg es acfg' ∧ es.filterMap Event.border? = [] ∧
      (cfg.set v i (.running q)).Tracks E F Holds B impl φ w acfg' := by
  have hstatus := h.status i
  rw [hi] at hstatus
  generalize ha : acfg.status i = ast at hstatus
  cases hstatus with
  | @running _ a _ htracks =>
    have hserve' : ∀ q, φ q → Serving E F Holds B q (impl q) cfg.world :=
      fun q hq => Linear.stable (hserve q hq) h.reached
    obtain ⟨hkeeps, hall⟩ := htracks.step hserve' hs
    rcases hall _ h.holds with ⟨hx, ht⟩ | ⟨d, a', x', hstep, hx, ht⟩
    · refine ⟨[], acfg, .nil acfg, rfl, ?_⟩
      have hset := h.set hkeeps hx (i := i) (.running ht)
      rwa [← ha, show acfg.set acfg.world i (acfg.status i) = acfg by
        rw [Config.set, Function.update_eq_self]] at hset
    · obtain ⟨e, hstep, he⟩ := hstep.config ha
      refine ⟨[e], _, .snoc (.nil acfg) trivial hstep, ?_, h.set hkeeps hx (.running ht)⟩
      rw [List.filterMap_cons_none he, List.filterMap_nil]

theorem Config.Tracks.step (hclients : ∀ i, (clients i).Makes φ)
    (hserve : ∀ q, φ q → Serving E F Holds B q (impl q) w)
    (h : cfg.Tracks E F Holds B impl φ w acfg)
    (hs : cfg.Step E (fun i => (clients i).through impl) e cfg') :
    ∃ es acfg', Run B clients (fun _ _ => True) acfg es acfg' ∧
      es.filterMap Event.border? = [e].filterMap Event.border? ∧
      cfg'.Tracks E F Holds B impl φ w acfg' := by
  have hnow : ∀ q, φ q → Serving E F Holds B q (impl q) cfg.world :=
    fun q hq => Linear.stable (hserve q hq) h.reached
  cases hs with
  | @invoke i hi =>
    have hstatus := h.status i
    rw [hi] at hstatus
    generalize ha : acfg.status i = ast at hstatus
    cases hstatus with
    | idle =>
      exact ⟨[.invoke i], _, .snoc (.nil acfg) trivial (.invoke ha), rfl,
        h.set (F.refl _) h.holds (.running (tracks_through hnow (hclients i)))⟩
  | call hi hE => exact h.inside hserve hi (.call hE)
  | unroll hi => exact h.inside hserve hi .unroll
  | @finish i r hi =>
    have hstatus := h.status i
    rw [hi] at hstatus
    generalize ha : acfg.status i = ast at hstatus
    generalize hp : Prog.ofExcept r = p at hstatus
    cases hstatus with
    | running htracks =>
      subst hp
      obtain rfl := htracks.finished
      exact ⟨[.finish i], _, .snoc (.nil acfg) trivial (.finish ha), rfl,
        h.set (F.refl _) h.holds (.finished r _)⟩

/-- Every run of the clients is one over the abstract system. -/
theorem Run.tracked {x : D} (hclients : ∀ i, (clients i).Makes φ)
    (hserve : ∀ q, φ q → Serving E F Holds B q (impl q) w) (hw : Holds w x)
    {ok : Config ι C R ε' γ S → Event ι C → Prop}
    (hr : Run E (fun i => (clients i).through impl) ok (.start w) evs cfg) :
    ∃ aevs acfg, Run B clients (fun _ _ => True) (.start x) aevs acfg ∧
      aevs.filterMap Event.border? = evs.filterMap Event.border? ∧
      cfg.Tracks E F Holds B impl φ w acfg := by
  generalize hstart : (Config.start w : Config ι C R ε' γ S) = cfg₀ at hr
  induction hr with
  | nil =>
    subst hstart
    exact ⟨[], _, .nil _, rfl, F.refl w, hw, fun _ => .idle w⟩
  | snoc _ _ hs ih =>
    obtain ⟨aevs, acfg, hrun, hborders, htracks⟩ := ih
    obtain ⟨es, acfg', hrun', hborders', htracks'⟩ := htracks.step hclients hserve hs
    refine ⟨_, acfg', hrun.trans hrun', ?_, htracks'⟩
    rw [List.filterMap_append, List.filterMap_append, hborders, hborders']

end Pools

end Interaction
