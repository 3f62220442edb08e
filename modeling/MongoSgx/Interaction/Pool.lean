import Mathlib.Logic.Function.Basic
import MongoSgx.Interaction.Rely

/-! # Interleaved calls

A pool holds any number of calls, each idle, running or finished, over one
shared world. A run interleaves their steps in any order; a side condition `ok`
can restrict the runs considered. Calls whose contracts fit together keep the
invariant of the world in every run.
-/

namespace Interaction

variable {C : Type} {R : C → Type} {ε S α ι : Type}

inductive Status (C : Type) (R : C → Type) (ε α : Type) : Type 1 where
  | idle
  | running (p : Prog C R ε α)
  | finished (r : Except ε α)

structure Config (ι C : Type) (R : C → Type) (ε α S : Type) : Type 1 where
  world : S
  status : ι → Status C R ε α

inductive Event (ι C : Type) where
  | invoke (i : ι)
  | call (i : ι) (c : C)
  | unroll (i : ι)
  | finish (i : ι)

def Config.start (w : S) : Config ι C R ε α S := ⟨w, fun _ => .idle⟩

variable [DecidableEq ι]

def Config.set (cfg : Config ι C R ε α S) (w : S) (i : ι) (st : Status C R ε α) :
    Config ι C R ε α S := ⟨w, Function.update cfg.status i st⟩

@[simp] theorem Config.set_world (cfg : Config ι C R ε α S) (w : S) (i : ι)
    (st : Status C R ε α) : (cfg.set w i st).world = w := rfl

@[simp] theorem Config.set_status_self (cfg : Config ι C R ε α S) (w : S) (i : ι)
    (st : Status C R ε α) : (cfg.set w i st).status i = st := Function.update_self ..

@[simp] theorem Config.set_set (cfg : Config ι C R ε α S) (v w : S) (i : ι)
    (st st' : Status C R ε α) : (cfg.set v i st).set w i st' = cfg.set w i st' := by
  simp [Config.set]

theorem Config.set_status_of_ne (cfg : Config ι C R ε α S) (w : S) {i j : ι} (h : j ≠ i)
    (st : Status C R ε α) : (cfg.set w i st).status j = cfg.status j := Function.update_of_ne h ..

/-- One call of the pool is invoked, takes a step or returns. -/
inductive Config.Step (E : Env C R S) (prog : ι → Prog C R ε α) :
    Config ι C R ε α S → Event ι C → Config ι C R ε α S → Prop
  | invoke {cfg : Config ι C R ε α S} {i : ι} (h : cfg.status i = .idle) :
      Step E prog cfg (.invoke i) (cfg.set cfg.world i (.running (prog i)))
  | call {cfg : Config ι C R ε α S} {i : ι} {c : C} {k : R c → Prog C R ε α} {r : R c} {w : S}
      (h : cfg.status i = .running (.call c k)) (hE : E c cfg.world r w) :
      Step E prog cfg (.call i c) (cfg.set w i (.running (k r)))
  | unroll {cfg : Config ι C R ε α S} {i : ι} {σ β : Type} {body : σ → Prog C R ε (σ ⊕ β)}
      {x : σ} {k : β → Prog C R ε α} (h : cfg.status i = .running (.loop body x k)) :
      Step E prog cfg (.unroll i) (cfg.set cfg.world i (.running (Prog.unroll body k x)))
  | finish {cfg : Config ι C R ε α S} {i : ι} {r : Except ε α}
      (h : cfg.status i = .running (.ofExcept r)) :
      Step E prog cfg (.finish i) (cfg.set cfg.world i (.finished r))

/-- Runs all of whose steps satisfy the side condition, with their events in order. -/
inductive Run (E : Env C R S) (prog : ι → Prog C R ε α)
    (ok : Config ι C R ε α S → Event ι C → Prop) :
    Config ι C R ε α S → List (Event ι C) → Config ι C R ε α S → Prop
  | nil (cfg : Config ι C R ε α S) : Run E prog ok cfg [] cfg
  | snoc {cfg cfg' cfg'' : Config ι C R ε α S} {evs : List (Event ι C)} {e : Event ι C}
      (h : Run E prog ok cfg evs cfg') (hok : ok cfg' e) (hs : cfg'.Step E prog e cfg'') :
      Run E prog ok cfg (evs ++ [e]) cfg''

variable {E E' : Env C R S} {prog : ι → Prog C R ε α}
  {ok ok' : Config ι C R ε α S → Event ι C → Prop} {cfg cfg' cfg'' : Config ι C R ε α S}
  {evs evs' : List (Event ι C)} {i : ι}

theorem Run.trans (h : Run E prog ok cfg evs cfg') (h' : Run E prog ok cfg' evs' cfg'') :
    Run E prog ok cfg (evs ++ evs') cfg'' := by
  induction h' with
  | nil => rwa [List.append_nil]
  | snoc _ hok hs ih => rw [← List.append_assoc]; exact .snoc ih hok hs

structure Admitted (E E' : Env C R S) (ok : Config ι C R ε α S → Event ι C → Prop) (i : ι) :
    Prop where
  call : ∀ {cfg c r w}, E c cfg.world r w → E' c cfg.world r w ∧ ok cfg (.call i c)
  unroll : ∀ {cfg}, ok cfg (.unroll i)
  finish : ∀ {cfg}, ok cfg (.finish i)

omit [DecidableEq ι] in
theorem Admitted.refl : Admitted E E (fun _ _ => True : Config ι C R ε α S → _) i :=
  ⟨fun h => ⟨h, trivial⟩, trivial, trivial⟩

theorem Prog.Steps.run {p q : Prog C R ε α} {s t : S} (ha : Admitted E E' ok i)
    (h : Prog.Steps E p s q t) (hp : cfg.status i = .running p) (hw : cfg.world = s) :
    ∃ evs, Run E' prog ok cfg evs (cfg.set t i (.running q)) := by
  induction h generalizing cfg with
  | refl p s =>
    subst hw
    refine ⟨[], ?_⟩
    have he : cfg.set cfg.world i (.running p) = cfg := by
      unfold Config.set
      rw [← hp, Function.update_eq_self]
    rw [he]; exact .nil cfg
  | @head p p' q s t u c hs _ ih =>
    have key : ∀ e, ok cfg e → cfg.Step E' prog e (cfg.set t i (.running p')) →
        ∃ evs, Run E' prog ok cfg evs (cfg.set u i (.running q)) := by
      intro e hok he
      have hp' : (cfg.set t i (.running p')).status i = .running p' := Config.set_status_self ..
      obtain ⟨evs, hr⟩ := ih hp' rfl
      rw [Config.set_set] at hr
      exact ⟨_, (Run.snoc (.nil cfg) hok he).trans hr⟩
    subst hw
    cases hs with
    | call hE => exact key _ (ha.call hE).2 (.call hp (ha.call hE).1)
    | unroll => exact key _ ha.unroll (.unroll hp)

theorem Prog.Evals.finish {p : Prog C R ε α} {r : Except ε α} {s w : S}
    (ha : Admitted E E' ok i) (h : p.Evals E s r w) (hp : cfg.status i = .running p)
    (hw : cfg.world = s) :
    ∃ evs, Run E' prog ok cfg (evs ++ [.finish i]) (cfg.set w i (.finished r)) := by
  obtain ⟨evs, hrun⟩ : ∃ evs, Run E' prog ok _ evs _ := Prog.Steps.run ha h hp hw
  have hq : (cfg.set w i (.running (.ofExcept r))).status i = .running (.ofExcept r) :=
    Config.set_status_self ..
  have hfin : (cfg.set w i (.running (.ofExcept r))).Step E' prog (.finish i) _ := .finish hq
  rw [Config.set_set] at hfin
  exact ⟨_, hrun.snoc ha.finish hfin⟩

theorem Prog.Steps.invoke {p : Prog C R ε α} {s : S} (ha : Admitted E E' ok i)
    (h : (prog i).Steps E cfg.world p s) (hi : cfg.status i = .idle) (hok : ok cfg (.invoke i)) :
    ∃ evs, Run E' prog ok cfg ([.invoke i] ++ evs) (cfg.set s i (.running p)) := by
  have hinv : Run E' prog ok cfg [.invoke i] (cfg.set cfg.world i (.running (prog i))) :=
    .snoc (.nil cfg) hok (.invoke hi)
  have hp : (cfg.set cfg.world i (.running (prog i))).status i = .running (prog i) :=
    Config.set_status_self ..
  obtain ⟨evs, hrun⟩ : ∃ evs, Run E' prog ok _ evs _ := Prog.Steps.run ha h hp rfl
  rw [Config.set_set] at hrun
  exact ⟨evs, hinv.trans hrun⟩

theorem Prog.Evals.run {r : Except ε α} {w : S} (ha : Admitted E E' ok i)
    (h : (prog i).Evals E cfg.world r w) (hi : cfg.status i = .idle) (hok : ok cfg (.invoke i)) :
    ∃ evs, Run E' prog ok cfg ([.invoke i] ++ evs ++ [.finish i])
      (cfg.set w i (.finished r)) := by
  obtain ⟨evs, hrun⟩ : ∃ evs, Run E' prog ok cfg ([.invoke i] ++ evs) _ :=
    Prog.Steps.invoke ha h hi hok
  have hfin : (cfg.set w i (.running (.ofExcept r))).Step E' prog (.finish i) _ :=
    .finish (Config.set_status_self ..)
  rw [Config.set_set] at hfin
  exact ⟨evs, hrun.snoc ha.finish hfin⟩

theorem Run.call {Q : Except ε α → S → Prop} {s : S}
    (hrun : Run E prog (fun _ _ => True) cfg evs cfg') (i : ι) (hE : E.Total)
    (h : Wp E Q (prog i) s) (hi : cfg'.status i = .idle) (hw : cfg'.world = s) :
    ∃ evs' r w, Run E prog (fun _ _ => True) cfg evs' (cfg'.set w i (.finished r)) ∧ Q r w := by
  subst hw
  obtain ⟨r, w, hr, hQ⟩ := h.exists_evals hE
  obtain ⟨evs', hrun'⟩ := hr.run .refl hi trivial
  exact ⟨_, r, w, hrun.trans hrun', hQ⟩

/-- The call `j` is invoked and returns while the call `i` is running. -/
def Within (i j : ι) (evs : List (Event ι C)) : Prop :=
  [.invoke i, .invoke j, .finish j, .finish i].Sublist evs

omit [DecidableEq ι] in
theorem Within.append {j : ι} (h : Within i j evs') : Within i j (evs ++ evs') :=
  List.Sublist.trans h (List.sublist_append_right ..)

/-- A call can run from its start to its end between two steps of another one. -/
theorem exists_run_between (cfg : Config ι C R ε α S) {j : ι} (ha : ∀ i, Admitted E E' ok i) (hij : i ≠ j)
    (hi : cfg.status i = .idle) (hj : cfg.status j = .idle) {p : Prog C R ε α} {t u v : S}
    {r r' : Except ε α} (hoki : ok cfg (.invoke i))
    (hokj : ok (cfg.set t i (.running p)) (.invoke j)) (hs : (prog i).Steps E cfg.world p t)
    (hin : (prog j).Evals E t r u) (hend : p.Evals E u r' v) :
    ∃ evs cfg', Run E' prog ok cfg evs cfg' ∧ cfg'.status i = .finished r' ∧
      cfg'.status j = .finished r ∧ cfg'.world = v ∧ Within i j evs := by
  obtain ⟨evs₁, h₁⟩ : ∃ evs, Run E' prog ok cfg ([.invoke i] ++ evs) _ := hs.invoke (ha i) hi hoki
  have hj' : (cfg.set t i (.running p)).status j = .idle :=
    (Config.set_status_of_ne _ _ hij.symm _).trans hj
  obtain ⟨evs₂, h₂⟩ : ∃ evs, Run E' prog ok _ ([.invoke j] ++ evs ++ [.finish j]) _ :=
    hin.run (ha j) hj' hokj
  obtain ⟨evs₃, h₃⟩ : ∃ evs, Run E' prog ok _ (evs ++ [.finish i]) _ := hend.finish (ha i)
    ((Config.set_status_of_ne _ _ hij _).trans (Config.set_status_self ..)) rfl
  refine ⟨_, _, (h₁.trans h₂).trans h₃, Config.set_status_self .., ?_, rfl, ?_⟩
  · exact (Config.set_status_of_ne _ _ hij.symm _).trans (Config.set_status_self ..)
  · have hfirst : [Event.invoke i].Sublist ([Event.invoke i] ++ evs₁) :=
      List.sublist_append_left ..
    have hsecond : [Event.invoke j, .finish j].Sublist
        ([Event.invoke j] ++ evs₂ ++ [.finish j]) :=
      (List.sublist_append_left [Event.invoke j] evs₂).append (.refl _)
    exact (hfirst.append hsecond).append (List.sublist_append_right evs₃ [Event.finish i])

theorem Wp.exists_run_between (cfg : Config ι C R ε α S) {j : ι} (hE : E.Total) (hij : i ≠ j)
    (hi : cfg.status i = .idle) (hj : cfg.status j = .idle) {p : Prog C R ε α} {t : S}
    {Q : Except ε α → Except ε α → S → Prop}
    (h : Wp E (fun r u => Wp E (Q r) p u) (prog j) t) (hs : (prog i).Steps E cfg.world p t) :
    ∃ evs cfg' r r', Run E prog (fun _ _ => True) cfg evs cfg' ∧ cfg'.status i = .finished r' ∧
      cfg'.status j = .finished r ∧ Q r r' cfg'.world ∧ Within i j evs := by
  obtain ⟨r, u, hin, hrest⟩ := h.exists_evals hE
  obtain ⟨r', v, hend, hQ⟩ := hrest.exists_evals hE
  obtain ⟨evs, cfg', hrun, hi', hj', rfl, hwithin⟩ :=
    Interaction.exists_run_between cfg (fun _ => .refl) hij hi hj trivial trivial hs hin hend
  exact ⟨evs, cfg', r, r', hrun, hi', hj', hQ, hwithin⟩

/-- The state of a call is safe: a running program keeps its contract, a result its promise. -/
def Status.Safe (E : Env C R S) (K : Contract S) (Q : Except ε α → S → Prop) :
    Status C R ε α → S → Prop
  | .idle, _ => True
  | .running p, s => Interaction.Safe E K Q p s
  | .finished r, s => Q r s

/-- Contracts that fit together around an invariant of the world. `compat i j` says that the
calls `i` and `j` may run at the same time. -/
structure Composable (E E' : Env C R S) (prog : ι → Prog C R ε α)
    (ok : Config ι C R ε α S → Event ι C → Prop) (Inv : S → Prop) (K : ι → Contract S)
    (Q : ι → Except ε α → S → Prop) (compat : ι → ι → Prop) : Prop where
  env : ∀ {cfg i c r w}, ok cfg (.call i c) → E c cfg.world r w → E' c cfg.world r w
  start : ∀ {i s}, Inv s → Safe E' (K i) (Q i) (prog i) s
  admits : ∀ {cfg i j p}, ok cfg (.invoke i) → cfg.status j = .running p →
    compat i j ∧ compat j i
  inv : ∀ {i s t}, (K i).guar s t → Inv s → Inv t
  noninterference : ∀ {i j s t}, i ≠ j → compat i j → Inv s → (K i).guar s t → (K j).rely s t
  result : ∀ {i j r s t}, i ≠ j → Inv s → (K i).guar s t → Q j r s → Q j r t

/-- What holds of every configuration of a run of composable calls. -/
structure PoolSafe (E : Env C R S) (Inv : S → Prop) (K : ι → Contract S)
    (Q : ι → Except ε α → S → Prop) (compat : ι → ι → Prop) (cfg : Config ι C R ε α S) :
    Prop where
  inv : Inv cfg.world
  safe : ∀ i, (cfg.status i).Safe E (K i) (Q i) cfg.world
  apart : ∀ i j p q, i ≠ j → cfg.status i = .running p → cfg.status j = .running q → compat i j

variable {Inv : S → Prop} {K : ι → Contract S} {Q : ι → Except ε α → S → Prop}
  {compat : ι → ι → Prop}

omit [DecidableEq ι] in
theorem PoolSafe.start {w : S} (h : Inv w) :
    PoolSafe E Inv K Q compat (Config.start w : Config ι C R ε α S) :=
  ⟨h, fun _ => trivial, fun _ _ _ _ _ h => nomatch h⟩

theorem PoolSafe.move (hc : Composable E E' prog ok Inv K Q compat)
    (h : PoolSafe E' Inv K Q compat cfg) {p : Prog C R ε α} (hp : cfg.status i = .running p)
    {w : S} {st : Status C R ε α} (hg : (K i).guar cfg.world w)
    (hst : st.Safe E' (K i) (Q i) w) : PoolSafe E' Inv K Q compat (cfg.set w i st) := by
  refine ⟨hc.inv hg h.inv, fun j => ?_, fun j l q q' hjl hj hl => ?_⟩
  · by_cases hij : j = i
    · subst hij; rwa [Config.set_status_self]
    · rw [Config.set_status_of_ne _ _ hij]
      have hs := h.safe j
      cases hj : cfg.status j with
      | idle => trivial
      | running q =>
        rw [hj] at hs
        exact hs.stable (hc.noninterference (Ne.symm hij)
          (h.apart i j p q (Ne.symm hij) hp hj) h.inv hg)
      | finished r =>
        rw [hj] at hs
        exact hc.result (Ne.symm hij) h.inv hg hs
  · -- running calls were running before the move
    have back : ∀ a q, (cfg.set w i st).status a = .running q →
        ∃ q', cfg.status a = .running q' := by
      intro a q ha
      by_cases hai : a = i
      · subst hai; exact ⟨p, hp⟩
      · rw [Config.set_status_of_ne _ _ hai] at ha; exact ⟨q, ha⟩
    obtain ⟨_, hj⟩ := back j q hj
    obtain ⟨_, hl⟩ := back l q' hl
    exact h.apart j l _ _ hjl hj hl

theorem PoolSafe.step (hc : Composable E E' prog ok Inv K Q compat)
    (h : PoolSafe E' Inv K Q compat cfg) {e : Event ι C} (hok : ok cfg e)
    (hs : cfg.Step E prog e cfg') : PoolSafe E' Inv K Q compat cfg' := by
  cases hs with
  | @invoke i hi =>
    refine ⟨h.inv, fun j => ?_, fun j l q q' hjl hj hl => ?_⟩
    · by_cases hij : j = i
      · subst hij; rw [Config.set_status_self]; exact hc.start h.inv
      · rw [Config.set_status_of_ne _ _ hij]; exact h.safe j
    · by_cases hji : j = i
      · subst hji
        rw [Config.set_status_of_ne _ _ hjl.symm] at hl
        exact (hc.admits hok hl).1
      · rw [Config.set_status_of_ne _ _ hji] at hj
        by_cases hli : l = i
        · subst hli; exact (hc.admits hok hj).2
        · rw [Config.set_status_of_ne _ _ hli] at hl
          exact h.apart j l _ _ hjl hj hl
  | @call i c k r w hi hE =>
    have hsi := h.safe i
    rw [hi] at hsi
    obtain ⟨hg, hk⟩ := safe_call_iff.mp hsi _ ((K i).rely_refl _) r w (hc.env hok hE)
    exact h.move hc hi hg hk
  | @unroll i σ β body x k hi =>
    have hsi := h.safe i
    rw [hi] at hsi
    exact h.move hc hi ((K i).guar_refl _) (safe_loop_iff.mp hsi)
  | @finish i r hi =>
    have hsi := h.safe i
    rw [hi] at hsi
    refine h.move hc hi ((K i).guar_refl _) ?_
    cases r with
    | ok a => exact safe_pure_iff.mp hsi _ ((K i).rely_refl _)
    | error e => exact safe_throw_iff.mp hsi _ ((K i).rely_refl _)

/-- Composable calls keep the invariant and their contracts in every run. -/
theorem Run.poolSafe (hc : Composable E E' prog ok Inv K Q compat)
    (hr : Run E prog ok cfg evs cfg') (h : PoolSafe E' Inv K Q compat cfg) :
    PoolSafe E' Inv K Q compat cfg' := by
  induction hr with
  | nil => exact h
  | snoc _ hok hs ih => exact ih.step hc hok hs

theorem Run.invariant {w : S}
    (hsafe : ∀ i s, Inv s → Safe E (.keeping Inv) (fun _ _ => True) (prog i) s) (hw : Inv w)
    (hr : Run E prog ok (Config.start w) evs cfg) : Inv cfg.world := by
  have hc : Composable E E prog ok Inv (fun _ => .keeping Inv) (fun _ _ _ => True)
      (fun _ _ => True) := {
    env := fun _ hE => hE
    start := fun {i s} hs => hsafe i s hs
    admits := fun _ _ => ⟨trivial, trivial⟩
    inv := fun hg => hg
    noninterference := fun _ _ _ hg => hg
    result := fun _ _ _ _ => trivial }
  exact (hr.poolSafe hc (.start hw)).inv

end Interaction
