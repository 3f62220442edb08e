import Mathlib.Data.List.Chain
import MongoSgx.Interaction.Pool
import MongoSgx.Interaction.Transcript

/-! # Histories of interleaved calls

A history is a run of a pool with the calls made in it, each with its client, its
reply and the worlds around it. The calls of one client are a transcript of its
program, so what is known of the transcripts of a program holds in every history;
and the worlds form a chain, so whatever differs between two calls was changed by
a call between them.
-/

namespace Interaction

variable {C : Type} {R : C → Type} {ε S α β σ ι : Type}

structure Move (ι C : Type) (R : C → Type) (S : Type) where
  client : ι
  line : Exchange C R
  before : S
  after : S

def Event.call? : Event ι C → Option C
  | .call _ c => some c
  | _ => none

variable [DecidableEq ι]

inductive History (E : Env C R S) (prog : ι → Prog C R ε α) :
    Config ι C R ε α S → List (Move ι C R S) → Config ι C R ε α S → Prop
  | nil (cfg : Config ι C R ε α S) : History E prog cfg [] cfg
  | call {cfg cfg' : Config ι C R ε α S} {ms : List (Move ι C R S)} {i : ι} {c : C}
      {k : R c → Prog C R ε α} {r : R c} {w : S} (h : History E prog cfg ms cfg')
      (hi : cfg'.status i = .running (.call c k)) (hE : E c cfg'.world r w) :
      History E prog cfg (ms ++ [⟨i, ⟨c, r⟩, cfg'.world, w⟩]) (cfg'.set w i (.running (k r)))
  | quiet {cfg cfg' cfg'' : Config ι C R ε α S} {ms : List (Move ι C R S)} {e : Event ι C}
      (h : History E prog cfg ms cfg') (hs : cfg'.Step E prog e cfg'') (he : e.call? = none) :
      History E prog cfg ms cfg''

def callsOf (i : ι) (ms : List (Move ι C R S)) : List (Exchange C R) :=
  (ms.filter fun m => m.client = i).map Move.line

variable {E : Env C R S} {prog : ι → Prog C R ε α} {cfg cfg' cfg'' : Config ι C R ε α S}
  {ms ns : List (Move ι C R S)} {i j : ι} {evs : List (Event ι C)}
  {allowed : Exchange C R → Prop}

section Runs

theorem Config.Step.world_eq {e : Event ι C} (hs : cfg.Step E prog e cfg') (he : e.call? = none) :
    cfg'.world = cfg.world := by
  cases hs with
  | call => cases he
  | invoke => rfl
  | unroll => rfl
  | finish => rfl

theorem History.trans (h : History E prog cfg ms cfg') (h' : History E prog cfg' ns cfg'') :
    History E prog cfg (ms ++ ns) cfg'' := by
  induction h' with
  | nil => rwa [List.append_nil]
  | call _ hi hE ih =>
    rw [← List.append_assoc]
    exact ih.call hi hE
  | quiet _ hs he ih => exact ih.quiet hs he

end Runs

section Worlds

theorem History.env (h : History E prog cfg ms cfg') {m : Move ι C R S} (hm : m ∈ ms) :
    E m.line.call m.before m.line.reply m.after := by
  induction h with
  | nil => cases hm
  | call _ _ hE ih =>
    rcases List.mem_append.mp hm with hm | hm
    · exact ih hm
    · rw [List.mem_singleton.mp hm]
      exact hE
  | quiet _ _ _ ih => exact ih hm

theorem History.last (h : History E prog cfg ms cfg') :
    ms = [] ∧ cfg'.world = cfg.world ∨ ∃ m, ms.getLast? = some m ∧ cfg'.world = m.after := by
  induction h with
  | nil => exact .inl ⟨rfl, rfl⟩
  | call _ _ _ _ => exact .inr ⟨_, List.getLast?_concat, rfl⟩
  | quiet _ hs he ih =>
    rw [hs.world_eq he]
    exact ih

theorem History.invariant {Inv : S → Prop} (h : History E prog cfg ms cfg') (hw : Inv cfg.world)
    (hinv : ∀ m ∈ ms, Inv m.before → Inv m.after) :
    (∀ m ∈ ms, Inv m.before) ∧ Inv cfg'.world := by
  induction h with
  | nil => exact ⟨nofun, hw⟩
  | @call cfg' ms i c k r w h _ hE ih =>
    obtain ⟨hms, hworld⟩ := ih fun m hm => hinv m (List.mem_append_left _ hm)
    constructor
    · intro m hm
      rcases List.mem_append.mp hm with hm | hm
      · exact hms m hm
      · rw [List.mem_singleton.mp hm]
        exact hworld
    · exact hinv _ (List.mem_append_right _ (List.mem_singleton_self _)) hworld
  | quiet _ hs he ih =>
    rw [hs.world_eq he]
    exact ih hinv

theorem History.chain (h : History E prog cfg ms cfg') :
    ms.IsChain fun m n => n.before = m.after := by
  induction h with
  | nil => exact .nil
  | call h _ _ ih =>
    apply ih.append (.singleton _)
    intro m hm n hn
    obtain rfl := Option.some.inj hn
    rcases h.last with ⟨rfl, -⟩ | ⟨m', hm', hw⟩
    · cases hm
    · obtain rfl : m' = m := Option.some.inj (hm'.symm.trans hm)
      exact hw
  | quiet _ _ _ ih => exact ih

omit [DecidableEq ι] in
/-- What holds after a call and no more before a later one was changed by a call between. -/
theorem exists_change {Q : S → Prop} {m n : Move ι C R S} :
    ∀ {l : List (Move ι C R S)}, (m :: l ++ [n]).IsChain (fun m n => n.before = m.after) →
      Q m.after → ¬ Q n.before → ∃ x ∈ l, Q x.before ∧ ¬ Q x.after
  | [], hc, hm, hn => by
      have he : n.before = m.after := by simpa using hc
      exact absurd (he ▸ hm) hn
  | x :: l, hc, hm, hn => by
      have hc' : x.before = m.after ∧ (x :: l ++ [n]).IsChain fun m n => n.before = m.after := by
        simpa using hc
      by_cases hx : Q x.after
      · obtain ⟨y, hy, h⟩ := exists_change hc'.2 hx hn
        exact ⟨y, List.mem_cons_of_mem _ hy, h⟩
      · exact ⟨x, List.mem_cons_self .., hc'.1 ▸ hm, hx⟩

end Worlds

section Transcripts

theorem callsOf_append : callsOf i (ms ++ ns) = callsOf i ms ++ callsOf i ns := by
  simp [callsOf]

theorem callsOf_self {m : Move ι C R S} (h : m.client = i) : callsOf i [m] = [m.line] := by
  simp [callsOf, h]

theorem callsOf_of_ne {m : Move ι C R S} (h : m.client ≠ i) : callsOf i [m] = [] := by
  simp [callsOf, h]

theorem exists_callsOf_eq {m n : Move ι C R S}
    (h : [m, n].Sublist (ms.filter fun m => m.client = i)) :
    ∃ l l', callsOf i ms = l ++ n.line :: l' ∧ m.line ∈ l := by
  obtain ⟨l₁, l₂, hl, hm, hn⟩ := List.cons_sublist_iff.mp h
  obtain ⟨l₃, l₄, rfl⟩ := List.append_of_mem (List.singleton_sublist.mp hn)
  refine ⟨(l₁ ++ l₃).map Move.line, l₄.map Move.line, ?_, ?_⟩
  · simp [callsOf, hl]
  · exact List.mem_map_of_mem (List.mem_append_left _ hm)

theorem mem_callsOf {x : Exchange C R} :
    x ∈ callsOf i ms ↔ ∃ m ∈ ms, m.client = i ∧ m.line = x := by
  simp [callsOf, and_assoc]

theorem exists_moves {xs : List (Exchange C R)} (h : xs.Sublist (callsOf i ms)) :
    ∃ ns : List (Move ι C R S), ns.Sublist ms ∧ ns.map Move.line = xs ∧ ∀ m ∈ ns, m.client = i := by
  obtain ⟨ns, hns, rfl⟩ := List.sublist_map_iff.mp h
  refine ⟨ns, hns.trans List.filter_sublist, rfl, fun m hm => ?_⟩
  simpa using (List.mem_filter.mp (hns.subset hm)).2

def Status.Recorded (allowed : Exchange C R → Prop) (p : Prog C R ε α)
    (log : List (Exchange C R)) : Status C R ε α → Prop
  | .idle => log = []
  | .running q => p.Steps (Recording allowed) [] q log
  | .finished r => p.Evals (Recording allowed) [] r log

omit [DecidableEq ι] in
theorem Prog.Steps.snoc {p q q' : Prog C R ε α} {s t u : S} {c : Option C} (h : p.Steps E s q t)
    (hs : Prog.Step E q t c q' u) : p.Steps E s q' u := h.trans (.head hs (.refl _ _))

theorem History.recorded {w : S} (h : History E prog (.start w) ms cfg)
    (hE : ∀ c s r s', E c s r s' → allowed ⟨c, r⟩) (i : ι) :
    (cfg.status i).Recorded allowed (prog i) (callsOf i ms) := by
  generalize hstart : Config.start w = cfg₀ at h
  induction h with
  | nil =>
    subst hstart
    rfl
  | @call cfg' ms j c k r w' _ hj hcall ih =>
    rw [callsOf_append]
    by_cases hij : j = i
    · subst hij
      rw [hj] at ih
      rw [Config.set_status_self, callsOf_self (m := ⟨j, ⟨c, r⟩, cfg'.world, w'⟩) rfl]
      exact Prog.Steps.snoc ih (.call ⟨hE _ _ _ _ hcall, rfl⟩)
    · rw [Config.set_status_of_ne _ _ (Ne.symm hij),
        callsOf_of_ne (m := ⟨j, ⟨c, r⟩, cfg'.world, w'⟩) hij, List.append_nil]
      exact ih
  | @quiet cfg' cfg'' ms e h hs he ih =>
    cases hs with
    | call => cases he
    | @invoke j hj =>
      by_cases hij : j = i
      · subst hij
        rw [hj] at ih
        rw [Config.set_status_self]
        change (prog j).Steps _ _ _ _
        rw [show callsOf j ms = [] from ih]
        exact .refl _ _
      · rwa [Config.set_status_of_ne _ _ (Ne.symm hij)]
    | @unroll j σ β body x k hj =>
      by_cases hij : j = i
      · subst hij
        rw [hj] at ih
        rw [Config.set_status_self]
        exact Prog.Steps.snoc ih .unroll
      · rwa [Config.set_status_of_ne _ _ (Ne.symm hij)]
    | @finish j r hj =>
      by_cases hij : j = i
      · subst hij
        rw [hj] at ih
        rw [Config.set_status_self]
        exact ih
      · rwa [Config.set_status_of_ne _ _ (Ne.symm hij)]

variable {G : List (Exchange C R) → Exchange C R → Prop}
  {Q : Except ε α → List (Exchange C R) → Prop} {w : S}

/-- What is known of the transcripts of a program holds of its calls in every history. -/
theorem History.of_records (h : History E prog (.start w) ms cfg)
    (hE : ∀ c s r s', E c s r s' → allowed ⟨c, r⟩) (hi : Records allowed G Q (prog i) []) :
    (∀ l x l', callsOf i ms = l ++ x :: l' → G l x) ∧
    ∀ r, cfg.status i = .finished r → Q r (callsOf i ms) := by
  have hrec := h.recorded hE i
  constructor
  · have key : ∀ p, (prog i).Steps (Recording allowed) [] p (callsOf i ms) →
        ∀ l x l', callsOf i ms = l ++ x :: l' → G l x := by
      intro p hp
      obtain ⟨xs, hxs, hG⟩ := hi.of_log hp
      simp only [List.nil_append] at hxs hG
      rwa [hxs]
    cases hst : cfg.status i with
    | idle =>
      rw [hst] at hrec
      rw [show callsOf i ms = [] from hrec]
      simp
    | running p =>
      rw [hst] at hrec
      exact key p hrec
    | finished r =>
      rw [hst] at hrec
      exact key _ hrec
  · intro r hr
    rw [hr] at hrec
    exact hi.of_evals hrec

end Transcripts

section Building

/-- The program can come to a point with the property. -/
def Prog.Reaches (E : Env C R S) (T : Prog C R ε α → S → Prop) (p : Prog C R ε α) (s : S) : Prop :=
  ∃ q t, p.Steps E s q t ∧ T q t

omit [DecidableEq ι] in
theorem Prog.Reaches.here {T : Prog C R ε α → S → Prop} {p : Prog C R ε α} {s : S} (h : T p s) :
    p.Reaches E T s := ⟨p, s, .refl _ _, h⟩

omit [DecidableEq ι] in
theorem Prog.Reaches.call {T : Prog C R ε α → S → Prop} {c : C} {k : R c → Prog C R ε α} {s s' : S}
    {r : R c} (hE : E c s r s') (h : (k r).Reaches E T s') : (Prog.call c k).Reaches E T s := by
  obtain ⟨q, t, hs, hT⟩ := h
  exact ⟨q, t, .head (.call hE) hs, hT⟩

/-- The calls are made for the client, and answered by the environment. -/
def CallsOf (E : Env C R S) (i : ι) (ms : List (Move ι C R S)) : Prop :=
  ∀ m ∈ ms, m.client = i ∧ E m.line.call m.before m.line.reply m.after

omit [DecidableEq ι] in
theorem CallsOf.append (h : CallsOf E i ms) (h' : CallsOf E i ns) : CallsOf E i (ms ++ ns) := by
  intro m hm
  rcases List.mem_append.mp hm with hm | hm
  · exact h m hm
  · exact h' m hm

theorem Prog.Steps.history {E' : Env C R S} {p q : Prog C R ε α} {s t : S}
    (hE : ∀ c s r s', E c s r s' → E' c s r s') (h : p.Steps E s q t)
    (hp : cfg.status i = .running p) (hw : cfg.world = s) :
    ∃ ms, History E' prog cfg ms (cfg.set t i (.running q)) ∧ CallsOf E i ms := by
  induction h generalizing cfg with
  | refl p s =>
    have hcfg : cfg.set s i (.running p) = cfg := by
      unfold Config.set
      rw [← hp, ← hw, Function.update_eq_self]
    exact ⟨[], hcfg.symm ▸ .nil cfg, nofun⟩
  | @head p p' q s t u c hstep _ ih =>
    subst hw
    have hp' : (cfg.set t i (.running p')).status i = .running p' := Config.set_status_self ..
    obtain ⟨ms, hms, hcalls⟩ := ih hp' rfl
    rw [Config.set_set] at hms
    cases hstep with
    | call hcall =>
      refine ⟨_, ((History.nil cfg).call hp (hE _ _ _ _ hcall)).trans hms, CallsOf.append ?_ hcalls⟩
      intro m hm
      rw [List.mem_singleton.mp hm]
      exact ⟨rfl, hcall⟩
    | unroll => exact ⟨_, ((History.nil cfg).quiet (.unroll hp) rfl).trans hms, hcalls⟩

theorem Prog.Evals.history {p : Prog C R ε α} {r : Except ε α} {s t : S} (h : p.Evals E s r t)
    (hp : cfg.status i = .running p) (hw : cfg.world = s) :
    ∃ ms, History E prog cfg ms (cfg.set t i (.finished r)) ∧ CallsOf E i ms := by
  obtain ⟨ms, hms, hcalls⟩ : ∃ ms, History E prog cfg ms _ ∧ CallsOf E i ms :=
    Prog.Steps.history (fun _ _ _ _ h => h) h hp hw
  have hfinish := hms.quiet (.finish (Config.set_status_self ..)) rfl
  rw [Config.set_set] at hfinish
  exact ⟨ms, hfinish, hcalls⟩

theorem History.invoke (h : History E prog cfg ms cfg') (hi : cfg'.status i = .idle) :
    History E prog cfg ms (cfg'.set cfg'.world i (.running (prog i))) :=
  h.quiet (.invoke hi) rfl

theorem History.complete {r : Except ε α} {t : S} (h : History E prog cfg ms cfg')
    (hi : cfg'.status i = .idle) (hr : (prog i).Evals E cfg'.world r t) :
    ∃ ns, History E prog cfg (ms ++ ns) (cfg'.set t i (.finished r)) ∧ CallsOf E i ns := by
  obtain ⟨ns, hns, hcalls⟩ : ∃ ns, History E prog
      (cfg'.set cfg'.world i (.running (prog i))) ns _ ∧ CallsOf E i ns :=
    hr.history (Config.set_status_self ..) rfl
  rw [Config.set_set] at hns
  exact ⟨ns, (h.invoke hi).trans hns, hcalls⟩

end Building

end Interaction
