import Mathlib.Data.List.Nodup
import MongoSgx.Interaction.Pool

/-! # Linearizability of calls with one effective step

The world represents an abstract state. A call is linear when every step but one
leaves the represented state alone, and that one step applies the effect of the
result the call goes on to return. The order in which the effective steps happen
is a sequential order of the calls that respects real time.
-/

namespace Interaction

variable {C : Type} {R : C → Type} {ε S A α β ι : Type}

structure Frame (S : Type) where
  Keeps : S → S → Prop
  refl : ∀ s, Keeps s s
  trans : ∀ {s t u}, Keeps s t → Keeps t u → Keeps s u

def Frame.contract (F : Frame S) : Contract S := ⟨F.Keeps, F.Keeps, F.refl, F.trans, F.refl⟩

/-- Everyone respects the frame; neutral steps also keep the represented state. -/
def Contract.around (F : Frame S) (Rep : S → A → Prop) : Contract S where
  rely := F.Keeps
  guar s t := F.Keeps s t ∧ ∀ a, Rep s a → Rep t a
  rely_refl := F.refl
  rely_trans := F.trans
  guar_refl s := ⟨F.refl s, fun _ ha => ha⟩

/-- The step that applies the effect of a result. -/
def Commits (F : Frame S) (Rep : S → A → Prop) (eff : A → A) (s t : S) : Prop :=
  F.Keeps s t ∧ ∀ a, Rep s a → Rep t (eff a)

section Linear

variable (E : Env C R S) (F : Frame S) (Rep : S → A → Prop)
  (effect : Except ε α → A → A) (promise : Except ε α → Prop)

def LinearFor : ℕ → Prog C R ε α → S → Prop
  | 0, _, _ => True
  | _ + 1, .pure _, _ => False
  | _ + 1, .throw _, _ => False
  | n + 1, .call c k, s => ∀ t, F.Keeps s t → ∀ r u, E c t r u →
      ((Contract.around F Rep).guar t u ∧ LinearFor n (k r) u) ∨
      ∃ res, promise res ∧ Commits F Rep (effect res) t u ∧
        Safe E (Contract.around F Rep) (fun r' _ => r' = res) (k r) u
  | n + 1, .loop body x k, s => LinearFor n (Prog.unroll body k x) s

/-- The program has one effective step, which fixes a promised result. -/
def Linear (p : Prog C R ε α) (s : S) : Prop := ∀ n, LinearFor E F Rep effect promise n p s

end Linear

variable {E : Env C R S} {F : Frame S} {Rep : S → A → Prop}
  {effect : Except ε α → A → A} {promise : Except ε α → Prop} {s t : S}

theorem LinearFor.stable {n : ℕ} {p : Prog C R ε α}
    (h : LinearFor E F Rep effect promise n p s) (hst : F.Keeps s t) :
    LinearFor E F Rep effect promise n p t := by
  induction n generalizing p s with
  | zero => trivial
  | succ n ih =>
    cases p with
    | pure a => exact h
    | throw e => exact h
    | call c k => exact fun u hu => h u (F.trans hst hu)
    | loop body x k => exact ih (p := Prog.unroll body k x) h hst

theorem Linear.stable {p : Prog C R ε α} (h : Linear E F Rep effect promise p s)
    (hst : F.Keeps s t) : Linear E F Rep effect promise p t := fun n => (h n).stable hst

theorem linear_call_iff {c : C} {k : R c → Prog C R ε α} :
    Linear E F Rep effect promise (.call c k) s ↔
      ∀ t, F.Keeps s t → ∀ r u, E c t r u →
        ((Contract.around F Rep).guar t u ∧ Linear E F Rep effect promise (k r) u) ∨
        ∃ res, promise res ∧ Commits F Rep (effect res) t u ∧
          Safe E (Contract.around F Rep) (fun r' _ => r' = res) (k r) u := by
  constructor
  · intro h t ht r u hE
    by_cases hc : ∃ res, promise res ∧ Commits F Rep (effect res) t u ∧
        Safe E (Contract.around F Rep) (fun r' _ => r' = res) (k r) u
    · exact .inr hc
    · have hn : ∀ n, (Contract.around F Rep).guar t u ∧
          LinearFor E F Rep effect promise n (k r) u :=
        fun n => (h (n + 1) t ht r u hE).resolve_right hc
      exact .inl ⟨(hn 0).1, fun n => (hn n).2⟩
  · rintro h (_ | n)
    · trivial
    · intro t ht r u hE
      exact (h t ht r u hE).imp (fun ⟨hg, hk⟩ => ⟨hg, hk n⟩) id

section Rule

variable (E : Env C R S) (F : Frame S) (Rep : S → A → Prop)
  (effect : Except ε α → A → A) (promise : Except ε α → Prop)

/-- A call is neutral, or the effective step if there has been none. The state comes with the
result that the effective step has fixed. -/
def linearRule : CallRule C R (S × Option (Except ε α)) where
  pre c x Φ := ∀ t, F.Keeps x.1 t → ∀ r u, E c t r u →
    ((Contract.around F Rep).guar t u ∧ Φ r (u, x.2)) ∨
    x.2 = none ∧ ∃ res, promise res ∧ Commits F Rep (effect res) t u ∧ Φ r (u, some res)
  mono := by
    intro c x Φ Ψ h hΦ t ht r u hE
    rcases h t ht r u hE with ⟨hg, hr⟩ | ⟨hx, res, hres, hc, hr⟩
    · exact .inl ⟨hg, hΦ r _ hr⟩
    · exact .inr ⟨hx, res, hres, hc, hΦ r _ hr⟩

/-- The program is linear, or has had its effective step and goes on to the fixed result. -/
def LinearFrom (p : Prog C R ε α) : S × Option (Except ε α) → Prop
  | (s, none) => Linear E F Rep effect promise p s
  | (s, some res) => Safe E (Contract.around F Rep) (fun r _ => r = res) p s

end Rule

theorem sound_linear : (linearRule E F Rep effect promise).Sound
    (LinearFrom E F Rep effect promise) := by
  rintro c ⟨s, _ | res⟩ k h
  · refine linear_call_iff.mpr fun t ht r u hE => ?_
    exact (h t ht r u hE).imp id fun ⟨_, hc⟩ => hc
  · refine safe_call_iff.mpr fun t ht r u hE => ?_
    rcases h t ht r u hE with hk | ⟨hnone, -⟩
    · exact hk
    · cases hnone

theorem CallRule.Ends.linear {p : Prog C R ε α}
    (h : (linearRule E F Rep effect promise).Ends (fun r x => x.2 = some r) p (s, none)) :
    Linear E F Rep effect promise p s := by
  have hp : LinearFrom E F Rep effect promise p (s, none) := by
    apply h.judged sound_linear
    rintro r ⟨t, o⟩ ho
    obtain rfl : o = some r := ho
    exact safe_ofExcept_iff.mpr fun _ _ => rfl
  exact hp

theorem Linear.map {γ : Type} {effect : Except ε γ → A → A} {promise : Except ε γ → Prop}
    {p : Prog C R ε α} {f : α → γ}
    (h : Linear E F Rep (fun r => effect (r.map f)) (fun r => promise (r.map f)) p s) :
    Linear E F Rep effect promise (p.bind fun a => .pure (f a)) s := by
  intro n
  have hn := h n
  clear h
  induction n generalizing p s with
  | zero => trivial
  | succ n ih =>
    cases p with
    | pure a => exact hn.elim
    | throw e => exact hn.elim
    | call c k =>
      intro t ht r u hE
      rcases hn t ht r u hE with ⟨hg, hk⟩ | ⟨res, hres, hc, hk⟩
      · exact .inl ⟨hg, ih hk⟩
      · refine .inr ⟨res.map f, hres, hc, Safe.bind (hk.mono ?_)⟩
        rintro (e | a) u rfl
        · rfl
        · exact safe_pure_iff.mpr fun _ _ => rfl
    | loop body x k =>
      change LinearFor E F Rep effect promise n
        (Prog.unroll body (fun b => (k b).bind fun a => .pure (f a)) x) s
      rw [← Prog.unroll_bind]
      exact ih hn

def Precedes (evs : List (Event ι C)) (i j : ι) : Prop :=
  List.Sublist [Event.finish i, Event.invoke j] evs

theorem precedes_snoc {evs : List (Event ι C)} {e : Event ι C} {i j : ι}
    (h : Precedes (evs ++ [e]) i j) : Precedes evs i j ∨ (e = .invoke j ∧ .finish i ∈ evs) := by
  obtain ⟨l₁, l₂, hl, h₁, h₂⟩ := List.sublist_append_iff.mp h
  rcases List.sublist_singleton.mp h₂ with rfl | rfl
  · rw [List.append_nil] at hl
    subst hl
    exact .inl h₁
  · obtain ⟨rfl, rfl⟩ : l₁ = [.finish i] ∧ e = .invoke j := by
      have hl' : [Event.finish i] ++ [Event.invoke j] = l₁ ++ [e] := hl
      have := List.append_inj' hl' rfl
      simpa [eq_comm] using this
    exact .inr ⟨rfl, List.singleton_sublist.mp h₁⟩

section Pool

variable (effect : ι → Except ε α → A → A) (promise : ι → Except ε α → Prop)

/-- The abstract state after the calls of a sequential order, each with its result. -/
def replay (a : A) (order : List (ι × Except ε α)) : A :=
  order.foldl (fun a x => effect x.1 x.2 a) a

/-- Where a call of the pool stands that has taken effect with the given result. -/
def Status.Settled (E : Env C R S) (F : Frame S) (Rep : S → A → Prop) (res : Except ε α) :
    Status C R ε α → S → Prop
  | .idle, _ => False
  | .running p, s => Interaction.Safe E (Contract.around F Rep) (fun r _ => r = res) p s
  | .finished r, _ => r = res

/-- Where a call of the pool stands that has not taken effect yet. -/
def Status.Pending (E : Env C R S) (F : Frame S) (Rep : S → A → Prop)
    (effect : Except ε α → A → A) (promise : Except ε α → Prop) : Status C R ε α → S → Prop
  | .idle, _ => True
  | .running p, s => Linear E F Rep effect promise p s
  | .finished _, _ => False

/-- A sequential order of the calls that have taken effect explains the world and the events. -/
structure Linearized (E : Env C R S) (F : Frame S) (Rep : S → A → Prop) (w : S) (a : A)
    (evs : List (Event ι C)) (cfg : Config ι C R ε α S) (order : List (ι × Except ε α)) :
    Prop where
  reached : F.Keeps w cfg.world
  rep : Rep cfg.world (replay effect a order)
  nodup : (order.map Prod.fst).Nodup
  promised : ∀ x ∈ order, promise x.1 x.2
  settled : ∀ x ∈ order, (cfg.status x.1).Settled E F Rep x.2 cfg.world
  pending : ∀ i, i ∉ order.map Prod.fst →
    (cfg.status i).Pending E F Rep (effect i) (promise i) cfg.world
  finished : ∀ i, .finish i ∈ evs → ∃ r, cfg.status i = .finished r
  realtime : ∀ i j, Precedes evs i j → j ∈ order.map Prod.fst →
    List.Sublist [i, j] (order.map Prod.fst)

variable {effect promise} {w : S} {a : A} {evs : List (Event ι C)} {cfg cfg' : Config ι C R ε α S}
  {order : List (ι × Except ε α)}

theorem Linearized.mem_of_finished (h : Linearized effect promise E F Rep w a evs cfg order)
    {i : ι} {r : Except ε α} (hi : cfg.status i = .finished r) : (i, r) ∈ order := by
  by_contra hn
  by_cases hm : i ∈ order.map Prod.fst
  · obtain ⟨⟨j, r'⟩, hx, rfl⟩ := List.mem_map.mp hm
    have hs := h.settled _ hx
    simp only [hi, Status.Settled] at hs
    exact hn (hs ▸ hx)
  · have hp := h.pending i hm
    rw [hi] at hp
    exact hp

theorem Status.Settled.stable {res : Except ε α} {st : Status C R ε α}
    (h : st.Settled E F Rep res s) (hst : F.Keeps s t) : st.Settled E F Rep res t := by
  cases st with
  | idle => exact h
  | running p => exact Interaction.Safe.stable h hst
  | finished r => exact h

theorem Status.Pending.stable {effect : Except ε α → A → A} {promise : Except ε α → Prop}
    {st : Status C R ε α} (h : st.Pending E F Rep effect promise s) (hst : F.Keeps s t) :
    st.Pending E F Rep effect promise t := by
  cases st with
  | idle => trivial
  | running p => exact Linear.stable h hst
  | finished r => exact h

variable [DecidableEq ι]

omit [DecidableEq ι] in
theorem Linearized.realtime_snoc (h : Linearized effect promise E F Rep w a evs cfg order)
    {e : Event ι C} (he : ∀ j, e = .invoke j → j ∉ order.map Prod.fst) (i j : ι)
    (hp : Precedes (evs ++ [e]) i j) (hj : j ∈ order.map Prod.fst) :
    List.Sublist [i, j] (order.map Prod.fst) := by
  rcases precedes_snoc hp with hp | ⟨rfl, -⟩
  · exact h.realtime i j hp hj
  · exact absurd hj (he j rfl)

theorem Linearized.quiet (h : Linearized effect promise E F Rep w a evs cfg order) {e : Event ι C}
    {i : ι} {v : S} {st : Status C R ε α} (he : ∀ j, e = .invoke j → j ∉ order.map Prod.fst)
    (hfin : ∀ j, e = .finish j → j = i ∧ ∃ r, st = .finished r)
    (hrun : ∀ r, cfg.status i ≠ .finished r)
    (hg : (Contract.around F Rep).guar cfg.world v)
    (hset : ∀ res, (i, res) ∈ order → st.Settled E F Rep res v)
    (hpen : i ∉ order.map Prod.fst → st.Pending E F Rep (effect i) (promise i) v) :
    Linearized effect promise E F Rep w a (evs ++ [e]) (cfg.set v i st) order where
  reached := F.trans h.reached hg.1
  rep := hg.2 _ h.rep
  nodup := h.nodup
  promised := h.promised
  settled := by
    rintro ⟨j, res⟩ hx
    by_cases hij : j = i
    · subst hij; rw [Config.set_status_self]; exact hset res hx
    · rw [Config.set_status_of_ne _ _ hij]
      exact (h.settled _ hx).stable hg.1
  pending := by
    intro j hj
    by_cases hij : j = i
    · subst hij; rw [Config.set_status_self]; exact hpen hj
    · rw [Config.set_status_of_ne _ _ hij]
      exact (h.pending j hj).stable hg.1
  finished := by
    intro j hj
    rcases List.mem_append.mp hj with hj | hj
    · have hne : j ≠ i := by
        rintro rfl
        obtain ⟨r, hr⟩ := h.finished j hj
        exact hrun r hr
      rw [Config.set_status_of_ne _ _ hne]; exact h.finished j hj
    · obtain ⟨rfl, r, rfl⟩ := hfin j (List.mem_singleton.mp hj).symm
      exact ⟨r, Config.set_status_self ..⟩
  realtime := fun i j => h.realtime_snoc he i j

/-- The effective step of a call puts it at the end of the order. -/
theorem Linearized.commit (h : Linearized effect promise E F Rep w a evs cfg order) {i : ι}
    {c : C} {k : R c → Prog C R ε α} {p : Prog C R ε α} {v : S} {res : Except ε α}
    (hi : cfg.status i = .running (.call c k)) (hni : i ∉ order.map Prod.fst)
    (hres : promise i res) (hc : Commits F Rep (effect i res) cfg.world v)
    (hs : Safe E (Contract.around F Rep) (fun r' _ => r' = res) p v) :
    Linearized effect promise E F Rep w a (evs ++ [.call i c]) (cfg.set v i (.running p))
      (order ++ [(i, res)]) where
  reached := F.trans h.reached hc.1
  rep := by
    have := hc.2 _ h.rep
    simpa [replay] using this
  nodup := by
    rw [List.map_append, List.map_singleton, ← List.concat_eq_append, List.nodup_concat]
    exact ⟨hni, h.nodup⟩
  promised := by
    intro x hx
    rcases List.mem_append.mp hx with hx | hx
    · exact h.promised x hx
    · rw [List.mem_singleton.mp hx]; exact hres
  settled := by
    rintro ⟨j, res'⟩ hx
    rcases List.mem_append.mp hx with hx | hx
    · have hne : j ≠ i := fun hj => hni (hj ▸ List.mem_map_of_mem hx)
      rw [Config.set_status_of_ne _ _ hne]
      exact (h.settled _ hx).stable hc.1
    · obtain ⟨rfl, rfl⟩ := Prod.mk.inj (List.mem_singleton.mp hx)
      rw [Config.set_status_self]; exact hs
  pending := by
    intro j hj
    rw [List.map_append, List.mem_append, not_or] at hj
    have hne : j ≠ i := by simpa using hj.2
    rw [Config.set_status_of_ne _ _ hne]
    exact (h.pending j hj.1).stable hc.1
  finished := by
    intro j hj
    replace hj : .finish j ∈ evs := by simpa using hj
    have hne : j ≠ i := by
      rintro rfl
      obtain ⟨r, hr⟩ := h.finished j hj
      rw [hi] at hr; cases hr
    rw [Config.set_status_of_ne _ _ hne]; exact h.finished j hj
  realtime := by
    intro l j hp hj
    replace hp : Precedes evs l j := by
      rcases precedes_snoc hp with hp | ⟨he, -⟩
      · exact hp
      · cases he
    rw [List.map_append, List.map_singleton] at hj ⊢
    rcases List.mem_append.mp hj with hj | hj
    · exact (h.realtime l j hp hj).trans (List.sublist_append_left ..)
    · obtain rfl := List.mem_singleton.mp hj
      -- a call that returned before this one was invoked is already in the order
      obtain ⟨r, hr⟩ := h.finished l (List.Sublist.subset hp (List.mem_cons_self ..))
      have hl := List.mem_map_of_mem (f := Prod.fst) (h.mem_of_finished hr)
      exact (List.singleton_sublist.mpr hl).append (List.Sublist.refl [j])

variable {prog : ι → Prog C R ε α} {ok : Config ι C R ε α S → Event ι C → Prop}

theorem Linearized.step
    (hlin : ∀ i, Linear E F Rep (effect i) (promise i) (prog i) w)
    (h : Linearized effect promise E F Rep w a evs cfg order) {e : Event ι C}
    (hs : cfg.Step E prog e cfg') :
    ∃ order', Linearized effect promise E F Rep w a (evs ++ [e]) cfg' order' := by
  cases hs with
  | @invoke i hi =>
    have hni : i ∉ order.map Prod.fst := by
      intro hm
      obtain ⟨⟨j, r⟩, hx, rfl⟩ := List.mem_map.mp hm
      have := h.settled _ hx
      rw [hi] at this; exact this
    refine ⟨order, h.quiet (fun j hj => ?_) (fun j hj => by cases hj) (fun r => by rw [hi]; nofun)
      ((Contract.around F Rep).guar_refl _) (fun res hx => absurd (List.mem_map_of_mem hx) hni)
      (fun _ => (hlin i).stable h.reached)⟩
    cases hj; exact hni
  | @call i c k r v hi hE =>
    by_cases hm : i ∈ order.map Prod.fst
    · obtain ⟨⟨j, res⟩, hx, rfl⟩ := List.mem_map.mp hm
      have hset := h.settled _ hx
      simp only [hi] at hset
      obtain ⟨hg, hk⟩ := safe_call_iff.mp hset _ ((Contract.around F Rep).rely_refl _) r v hE
      refine ⟨order, h.quiet (fun j hj => by cases hj) (fun j hj => by cases hj)
        (fun r => by simp only [hi]; nofun) hg (fun res' hx' => ?_) (fun hn => absurd hm hn)⟩
      have hset' := h.settled _ hx'
      simp only [hi] at hset'
      exact (safe_call_iff.mp hset' _ ((Contract.around F Rep).rely_refl _) r v hE).2
    · have hpen := h.pending i hm
      simp only [hi] at hpen
      rcases linear_call_iff.mp hpen _ (F.refl _) r v hE with ⟨hg, hk⟩ | ⟨res, hres, hc, hk⟩
      · exact ⟨order, h.quiet (fun j hj => by cases hj) (fun j hj => by cases hj)
          (fun r => by rw [hi]; nofun) hg (fun res hx => absurd (List.mem_map_of_mem hx) hm)
          (fun _ => hk)⟩
      · exact ⟨order ++ [(i, res)], h.commit hi hm hres hc hk⟩
  | @unroll i σ β body x k hi =>
    refine ⟨order, h.quiet (fun j hj => by cases hj) (fun j hj => by cases hj)
      (fun r => by rw [hi]; nofun) ((Contract.around F Rep).guar_refl _) (fun res hx => ?_)
      (fun hn => ?_)⟩
    · have hset := h.settled _ hx
      simp only [hi] at hset
      exact safe_loop_iff.mp hset
    · have hpen := h.pending i hn
      simp only [hi] at hpen
      exact fun n => hpen (n + 1)
  | @finish i r hi =>
    have hm : i ∈ order.map Prod.fst := by
      by_contra hn
      have hpen := h.pending i hn
      rw [hi] at hpen
      cases r <;> exact hpen 1
    refine ⟨order, h.quiet (fun j hj => by cases hj) (fun j hj => ?_)
      (fun r => by rw [hi]; nofun) ((Contract.around F Rep).guar_refl _) (fun res hx => ?_)
      (fun hn => absurd hm hn)⟩
    · cases hj; exact ⟨rfl, r, rfl⟩
    · have hset := h.settled _ hx
      simp only [hi] at hset
      cases r with
      | ok a => exact safe_pure_iff.mp hset _ ((Contract.around F Rep).rely_refl _)
      | error e => exact safe_throw_iff.mp hset _ ((Contract.around F Rep).rely_refl _)

/-- Every run of linear calls from a represented state is linearized by some order. -/
theorem Run.linearized
    (hlin : ∀ i, Linear E F Rep (effect i) (promise i) (prog i) w) (ha : Rep w a)
    (hr : Run E prog ok (Config.start w) evs cfg) :
    ∃ order, Linearized effect promise E F Rep w a evs cfg order := by
  generalize hc : (Config.start w : Config ι C R ε α S) = cfg₀ at hr
  induction hr with
  | nil =>
    subst hc
    exact ⟨[], F.refl w, ha, List.nodup_nil, by simp, by simp, fun _ _ => trivial, by simp, by simp⟩
  | snoc _ _ hs ih =>
    obtain ⟨order, h⟩ := ih
    exact h.step hlin hs

end Pool

end Interaction
