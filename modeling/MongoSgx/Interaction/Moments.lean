import Mathlib.Data.Set.Insert
import MongoSgx.Interaction.Refinement
import MongoSgx.Interaction.Views

/-! # The moments of a call

What a program sees of the world and does to it, it sees and does at its own calls.
Each call shows something of the worlds around it. Collected as a ghost beside the
world, these moments let the rules of safety say of what moments a result is true.
-/

namespace Interaction

variable {C : Type} {R : C → Type} {ε S T X α β ι : Type}

abbrev Shows (C : Type) (R : C → Type) (S X : Type) := (c : C) → S → R c → S → Set X

def aroundCall : Shows C R S (C × S × S) := fun c s _ t => {(c, s, t)}

/-- The environment of a program with what its calls have shown. -/
def Env.traced (E : Env C R S) (shows : Shows C R S X) : Env C R (S × Set X) :=
  fun c x r y => E c x.1 r y.1 ∧ y.2 = x.2 ∪ shows c x.1 r y.1

def Contract.traced (K : Contract S) (X : Type) : Contract (S × Set X) where
  rely x y := K.rely x.1 y.1 ∧ y.2 = x.2
  guar x y := K.guar x.1 y.1
  rely_refl x := ⟨K.rely_refl x.1, rfl⟩
  rely_trans h h' := ⟨K.rely_trans h.1 h'.1, h'.2.trans h.2⟩
  guar_refl x := K.guar_refl x.1

/-- The program keeps its contract, and its result, the world and the moments of its calls satisfy
the postcondition; those in `M` lie behind it. -/
def Traced (E : Env C R S) (K : Contract S) (shows : Shows C R S X)
    (Q : Except ε α → S → Set X → Prop) (p : Prog C R ε α) (s : S) (M : Set X) : Prop :=
  Safe (E.traced shows) (K.traced X) (fun r x => Q r x.1 x.2) p (s, M)

section Rules

variable {E : Env C R S} {K : Contract S} {shows : Shows C R S X}
  {Q Q' : Except ε α → S → Set X → Prop} {p : Prog C R ε α} {s t : S} {M M' : Set X}

theorem traced_pure_iff {a : α} :
    Traced E K shows Q (.pure a) s M ↔ ∀ t, K.rely s t → Q (.ok a) t M := by
  constructor
  · exact fun h t ht => safe_pure_iff.mp h (t, M) ⟨ht, rfl⟩
  · rintro h
    apply safe_pure_iff.mpr
    rintro ⟨t, _⟩ ⟨ht, rfl⟩
    exact h t ht

theorem traced_throw_iff {e : ε} :
    Traced E K shows Q (.throw e) s M ↔ ∀ t, K.rely s t → Q (.error e) t M := by
  constructor
  · exact fun h t ht => safe_throw_iff.mp h (t, M) ⟨ht, rfl⟩
  · rintro h
    apply safe_throw_iff.mpr
    rintro ⟨t, _⟩ ⟨ht, rfl⟩
    exact h t ht

theorem traced_call_iff {c : C} {k : R c → Prog C R ε α} :
    Traced E K shows Q (.call c k) s M ↔ ∀ t, K.rely s t → ∀ r u, E c t r u →
      K.guar t u ∧ Traced E K shows Q (k r) u (M ∪ shows c t r u) := by
  constructor
  · exact fun h t ht r u hE => safe_call_iff.mp h (t, M) ⟨ht, rfl⟩ r (u, _) ⟨hE, rfl⟩
  · intro h
    apply safe_call_iff.mpr
    rintro ⟨t, N⟩ ⟨ht, hN⟩ r ⟨u, N'⟩ ⟨hE, hN'⟩
    obtain rfl : N = M := hN
    obtain rfl : N' = N ∪ shows c t r u := hN'
    exact h t ht r u hE

def thenTraced (E : Env C R S) (K : Contract S) (shows : Shows C R S X)
    (Q : Except ε β → S → Set X → Prop) (f : α → Prog C R ε β) : Except ε α → S → Set X → Prop
  | .ok a, s, M => Traced E K shows Q (f a) s M
  | .error e, s, M => Q (.error e) s M

theorem Traced.mono (h : Traced E K shows Q p s M) (hQ : ∀ r t M, Q r t M → Q' r t M) :
    Traced E K shows Q' p s M := Safe.mono h fun _ _ => hQ _ _ _

theorem Traced.bind {Q : Except ε β → S → Set X → Prop} {f : α → Prog C R ε β}
    (h : Traced E K shows (thenTraced E K shows Q f) p s M) :
    Traced E K shows Q (p.bind f) s M := by
  apply Safe.bind
  apply Safe.mono h
  rintro (e | a) ⟨t, M⟩ ha
  · exact ha
  · exact ha

/-- Among calls that keep an invariant, a system that answers from some state with the invariant
shows at least what that state does. -/
theorem Traced.viewed {F : Env C R T} {shows' : Shows C R T X} {Inv : S → Prop} {J : T → Prop}
    {Q : Except ε α → Set X → Prop} {x : T}
    (hcall : ∀ c x r y, J x → F c x r y → ∃ s t, Inv s ∧ E c s r t ∧
      shows c s r t ⊆ shows' c x r y ∧ (Inv t → J y))
    (hQ : ∀ r M M', M ⊆ M' → Q r M → Q r M')
    (h : Traced E (.keeping Inv) shows (fun r _ M => Q r M) p s M) (hs : Inv s) (hx : J x) :
    Traced F (.keeping J) shows' (fun r _ M => Q r M) p x M := by
  have hviews : Views (E.traced shows) ((Contract.keeping Inv).traced X) (F.traced shows')
      ((Contract.keeping J).traced X) (fun x y => J x.1 ∧ Inv y.1 ∧ y.2 ⊆ x.2) := {
    stable := by
      rintro ⟨x, N'⟩ ⟨y, _⟩ ⟨s, N⟩ ⟨hx, hs, hN⟩ ⟨hy, rfl⟩
      exact ⟨(s, N), ⟨id, rfl⟩, hy hx, hs, hN⟩
    call := by
      rintro ⟨x, N'⟩ ⟨y, L⟩ ⟨s, N⟩ c r ⟨hx, -, hN⟩ ⟨hF, hL⟩
      obtain rfl : L = N' ∪ shows' c x r y := hL
      obtain ⟨t, u, ht, hE, hshow, hy⟩ := hcall c x r y hx hF
      exact ⟨(t, N), (u, N ∪ shows c t r u), ⟨fun _ => ht, rfl⟩, ⟨hE, rfl⟩, fun hg =>
        ⟨fun _ => hy (hg ht), hy (hg ht), hg ht, Set.union_subset_union hN hshow⟩⟩ }
  refine hviews.safe ?_ h ⟨hx, hs, Set.Subset.refl M⟩
  rintro r ⟨x, N'⟩ ⟨s, N⟩ ⟨-, -, hN⟩ hr
  exact hQ _ _ _ hN hr

end Rules

section Histories

variable {E : Env C R S} {prog : ι → Prog C R ε α} {cfg : Config ι C R ε α S}
  {ms ns : List (Move ι C R S)} {Inv : S → Prop} {shows : Shows C R S X}
  {Q : Except ε α → Set X → Prop} {w : S} {i : ι}

def Move.shown (shows : Shows C R S X) (m : Move ι C R S) : Set X :=
  shows m.line.call m.before m.line.reply m.after

def momentsOf (shows : Shows C R S X) (i : ι) (ms : List (Move ι C R S)) : Set X :=
  {x | ∃ m ∈ ms, m.client = i ∧ x ∈ m.shown shows}

theorem momentsOf_nil : momentsOf shows i ([] : List (Move ι C R S)) = ∅ := by
  simp [momentsOf]

theorem momentsOf_append :
    momentsOf shows i (ms ++ ns) = momentsOf shows i ms ∪ momentsOf shows i ns := by
  ext x
  simp only [momentsOf, List.mem_append, Set.mem_ofPred_eq, Set.mem_union]
  constructor
  · rintro ⟨m, hm | hm, hi⟩
    · exact .inl ⟨m, hm, hi⟩
    · exact .inr ⟨m, hm, hi⟩
  · rintro (⟨m, hm, hi⟩ | ⟨m, hm, hi⟩)
    · exact ⟨m, .inl hm, hi⟩
    · exact ⟨m, .inr hm, hi⟩

theorem momentsOf_self {m : Move ι C R S} (h : m.client = i) :
    momentsOf shows i [m] = m.shown shows := by
  ext x
  simp [momentsOf, h]

theorem momentsOf_of_ne {m : Move ι C R S} (h : m.client ≠ i) : momentsOf shows i [m] = ∅ := by
  ext x
  simp [momentsOf, h]

def Status.Traced (E : Env C R S) (Inv : S → Prop) (shows : Shows C R S X)
    (Q : Except ε α → Set X → Prop) (w : S) (M : Set X) : Status C R ε α → Prop
  | .idle => M = ∅
  | .running p => Interaction.Traced E (.keeping Inv) shows (fun r _ M => Q r M) p w M
  | .finished r => Q r M

variable [DecidableEq ι]

/-- In a history of calls that keep an invariant, the result of a client and the moments of its
calls satisfy its postcondition. -/
theorem History.traced (hsafe : ∀ j s, Inv s → Safe E (.keeping Inv) (fun _ _ => True) (prog j) s)
    (hi : ∀ s, Inv s →
      Interaction.Traced E (.keeping Inv) shows (fun r _ M => Q r M) (prog i) s ∅)
    (hw : Inv w) (h : History E prog (.start w) ms cfg) :
    (cfg.status i).Traced E Inv shows Q cfg.world (momentsOf shows i ms) := by
  have hms := h.keeps hsafe hw
  -- the invariant holds at the world, and the client is as far as its calls
  suffices hall : Inv cfg.world ∧
      (cfg.status i).Traced E Inv shows Q cfg.world (momentsOf shows i ms) from hall.2
  generalize hstart : Config.start w = cfg₀ at h
  induction h with
  | nil =>
    subst hstart
    exact ⟨hw, momentsOf_nil⟩
  | @call cfg' ms j c k r w' _ hj hE ih =>
    obtain ⟨hworld, hstatus⟩ := ih fun m hm => hms m (List.mem_append_left _ hm)
    have hworld' : Inv w' := hms _ (List.mem_append_right _ (List.mem_singleton_self _)) hworld
    refine ⟨hworld', ?_⟩
    by_cases hij : j = i
    · subst hij
      rw [hj] at hstatus
      rw [Config.set_status_self, momentsOf_append,
        momentsOf_self (m := ⟨j, ⟨c, r⟩, cfg'.world, w'⟩) rfl]
      have hrunning : Interaction.Traced E (.keeping Inv) shows (fun r _ M => Q r M) (.call c k)
          cfg'.world (momentsOf shows j ms) := hstatus
      exact (traced_call_iff.mp hrunning _ id r w' hE).2
    · rw [Config.set_status_of_ne _ _ (Ne.symm hij), momentsOf_append,
        momentsOf_of_ne (m := ⟨j, ⟨c, r⟩, cfg'.world, w'⟩) hij, Set.union_empty]
      cases hst : cfg'.status i with
      | idle =>
        rw [hst] at hstatus
        exact hstatus
      | running p =>
        rw [hst] at hstatus
        exact Safe.stable hstatus ⟨fun _ => hworld', rfl⟩
      | finished r =>
        rw [hst] at hstatus
        exact hstatus
  | @quiet cfg' cfg'' ms e _ hs he ih =>
    obtain ⟨hworld, hstatus⟩ := ih hms
    have hother : ∀ {j : ι} {st : Status C R ε α}, j ≠ i →
        ((cfg'.set cfg'.world j st).status i).Traced E Inv shows Q cfg'.world
          (momentsOf shows i ms) := by
      intro j st hij
      rwa [Config.set_status_of_ne _ _ (Ne.symm hij)]
    refine ⟨hs.world_eq he ▸ hworld, ?_⟩
    cases hs with
    | call => cases he
    | @invoke j hj =>
      by_cases hij : j = i
      · subst hij
        rw [hj] at hstatus
        rw [Config.set_status_self, show momentsOf shows j ms = ∅ from hstatus]
        exact hi _ hworld
      · exact hother hij
    | @unroll j σ β body x k hj =>
      by_cases hij : j = i
      · subst hij
        rw [hj] at hstatus
        rw [Config.set_status_self]
        exact safe_loop_iff.mp hstatus
      · exact hother hij
    | @finish j r hj =>
      by_cases hij : j = i
      · subst hij
        rw [hj] at hstatus
        rw [Config.set_status_self]
        have hrunning : Interaction.Traced E (.keeping Inv) shows (fun r _ M => Q r M)
            (.ofExcept r) cfg'.world (momentsOf shows j ms) := hstatus
        cases r with
        | ok a => exact traced_pure_iff.mp hrunning _ id
        | error e => exact traced_throw_iff.mp hrunning _ id
      · exact hother hij

end Histories

end Interaction
