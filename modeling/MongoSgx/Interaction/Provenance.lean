import Mathlib.Data.Set.Basic
import MongoSgx.Interaction.History

/-! # Where tokens come from

Clients hand out tokens in their calls and accept tokens in the replies. When each
client makes what it hands out from what it has accepted, by a rule of its own, and
nothing is accepted that was not handed out before, every token descends from the
rules alone, whoever passes the tokens on.
-/

namespace Interaction

variable {ι T C S : Type} {R : C → Type}

/-- The tokens that clients can have made. `From i A t` lets the client `i` make `t` when it has
accepted the tokens of `A`. -/
inductive Descends (From : ι → Set T → T → Prop) : T → Prop
  | mk {A : Set T} {t : T} (i : ι) (hA : ∀ u ∈ A, Descends From u) (h : From i A t) :
      Descends From t

def accepted (Accepts : Exchange C R → T → Prop) (xs : List (Exchange C R)) : Set T :=
  {t | ∃ x ∈ xs, Accepts x t}

def Active (ms : List (Move ι C R S)) (i : ι) : Prop := ∃ m ∈ ms, m.client = i

/-- A call hands out what its client can make of what it has accepted. -/
def Accounted [DecidableEq ι] (Issues Accepts : Exchange C R → T → Prop)
    (From : ι → Set T → T → Prop) (ms : List (Move ι C R S)) : Prop :=
  ∀ i l x l', callsOf i ms = l ++ x :: l' → ∀ t, Issues x t → From i (accepted Accepts l) t

/-- Nothing is accepted that was not handed out before. -/
def Unforged (Issues Accepts : Exchange C R → T → Prop) (xs : List (Exchange C R)) : Prop :=
  ∀ l x l', xs = l ++ x :: l' → ∀ t, Accepts x t → ∃ y ∈ l, Issues y t

variable {From From' : ι → Set T → T → Prop} {Issues Accepts : Exchange C R → T → Prop}
  {ms ns l l' : List (Move ι C R S)} {m : Move ι C R S} {i : ι} {t : T}

theorem Descends.mono (h : Descends From t) (hF : ∀ i A t, From i A t → From' i A t) :
    Descends From' t := by
  induction h with
  | mk i _ h ih => exact .mk i ih (hF _ _ _ h)

theorem Active.append_left (h : Active ms i) : Active (ms ++ ns) i := by
  obtain ⟨m, hm, hi⟩ := h
  exact ⟨m, List.mem_append_left _ hm, hi⟩

variable [DecidableEq ι]

theorem callsOf_cons_self (h : m.client = i) : callsOf i (m :: ms) = m.line :: callsOf i ms := by
  simp [callsOf, h]

/-- What is handed out and what is accepted descends from the clients that have made a call. -/
theorem Accounted.descends (hi : Accounted Issues Accepts From ms)
    (hu : Unforged Issues Accepts (ms.map Move.line)) (hms : ms = l ++ m :: l')
    (ht : Issues m.line t ∨ Accepts m.line t) :
    Descends (fun i A t => Active (l ++ [m]) i ∧ From i A t) t := by
  induction hn : l.length using Nat.strong_induction_on generalizing l m l' t with
  | _ n ih =>
    subst hn
    have earlier : ∀ n ∈ l, ∀ u, Issues n.line u ∨ Accepts n.line u →
        Descends (fun i A t => Active (l ++ [m]) i ∧ From i A t) u := by
      intro n hn u hu
      obtain ⟨l₁, l₂, rfl⟩ := List.append_of_mem hn
      have hlen : l₁.length < (l₁ ++ n :: l₂).length := by simp
      have hsplit : ms = l₁ ++ n :: (l₂ ++ m :: l') := by simp [hms]
      refine (ih _ hlen hsplit hu rfl).mono ?_
      rintro i A t ⟨hi, h⟩
      refine ⟨?_, h⟩
      rw [show l₁ ++ n :: l₂ ++ [m] = (l₁ ++ [n]) ++ (l₂ ++ [m]) by simp]
      exact hi.append_left
    rcases ht with ht | ht
    · have hcalls : callsOf m.client ms =
          callsOf m.client l ++ m.line :: callsOf m.client l' := by
        rw [hms, callsOf_append, callsOf_cons_self rfl]
      refine .mk m.client ?_ ⟨⟨m, by simp, rfl⟩, hi _ _ _ _ hcalls t ht⟩
      rintro u ⟨x, hx, hu⟩
      obtain ⟨n, hn, -, rfl⟩ := mem_callsOf.mp hx
      exact earlier n hn u (.inr hu)
    · obtain ⟨y, hy, ht⟩ := hu (l.map Move.line) m.line (l'.map Move.line) (by simp [hms]) t ht
      obtain ⟨n, hn, rfl⟩ := List.mem_map.mp hy
      exact earlier n hn t (.inl ht)

omit [DecidableEq ι] in
theorem unforged_nil : Unforged Issues Accepts [] := by
  intro l x l' h
  simp at h

theorem Unforged.append {xs : List (Exchange C R)} {x : Exchange C R}
    (h : Unforged Issues Accepts xs) (hx : ∀ t, Accepts x t → ∃ y ∈ xs, Issues y t) :
    Unforged Issues Accepts (xs ++ [x]) := by
  intro l y l' hl t ht
  rcases List.eq_nil_or_concat l' with rfl | ⟨l', z, rfl⟩
  · obtain ⟨rfl, hy⟩ := List.append_inj' hl rfl
    obtain rfl := List.singleton_inj.mp hy
    exact hx t ht
  · have hl : xs ++ [x] = (l ++ y :: l') ++ [z] := by simpa using hl
    obtain ⟨rfl, -⟩ := List.append_inj' hl rfl
    exact h l y l' rfl t ht

theorem Unforged.append_of_none {xs ys : List (Exchange C R)} (h : Unforged Issues Accepts xs)
    (hys : ∀ y ∈ ys, ∀ t, ¬ Accepts y t) : Unforged Issues Accepts (xs ++ ys) := by
  induction ys using List.reverseRecOn with
  | nil => rwa [List.append_nil]
  | append_singleton ys y ih =>
    rw [← List.append_assoc]
    refine (ih fun z hz => hys z (List.mem_append_left _ hz)).append fun t ht => ?_
    exact absurd ht (hys y (by simp) t)

theorem History.lines_eq {ε α : Type} {prog : ι → Prog C R ε α} {allowed : Exchange C R → Prop}
    {ms : List (Move ι C R (List (Exchange C R)))}
    {cfg cfg' : Config ι C R ε α (List (Exchange C R))}
    (h : History (Recording allowed) prog cfg ms cfg') :
    cfg'.world = cfg.world ++ ms.map Move.line := by
  induction h with
  | nil => simp
  | @call cfg' ms i c k r w _ _ hE ih =>
    obtain ⟨-, rfl⟩ := hE
    simp [Config.set, ih]
  | quiet _ hs he ih => rw [hs.world_eq he, ih]

end Interaction
