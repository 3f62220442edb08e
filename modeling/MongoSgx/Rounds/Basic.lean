import Mathlib.Logic.Basic

/-! # Loops with a state

A loop over a list whose rounds may fail. The state is carried from round to round,
and what the rounds put out is collected.
-/

namespace Rounds

variable {σ τ α β γ : Type}

def run (round : σ → α → Option (σ × List γ)) : σ → List α → Option (σ × List γ)
  | s, [] => some (s, [])
  | s, a :: l => do
    let (s, ys) ← round s a
    let (s, zs) ← run round s l
    return (s, ys ++ zs)

variable {round : σ → α → Option (σ × List γ)} {s t : σ} {a : α} {l : List α} {xs : List γ}

@[simp] theorem run_nil : run round s [] = some (s, []) := rfl

theorem run_cons : run round s (a :: l) =
    (round s a).bind fun x => (run round x.1 l).map fun y => (y.1, x.2 ++ y.2) := by
  rw [run]
  cases round s a with
  | none => rfl
  | some x => cases h : run round x.1 l <;> simp [h]

theorem run_cons_eq_some {u : σ} : run round s (a :: l) = some (u, xs) ↔
    ∃ t ys zs, round s a = some (t, ys) ∧ run round t l = some (u, zs) ∧ xs = ys ++ zs := by
  rw [run_cons, Option.bind_eq_some_iff]
  constructor
  · rintro ⟨⟨t, ys⟩, hround, h⟩
    obtain ⟨⟨u', zs⟩, hrun, h⟩ := Option.map_eq_some_iff.mp h
    obtain ⟨rfl, rfl⟩ := Prod.mk.inj h
    exact ⟨t, ys, zs, hround, hrun, rfl⟩
  · rintro ⟨t, ys, zs, hround, hrun, rfl⟩
    exact ⟨(t, ys), hround, by rw [hrun]; rfl⟩

theorem run_mono {round' : σ → α → Option (σ × List γ)}
    (h : ∀ s a x, round s a = some x → round' s a = some x) {x : σ × List γ}
    (hrun : run round s l = some x) : run round' s l = some x := by
  induction l generalizing s x with
  | nil => exact hrun
  | cons a l ih =>
    obtain ⟨u, xs⟩ := x
    obtain ⟨t, ys, zs, hround, hrest, rfl⟩ := run_cons_eq_some.mp hrun
    exact run_cons_eq_some.mpr ⟨t, ys, zs, h s a _ hround, ih hrest, rfl⟩

theorem run_filter {p : α → Bool} (h : ∀ a, p a = false → ∀ s, round s a = some (s, [])) :
    run round s (l.filter p) = run round s l := by
  induction l generalizing s with
  | nil => rfl
  | cons a l ih =>
    rw [List.filter_cons, run_cons]
    cases hp : p a with
    | true =>
      simp only [↓reduceIte, run_cons, ih]
    | false =>
      rw [h a hp s, Option.bind_some]
      simp only [Bool.false_eq_true, ↓reduceIte, ih, List.nil_append, Option.map_id']

/-- Where the state does not decide whether a round fails, every round must go through. -/
theorem exists_run_iff {p : α → Prop} (h : ∀ a s, (∃ x, round s a = some x) ↔ p a) :
    (∃ x, run round s l = some x) ↔ ∀ a ∈ l, p a := by
  induction l generalizing s with
  | nil => simp
  | cons a l ih =>
    rw [List.forall_mem_cons, ← h a s, run_cons]
    constructor
    · rintro ⟨x, hx⟩
      obtain ⟨y, hy, hx⟩ := Option.bind_eq_some_iff.mp hx
      obtain ⟨z, hz, -⟩ := Option.map_eq_some_iff.mp hx
      exact ⟨⟨y, hy⟩, ih.mp ⟨z, hz⟩⟩
    · rintro ⟨⟨y, hy⟩, hl⟩
      obtain ⟨z, hz⟩ := (ih (s := y.1)).mpr hl
      exact ⟨_, by rw [hy, Option.bind_some, hz]; rfl⟩

theorem outputs_eq_mapM {g : α → Option (List γ)}
    (h : ∀ a ∈ l, ∀ s, (round s a).map Prod.snd = g a) :
    (run round s l).map Prod.snd = (l.mapM g).map List.flatten := by
  induction l generalizing s with
  | nil => rfl
  | cons a l ih =>
    have ha := h a (List.mem_cons_self ..) s
    rw [run_cons, List.mapM_cons, ← ha]
    cases hround : round s a with
    | none => rfl
    | some x =>
      have ih := ih (s := x.1) fun b hb => h b (List.mem_cons_of_mem _ hb)
      simp only [Option.bind_some, Option.map_map, Option.map_some, Option.bind_eq_bind]
      cases hrun : run round x.1 l <;> cases hmap : l.mapM g <;> simp_all

/-- Two loops whose rounds keep their states related and put out the same. -/
theorem run_rel {R : σ → τ → Prop} {round' : τ → β → Option (τ × List γ)} {f : α → β}
    (h : ∀ a ∈ l, ∀ s t, R s t →
      Option.Rel (fun x y => R x.1 y.1 ∧ x.2 = y.2) (round s a) (round' t (f a)))
    {s : σ} {t : τ} (hst : R s t) :
    Option.Rel (fun x y => R x.1 y.1 ∧ x.2 = y.2) (run round s l) (run round' t (l.map f)) := by
  induction l generalizing s t with
  | nil => exact .some ⟨hst, rfl⟩
  | cons a l ih =>
    have hround := h a (List.mem_cons_self ..) s t hst
    rw [List.map_cons, run_cons, run_cons]
    generalize round s a = x, round' t (f a) = y at hround
    cases hround with
    | none => exact .none
    | some hxy =>
      have hrest := ih (fun b hb => h b (List.mem_cons_of_mem _ hb)) hxy.1
      simp only [Option.bind_some]
      generalize run round _ l = x', run round' _ (l.map f) = y' at hrest
      cases hrest with
      | none => exact .none
      | some huv => exact .some ⟨huv.1, congrArg₂ (· ++ ·) hxy.2 huv.2⟩

end Rounds
