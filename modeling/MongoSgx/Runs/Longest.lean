import Mathlib.Data.Nat.Notation
import Mathlib.Tactic.ByContra

/-! # Runs of a predicate in a list

A run is a nonempty stretch of elements that all satisfy the predicate. Among the
runs of a list at most one is the leftmost longest one. A scan from the left knows
the leftmost longest run of a front that does not end in a run, and the block of
satisfying elements behind it; the longer of the two is the run of both together.
-/

namespace Runs

variable {α : Type} {p : α → Prop}

structure Span where
  base : ℕ
  len : ℕ
  deriving DecidableEq

def IsRun (p : α → Prop) (l : List α) (r : Span) : Prop :=
  0 < r.len ∧ ∀ i, r.base ≤ i → i < r.base + r.len → ∃ a, l[i]? = some a ∧ p a

/-- The leftmost one of the longest runs. -/
def IsLongest (p : α → Prop) (l : List α) (r : Span) : Prop :=
  IsRun p l r ∧ ∀ s, IsRun p l s → s.len < r.len ∨ s.len = r.len ∧ r.base ≤ s.base

/-- The leftmost longest run, or none if there is no run. -/
def Longest (p : α → Prop) (l : List α) : Option Span → Prop
  | none => ∀ s, ¬ IsRun p l s
  | some r => IsLongest p l r

section Spans

variable {l front block : List α} {r s : Span} {a : α}

theorem IsRun.le_length (h : IsRun p l r) : r.base + r.len ≤ l.length := by
  have hpos := h.1
  obtain ⟨a, ha, -⟩ := h.2 (r.base + r.len - 1) (by omega) (by omega)
  have hlt := (List.getElem?_eq_some_iff.mp ha).1
  omega

theorem IsLongest.unique (h : IsLongest p l r) (h' : IsLongest p l s) : r = s := by
  have hs := h.2 s h'.1
  have hr := h'.2 r h.1
  obtain ⟨base, len⟩ := r
  obtain ⟨base', len'⟩ := s
  simp only [Span.mk.injEq] at hs hr ⊢
  omega

theorem isRun_append_iff (h : r.base + r.len ≤ front.length) :
    IsRun p (front ++ block) r ↔ IsRun p front r := by
  have hget : ∀ i, i < r.base + r.len → (front ++ block)[i]? = front[i]? := fun i hi =>
    List.getElem?_append_left (by omega)
  constructor
  · rintro ⟨hpos, hr⟩
    exact ⟨hpos, fun i hi hi' => hget i hi' ▸ hr i hi hi'⟩
  · rintro ⟨hpos, hr⟩
    exact ⟨hpos, fun i hi hi' => (hget i hi').symm ▸ hr i hi hi'⟩

/-- No run reaches over the end of a front whose last element does not satisfy the predicate. -/
theorem IsRun.apart (h : IsRun p (front ++ block) s) (hlast : ∀ a ∈ front.getLast?, ¬ p a) :
    s.base + s.len ≤ front.length ∨ front.length ≤ s.base := by
  by_contra hover
  have hlt : front.length - 1 < front.length := by omega
  obtain ⟨a, ha, hp⟩ := h.2 (front.length - 1) (by omega) (by omega)
  rw [List.getElem?_append_left hlt, ← List.getLast?_eq_getElem?] at ha
  exact hlast a ha hp

theorem isRun_block (hblock : ∀ a ∈ block, p a) (hne : block ≠ []) :
    IsRun p (front ++ block) ⟨front.length, block.length⟩ := by
  constructor
  · exact List.length_pos_iff.mpr hne
  · intro i hi hi'
    have hlt : i - front.length < block.length := by
      change front.length ≤ i at hi
      change i < front.length + block.length at hi'
      omega
    refine ⟨block[i - front.length], ?_, hblock _ (List.getElem_mem hlt)⟩
    rw [List.getElem?_append_right hi, List.getElem?_eq_getElem hlt]

end Spans

section Scan

variable {front block : List α} {best : Option Span} {r : Span} {a : α}

/-- What a scan knows: the leftmost longest run of the front, which does not end in a run, and
the block of satisfying elements behind it. -/
structure Progress (p : α → Prop) (front block : List α) (best : Option Span) : Prop where
  last : ∀ a ∈ front.getLast?, ¬ p a
  block : ∀ a ∈ block, p a
  best : Longest p front best

theorem progress_nil : Progress p [] [] none where
  last a ha := by simp at ha
  block a ha := by simp at ha
  best s hs := by
    have hle := hs.le_length
    have hpos := hs.1
    rw [List.length_nil] at hle
    omega

theorem Progress.push (h : Progress p front block best) (ha : p a) :
    Progress p front (block ++ [a]) best where
  last := h.last
  block x hx := by
    rcases List.mem_append.mp hx with hx | hx
    · exact h.block x hx
    · rw [List.mem_singleton.mp hx]
      exact ha
  best := h.best

theorem Progress.keep (h : Progress p front block (some r)) (hle : block.length ≤ r.len) :
    Longest p (front ++ block) (some r) := by
  constructor
  · exact (isRun_append_iff h.best.1.le_length).mpr h.best.1
  · intro s hs
    have hend := hs.le_length
    rw [List.length_append] at hend
    rcases hs.apart h.last with hin | hin
    · exact h.best.2 s ((isRun_append_iff hin).mp hs)
    · -- a run in the block begins behind the front
      have hfront := h.best.1.le_length
      omega

theorem Progress.replace (h : Progress p front block best) (hne : block ≠ [])
    (hlt : ∀ r ∈ best, r.len < block.length) :
    Longest p (front ++ block) (some ⟨front.length, block.length⟩) := by
  constructor
  · exact isRun_block h.block hne
  · intro s hs
    have hend := hs.le_length
    rw [List.length_append] at hend
    change s.len < block.length ∨ s.len = block.length ∧ front.length ≤ s.base
    rcases hs.apart h.last with hin | hin
    · have hs := (isRun_append_iff hin).mp hs
      cases best with
      | none => exact absurd hs (h.best s)
      | some r =>
        have hr := hlt r rfl
        have hbest := h.best.2 s hs
        omega
    · omega

theorem Progress.of_nil (h : Progress p front [] best) : Longest p (front ++ []) best := by
  rw [List.append_nil]
  exact h.best

theorem Longest.snoc {l : List α} (h : Longest p l best) (ha : ¬ p a) :
    Progress p (l ++ [a]) [] best where
  last x hx := by
    rw [List.getLast?_concat, Option.mem_some_iff] at hx
    exact hx ▸ ha
  block x hx := by simp at hx
  best := by
    have hrun : ∀ s, IsRun p (l ++ [a]) s → IsRun p l s := by
      intro s hs
      have hle := hs.le_length
      rw [List.length_append, List.length_singleton] at hle
      by_cases hin : s.base + s.len ≤ l.length
      · exact (isRun_append_iff hin).mp hs
      · have hpos := hs.1
        obtain ⟨x, hx, hp⟩ := hs.2 l.length (by omega) (by omega)
        rw [List.getElem?_concat_length, Option.some.injEq] at hx
        exact absurd (hx ▸ hp) ha
    cases best with
    | none => exact fun s hs => h s (hrun s hs)
    | some r =>
      exact ⟨(isRun_append_iff h.1.le_length).mpr h.1, fun s hs => h.2 s (hrun s hs)⟩

end Scan

end Runs
