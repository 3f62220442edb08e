import MongoSgx.Inet.Ntop

/-! # The text of an address

An IPv4 address is written as its four bytes in decimal. An IPv6 address is
written as its words in hexadecimal, with two colons in place of the leftmost
longest run of zeros, if it has two words at least. The search of the code finds
this run.
-/

namespace MongoSgx

open Memory Runs

def quadText (src : Mem) : List Char :=
  ['.'].intercalate ((load src 0 4).map fun b => Nat.toDigits 10 b.toNat)

def hexText (ws : List ℕ) : List Char := [':'].intercalate (ws.map (Nat.toDigits 16))

/-- The run of zeros that two colons stand for: the leftmost longest one, of two words or more. -/
def Elided (src : Mem) : Option Span → Prop
  | none => ∀ s, IsRun (· = 0) (words src) s → s.len < 2
  | some r => IsLongest (· = 0) (words src) r ∧ 2 ≤ r.len

/-- All but the last 32 bits are zeros, or zeros and a word of ones. -/
def HoldsQuad (src : Mem) (r : Span) : Prop :=
  r.base = 0 ∧ (r.len = 6 ∨ r.len = 5 ∧ word src 5 = 0xffff)

instance (src : Mem) (r : Span) : Decidable (HoldsQuad src r) :=
  inferInstanceAs (Decidable (_ ∧ _))

def tailGroups (src : Mem) (r : Span) : List (List Char) :=
  if HoldsQuad src r then
    (((words src).take 6).drop r.len).map (Nat.toDigits 16) ++ [quadText fun k => src (12 + k)]
  else ((words src).drop (r.base + r.len)).map (Nat.toDigits 16)

def ipv6Text (src : Mem) : Option Span → List Char
  | none => hexText (words src)
  | some r =>
    hexText ((words src).take r.base) ++ ':' :: ':' :: [':'].intercalate (tailGroups src r)

inductive IsAddressText (src : Mem) : ℤ → List Char → Prop where

  | inet : IsAddressText src afInet (quadText src)

  | inet6 {best : Option Span} : Elided src best → IsAddressText src afInet6 (ipv6Text src best)

section Search

variable {src : Mem} {front block ws : List ℕ} {best : Option Span}

/-- The run that is open behind a front. -/
def openRun (front block : List ℕ) : Option Span :=
  if block = [] then none else some ⟨front.length, block.length⟩

theorem openRun_push (front block : List ℕ) (w : ℕ) :
    openRun front (block ++ [w]) = some ⟨front.length, block.length + 1⟩ := by
  simp [openRun]

theorem longest_closeRun (h : Progress (· = 0) front block best) :
    Longest (· = 0) (front ++ block) (closeRun best (openRun front block)) := by
  unfold openRun
  split
  case isTrue hnil =>
    subst hnil
    exact h.of_nil
  case isFalse hne =>
    cases best with
    | none => exact h.replace hne (by simp)
    | some r =>
      simp only [closeRun]
      split
      case isTrue hlt => exact h.replace hne (by simpa using hlt)
      case isFalse hle => exact h.keep (by simpa using hle)

theorem longest_scanRuns (h : Progress (· = 0) front block best) :
    Longest (· = 0) (front ++ block ++ ws)
      (scanRuns (front.length + block.length) ws best (openRun front block)) := by
  induction ws generalizing front block best with
  | nil =>
    rw [List.append_nil]
    exact longest_closeRun h
  | cons w ws ih =>
    rw [scanRuns]
    split
    case isTrue hw =>
      have ih := ih (h.push hw)
      rw [openRun_push, List.length_append, List.length_singleton, ← Nat.add_assoc] at ih
      rw [List.append_cons, List.append_assoc front]
      cases block with
      | nil => exact ih
      | cons v block => exact ih
    case isFalse hw =>
      have hsnoc := (longest_closeRun h).snoc (p := (· = 0)) hw
      have ih := ih hsnoc
      rw [List.length_append, List.length_append] at ih
      simpa [openRun] using ih

theorem longest_words (src : Mem) :
    Longest (· = 0) (words src) (scanRuns 0 (words src) none none) :=
  longest_scanRuns progress_nil

theorem elided_bestRun (src : Mem) : Elided src (bestRun src) := by
  have h := longest_words src
  rw [bestRun]
  cases hr : scanRuns 0 (words src) none none with
  | none =>
    rw [hr] at h
    exact fun s hs => absurd hs (h s)
  | some r =>
    rw [hr] at h
    by_cases hlen : 2 ≤ r.len
    · simp only [Option.filter, decide_eq_true hlen]
      exact ⟨h, hlen⟩
    · simp only [Option.filter, decide_eq_false hlen]
      intro s hs
      have hle := h.2 s hs
      omega

theorem Elided.unique {x y : Option Span} (h : Elided src x) (h' : Elided src y) : x = y := by
  cases x with
  | none =>
    cases y with
    | none => rfl
    | some s => exact absurd (h s h'.1.1) (by have := h'.2; omega)
  | some r =>
    cases y with
    | none => exact absurd (h' r h.1.1) (by have := h.2; omega)
    | some s => rw [h.1.unique h'.1]

end Search

theorem isAddressText_iff (src : Mem) (af : ℤ) (text : List Char) : IsAddressText src af text ↔
    (af = afInet ∧ text = quadText src) ∨ (af = afInet6 ∧ text = ipv6Text src (bestRun src)) := by
  constructor
  · intro h
    cases h with
    | inet => exact .inl ⟨rfl, rfl⟩
    | inet6 h => exact .inr ⟨rfl, by rw [h.unique (elided_bestRun src)]⟩
  · rintro (⟨rfl, rfl⟩ | ⟨rfl, rfl⟩)
    · exact .inet
    · exact .inet6 (elided_bestRun src)

end MongoSgx
