import Mathlib.Data.List.Chain
import MongoSgx.Scanner.Vsscanf

/-! # Scanning undoes printing

A format with a value for each of its directives is a list of pieces. The text
that is printed from it is scanned back into the same values, as long as nothing
that can begin with a digit follows a number.
-/

namespace MongoSgx

open Numeral

inductive Piece where
  | int (n : ℤ)
  | char (c : Char)
  | literal (c : Char)

namespace Piece

def format : Piece → List Char
  | .int _ => ['%', 'd']
  | .char _ => ['%', 'c']
  | .literal c => [c]

def text : Piece → List Char
  | .int n => (toString n).toList
  | .char c => [c]
  | .literal c => [c]

def value : Piece → Option Stored
  | .int n => some (.int n)
  | .char c => some (.char c)
  | .literal _ => none

/-- The value is an `int` or a letter, and the literal is not a percent sign. -/
def Admissible : Piece → Prop
  | .int n => cInt.lo ≤ n ∧ n ≤ cInt.hi
  | .char c => c.isAlpha
  | .literal c => c ≠ '%' ∧ c ≠ nul

/-- What may stand directly behind a number. -/
def Follows : Piece → Piece → Prop
  | .int _, .int _ => False
  | .int _, .literal c => ¬ c.isDigit
  | _, _ => True

def token : Piece → Option Token
  | .int n => some (.number (decide (n < 0)) (Nat.toDigits 10 n.natAbs))
  | .char c => some (.letter c)
  | .literal _ => none

end Piece

def formatOf (ps : List Piece) : List Char := ps.flatMap Piece.format

def printed (ps : List Piece) : List Char := ps.flatMap Piece.text

def values (ps : List Piece) : List Stored := ps.filterMap Piece.value

section Numbers

theorem text_int (n : ℤ) : (Piece.int n).text =
    if n < 0 then '-' :: Nat.toDigits 10 n.natAbs else Nat.toDigits 10 n.natAbs := by
  cases n with
  | ofNat m => simp [Piece.text, toString, Int.repr, Nat.toList_repr]
  | negSucc m => simp [Piece.text, toString, Int.repr, Nat.toList_repr]

theorem isDigit_of_mem {n : ℕ} {c : Char} (h : c ∈ Nat.toDigits 10 n) : c.isDigit :=
  Nat.isDigit_of_mem_toDigits (by decide) (by decide) h

theorem signedNumber_toDigits (n : ℤ) :
    signedNumber (decide (n < 0)) (Nat.toDigits 10 n.natAbs) = n := by
  unfold signedNumber
  rw [Nat.ofDigitChars_ten_toDigits]
  by_cases h : n < 0
  · rw [decide_eq_true h, if_pos rfl]
    omega
  · rw [decide_eq_false h, if_neg Bool.false_ne_true]
    omega

variable {rest : List Char}

theorem takeWhile_digits (n : ℕ) (h : ∀ c ∈ rest.head?, ¬ c.isDigit) :
    (Nat.toDigits 10 n ++ rest).takeWhile Char.isDigit = Nat.toDigits 10 n ∧
      (Nat.toDigits 10 n ++ rest).dropWhile Char.isDigit = rest := by
  have hd : ∀ c ∈ Nat.toDigits 10 n, c.isDigit := fun c hc => isDigit_of_mem hc
  rw [List.takeWhile_append_of_pos hd, List.dropWhile_append_of_pos hd]
  cases rest with
  | nil => simp
  | cons c rest =>
    have hc := h c (by simp)
    simp [hc]

theorem numberAt_text (n : ℤ) (h : ∀ c ∈ rest.head?, ¬ c.isDigit) :
    numberAt ((Piece.int n).text ++ rest) =
      (decide (n < 0), Nat.toDigits 10 n.natAbs, rest) := by
  obtain ⟨htake, hdrop⟩ := takeWhile_digits n.natAbs h
  rw [text_int]
  by_cases hn : n < 0
  · simp [hn, numberAt, htake, hdrop]
  · have hminus : ∀ body, Nat.toDigits 10 n.natAbs ++ rest ≠ '-' :: body := by
      intro body hbody
      cases hds : Nat.toDigits 10 n.natAbs with
      | nil => exact Nat.toDigits_ne_nil hds
      | cons c ds =>
        rw [hds] at hbody
        have hc : c.isDigit := isDigit_of_mem (hds ▸ List.mem_cons_self ..)
        rw [(List.cons.inj hbody).1] at hc
        exact absurd hc (by decide)
    rw [if_neg hn, numberAt]
    · simp [hn, htake, hdrop]
    · exact hminus

end Numbers

section Pieces

variable {p : Piece} {ps : List Piece}

theorem not_isDigit_of_isAlpha {c : Char} (h : c.isAlpha) : ¬ c.isDigit := by
  change (decide (c.val ≥ 'A'.val ∧ c.val ≤ 'Z'.val) ||
    (decide (c.val ≥ 'a'.val) && decide (c.val ≤ 'z'.val))) = true at h
  simp only [Char.isDigit, Bool.or_eq_true, Bool.and_eq_true, decide_eq_true_eq, ge_iff_le,
    UInt32.le_iff_toNat_le] at h ⊢
  simp at h ⊢
  omega

theorem not_isDigit_of_follows {n : ℤ} (hf : Piece.Follows (.int n) p) (hok : p.Admissible)
    (rest : List Char) : ∀ c ∈ (p.text ++ rest).head?, ¬ c.isDigit := by
  intro c hc
  cases p with
  | int m => exact absurd hf (by simp [Piece.Follows])
  | char d =>
    obtain rfl : d = c := by simpa [Piece.text] using hc
    exact not_isDigit_of_isAlpha hok
  | literal d =>
    obtain rfl : d = c := by simpa [Piece.text] using hc
    exact hf

theorem consumed_printed (hok : ∀ p ∈ ps, p.Admissible) (hsep : ps.IsChain Piece.Follows) :
    consumed (formatOf ps) (printed ps) = ps.filterMap Piece.token := by
  induction ps with
  | nil => rfl
  | cons p ps ih =>
    rw [List.isChain_cons] at hsep
    have hok' : ∀ q ∈ ps, q.Admissible := fun q hq => hok q (List.mem_cons_of_mem _ hq)
    have ih := ih hok' hsep.2
    have hp := hok p (List.mem_cons_self ..)
    cases p with
    | int n =>
      have hrest : ∀ c ∈ (printed ps).head?, ¬ c.isDigit := by
        cases ps with
        | nil => simp [printed]
        | cons q qs =>
          exact not_isDigit_of_follows (hsep.1 q rfl) (hok' q (List.mem_cons_self ..)) _
      change consumed ('%' :: 'd' :: formatOf ps) ((Piece.int n).text ++ printed ps) = _
      rw [consumed, numberAt_text n hrest]
      simp [ih, Piece.token, Nat.toDigits_ne_nil]
    | char c =>
      change consumed ('%' :: 'c' :: formatOf ps) (c :: printed ps) = _
      have hc : c.isAlpha := hp
      rw [consumed, if_pos hc, ih]
      rfl
    | literal c =>
      change consumed (c :: formatOf ps) (c :: printed ps) = _
      rw [consumed, if_pos rfl, ih]
      · rfl
      · exact fun _ h => absurd h hp.1
      · exact fun _ h => absurd h hp.1

theorem nul_notMem_text (hok : p.Admissible) : nul ∉ p.text := by
  intro h
  cases p with
  | int n =>
    have hdigit : nul ∉ Nat.toDigits 10 n.natAbs := fun hmem =>
      absurd (isDigit_of_mem hmem) (by decide)
    rw [text_int] at h
    split at h
    · rcases List.mem_cons.mp h with hminus | hmem
      · exact absurd hminus (by decide)
      · exact hdigit hmem
    · exact hdigit h
  | char c =>
    obtain rfl : nul = c := by simpa [Piece.text] using h
    exact absurd (show nul.isAlpha = true from hok) (by decide)
  | literal c =>
    obtain rfl : nul = c := by simpa [Piece.text] using h
    exact hok.2 rfl

theorem nul_notMem_format (hok : p.Admissible) : nul ∉ p.format := by
  intro h
  cases p with
  | int n =>
    have hd : nul ∉ ['%', 'd'] := by decide
    exact hd h
  | char c =>
    have hc : nul ∉ ['%', 'c'] := by decide
    exact hc h
  | literal c =>
    obtain rfl : nul = c := by simpa [Piece.format] using h
    exact hok.2 rfl

theorem mapM_store_token (hok : ∀ p ∈ ps, p.Admissible) :
    (ps.filterMap Piece.token).mapM Token.store = some (values ps) := by
  induction ps with
  | nil => rfl
  | cons p ps ih =>
    have ih := ih fun q hq => hok q (List.mem_cons_of_mem _ hq)
    have hp := hok p (List.mem_cons_self ..)
    cases p with
    | int n =>
      have hfits : (Token.number (decide (n < 0)) (Nat.toDigits 10 n.natAbs)).Fits := by
        rw [Token.Fits, signedNumber_toDigits]
        exact hp
      change (Token.number (decide (n < 0)) (Nat.toDigits 10 n.natAbs) ::
        ps.filterMap Piece.token).mapM Token.store = _
      rw [mapM_store_cons, if_pos hfits, ih, Token.value, signedNumber_toDigits]
      rfl
    | char c =>
      change (Token.letter c :: ps.filterMap Piece.token).mapM Token.store = _
      rw [mapM_store_cons, if_pos (show (Token.letter c).Fits from trivial), ih]
      rfl
    | literal c => exact ih

end Pieces

/-- Scanning undoes printing. For every format of directives and literal characters other than
the percent sign, in which no number is directly followed by another number or a literal digit,
and for all values of `int` and all letters: the scanner stores the values in order and returns
the number of directives. Nothing overflows, and no character is read behind the terminators of
the text and the format. Both functions that pass the count on do so. -/
theorem vsscanf_printed (ps : List Piece) (hok : ∀ p ∈ ps, p.Admissible)
    (hsep : ps.IsChain Piece.Follows) :
    vsscanf (cString (printed ps)) (cString (formatOf ps)) =
      .ok ⟨(values ps).length, values ps⟩ ∧
    sgxSscanf (cString (printed ps)) (cString (formatOf ps)) =
      .ok ⟨some (values ps).length, values ps⟩ ∧
    isoc99Sscanf (cString (printed ps)) (cString (formatOf ps)) =
      .ok ⟨some (values ps).length, values ps⟩ := by
  have hformat : nul ∉ formatOf ps := fun h => by
    obtain ⟨p, hp, hmem⟩ := List.mem_flatMap.mp h
    exact nul_notMem_format (hok p hp) hmem
  have htext : nul ∉ printed ps := fun h => by
    obtain ⟨p, hp, hmem⟩ := List.mem_flatMap.mp h
    exact nul_notMem_text (hok p hp) hmem
  have hscan : vsscanf (cString (printed ps)) (cString (formatOf ps)) =
      .ok ⟨(values ps).length, values ps⟩ := by
    rw [vsscanf_cString hformat htext, consumed_printed hok hsep, mapM_store_token hok]
    simp [finish]
  refine ⟨hscan, ?_, ?_⟩
  · rw [sgxSscanf, hscan]
    rfl
  · rw [isoc99Sscanf, hscan]
    rfl

/-- Both ends of `int`, with a minus sign as a literal between them and letters around them. -/
theorem vsscanf_printed_sample :
    vsscanf (cString "--2147483648-2147483647zx7".toList) (cString "-%d-%d%cx%d".toList) =
      .ok ⟨4, [.int (-2147483648), .int 2147483647, .char 'z', .int 7]⟩ := by
  have h := vsscanf_printed [.literal '-', .int (-2147483648), .literal '-', .int 2147483647,
    .char 'z', .literal 'x', .int 7]
    (by simp [Piece.Admissible, cInt, nul]) (by simp [Piece.Follows])
  exact h.1

end MongoSgx
