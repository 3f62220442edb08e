import Mathlib.Algebra.Group.Int.Defs
import MongoSgx.Numeral.Signed

/-! # The scanner of the enclave

`vsscanf` walks over a format and a text with two pointers. It knows `%d`, `%c`
and literal characters. Strings are the characters that may be read, terminator
included: a read behind them and an overflow of `int` have no defined result.
What is stored depends only on the parts of the text that the directives consume.
-/

namespace MongoSgx

open Numeral

/-- What C leaves undefined. -/
inductive Undefined where
  | overflow
  | outOfBounds
  deriving DecidableEq

def cInt : SignedType where
  lo := -2 ^ 31
  hi := 2 ^ 31 - 1
  hi_nonneg := by decide
  lo_le := by decide

def int (n : ℤ) : Except Undefined ℤ := (cInt.check n).elim (.error .overflow) .ok

def nul : Char := Char.ofNat 0

/-- The characters of a string and its terminator; there is nothing to read behind it. -/
def cString (s : List Char) : List Char := s ++ [nul]

def deref : List Char → Except Undefined Char
  | [] => .error .outOfBounds
  | c :: _ => .ok c

/-- What is stored through the next pointer of the argument list. -/
inductive Stored where
  | int (value : ℤ)
  | char (value : Char)
  deriving DecidableEq

/-- The loop over the digits of a number, the first of which has been checked before it. -/
def scanDigits (value : ℤ) : List Char → Except Undefined (ℤ × List Char)
  | [] => .error .outOfBounds
  | c :: str =>
    if c.isDigit then do
      let value ← int (value * 10)
      let value ← int (value - digit c)
      scanDigits value str
    else .ok (value, c :: str)

/-- The branch for `%d` behind the sign: the value and the rest of the text, unless it leaves the
loop over the format. -/
def scanNumber (negative : Bool) (str : List Char) :
    Except Undefined (Option (ℤ × List Char)) := do
  let first ← deref str
  if first.isDigit then
    let (value, str) ← scanDigits 0 str
    let value ← if negative then pure value else int (-value)
    return some (value, str)
  else return none

def scanInt (str : List Char) : Except Undefined (Option (ℤ × List Char)) := do
  let sign ← deref str
  if sign = '-' then scanNumber true str.tail else scanNumber false str

def scanChar (str : List Char) : Except Undefined (Option (Char × List Char)) := do
  let value ← deref str
  if value.isAlpha then return some (value, str.tail) else return none

/-- The number of conversions, which the scanner returns, and what it has stored. -/
structure Scanned where
  valCnt : ℕ
  stored : List Stored

/-- The loop over the format. -/
def scanFormat : List Char → List Char → ℕ → List Stored → Except Undefined Scanned
  | [], _, _, _ | ['%'], _, _, _ => .error .outOfBounds
  | '%' :: 'd' :: format, str, valCnt, stored => do
    match ← scanInt str with
    | some (value, str) => scanFormat format str (valCnt + 1) (stored ++ [.int value])
    | none => return ⟨valCnt, stored⟩
  | '%' :: 'c' :: format, str, valCnt, stored => do
    match ← scanChar str with
    | some (value, str) => scanFormat format str (valCnt + 1) (stored ++ [.char value])
    | none => return ⟨valCnt, stored⟩
  | f :: format, str, valCnt, stored =>
    if f = nul then return ⟨valCnt, stored⟩
    else do
      let c ← deref str
      if f = c then scanFormat format str.tail valCnt stored else return ⟨valCnt, stored⟩

def vsscanf (str format : List Char) : Except Undefined Scanned := scanFormat format str 0 []

/-- What a scanning function hands back: its return value, unless it ends without a `return`, and
what it has stored. -/
structure Report where
  returned : Option ℕ
  stored : List Stored

/-- `sscanf` of `my_wrappers.c` has no `return` after the scan. -/
def sscanf (str format : List Char) : Except Undefined Report := do
  let scanned ← vsscanf str format
  return ⟨none, scanned.stored⟩

def sgxSscanf (str format : List Char) : Except Undefined Report := do
  let scanned ← vsscanf str format
  return ⟨some scanned.valCnt, scanned.stored⟩

def isoc99Sscanf (s format : List Char) : Except Undefined Report := do
  let done ← vsscanf s format
  return ⟨some done.valCnt, done.stored⟩

section Tokens

inductive Token where
  | number (negative : Bool) (digits : List Char)
  | letter (c : Char)

/-- An optional minus sign, the digits after it, and what follows them. -/
def numberAt (str : List Char) : Bool × List Char × List Char :=
  match str with
  | '-' :: body => (true, body.takeWhile Char.isDigit, body.dropWhile Char.isDigit)
  | body => (false, body.takeWhile Char.isDigit, body.dropWhile Char.isDigit)

/-- The parts of the text that the directives of the format consume, in order. -/
def consumed : List Char → List Char → List Token
  | [], _ => []
  | '%' :: 'd' :: format, str =>
    let (negative, digits, rest) := numberAt str
    if digits = [] then [] else .number negative digits :: consumed format rest
  | '%' :: 'c' :: _, [] => []
  | '%' :: 'c' :: format, c :: str => if c.isAlpha then .letter c :: consumed format str else []
  | _ :: _, [] => []
  | f :: format, c :: str => if f = c then consumed format str else []

def Token.value : Token → Stored
  | .number negative digits => .int (signedNumber negative digits)
  | .letter c => .char c

def Token.Fits : Token → Prop
  | .number negative digits =>
    cInt.lo ≤ signedNumber negative digits ∧ signedNumber negative digits ≤ cInt.hi
  | .letter _ => True

instance (t : Token) : Decidable t.Fits :=
  match t with
  | .number negative digits => inferInstanceAs (Decidable
      (cInt.lo ≤ signedNumber negative digits ∧ signedNumber negative digits ≤ cInt.hi))
  | .letter _ => isTrue trivial

end Tokens

section Branches

variable {str rest : List Char}

@[simp] theorem ok_bind {α γ : Type} (a : α) (f : α → Except Undefined γ) :
    ((Except.ok a : Except Undefined α) >>= f) = f a := rfl

theorem int_of_check {n v : ℤ} (h : cInt.check n = some v) : int n = .ok v := by
  rw [int, h]
  rfl

theorem int_of_check_none {n : ℤ} (h : cInt.check n = none) : int n = .error .overflow := by
  rw [int, h]
  rfl

theorem scanDigits_of_not_digit (h : ∀ c ∈ rest.head?, ¬ c.isDigit) (hne : rest ≠ []) (value : ℤ) :
    scanDigits value rest = .ok (value, rest) := by
  cases rest with
  | nil => exact absurd rfl hne
  | cons c rest =>
    have hc := h c (by simp)
    rw [scanDigits, if_neg hc]

theorem scanDigits_append {digits : List Char} (hd : ∀ c ∈ digits, c.isDigit)
    (h : ∀ c ∈ rest.head?, ¬ c.isDigit) (hne : rest ≠ []) (value : ℤ) :
    scanDigits value (digits ++ rest) =
      (cInt.accumulate value digits).elim (.error .overflow) fun v => .ok (v, rest) := by
  induction digits generalizing value with
  | nil => simpa [SignedType.accumulate] using scanDigits_of_not_digit h hne value
  | cons c digits ih =>
    have hc := hd c (List.mem_cons_self ..)
    have ih := ih fun x hx => hd x (List.mem_cons_of_mem _ hx)
    rw [List.cons_append, scanDigits, if_pos hc, SignedType.accumulate, List.foldlM_cons,
      SignedType.push]
    cases hmul : cInt.check (value * 10) with
    | none =>
      rw [int_of_check_none hmul]
      rfl
    | some v =>
      rw [int_of_check hmul]
      cases hsub : cInt.check (v - digit c) with
      | none =>
        simp only [Option.bind_eq_bind, Option.bind_some, hsub]
        change (int (v - digit c) >>= _) = _
        rw [int_of_check_none hsub]
        rfl
      | some w =>
        simp only [Option.bind_eq_bind, Option.bind_some, hsub]
        change (int (v - digit c) >>= _) = _
        rw [int_of_check hsub]
        exact ih w

theorem isDigit_nul : nul.isDigit = false := by decide

theorem isAlpha_nul : nul.isAlpha = false := by decide

theorem head?_dropWhile_isDigit (str : List Char) :
    ∀ c ∈ (cString (str.dropWhile Char.isDigit)).head?, ¬ c.isDigit := by
  intro c hc
  cases h : str.dropWhile Char.isDigit with
  | nil =>
    rw [h] at hc
    obtain rfl : nul = c := by simpa [cString] using hc
    simp [isDigit_nul]
  | cons d rest =>
    rw [h] at hc
    obtain rfl : d = c := by simpa [cString] using hc
    have hd := List.head?_dropWhile_not Char.isDigit str
    rw [h] at hd
    simpa using hd

theorem scanDigits_cString (str : List Char) (value : ℤ) :
    scanDigits value (cString str) = (cInt.accumulate value (str.takeWhile Char.isDigit)).elim
      (.error .overflow) fun v => .ok (v, cString (str.dropWhile Char.isDigit)) := by
  have happ : cString str =
      str.takeWhile Char.isDigit ++ cString (str.dropWhile Char.isDigit) := by
    rw [cString, cString, ← List.append_assoc, List.takeWhile_append_dropWhile]
  have hdigits : ∀ c ∈ str.takeWhile Char.isDigit, c.isDigit := fun c hc =>
    List.all_eq_true.mp List.all_takeWhile c hc
  rw [happ]
  exact scanDigits_append hdigits (head?_dropWhile_isDigit str) (by simp [cString]) value

/-- What the branch for `%d` finds, given the parts of the text in front of it. -/
def foundNumber (negative : Bool) (digits rest : List Char) :
    Except Undefined (Option (ℤ × List Char)) :=
  if digits = [] then .ok none
  else (cInt.read negative digits).elim (.error .overflow) fun v => .ok (some (v, cString rest))

theorem scanNumber_cString (negative : Bool) (str : List Char) :
    scanNumber negative (cString str) =
      foundNumber negative (str.takeWhile Char.isDigit) (str.dropWhile Char.isDigit) := by
  cases str with
  | nil => rfl
  | cons c str =>
    unfold scanNumber
    change (if c.isDigit then _ else _) = _
    by_cases hc : c.isDigit
    · have hdigits : (c :: str).takeWhile Char.isDigit ≠ [] := by simp [hc]
      rw [if_pos hc, scanDigits_cString, foundNumber, if_neg hdigits, SignedType.read]
      cases cInt.accumulate 0 ((c :: str).takeWhile Char.isDigit) with
      | none => rfl
      | some v =>
        cases negative with
        | true => rfl
        | false =>
          change (int (-v) >>= _) = ((cInt.check (-v)).elim _ _ : Except _ _)
          rw [int]
          cases cInt.check (-v) <;> rfl
    · rw [if_neg hc, foundNumber, if_pos (by simp [hc])]
      rfl

theorem scanInt_cString (str : List Char) : scanInt (cString str) =
    foundNumber (numberAt str).1 (numberAt str).2.1 (numberAt str).2.2 := by
  unfold scanInt
  cases str with
  | nil => rfl
  | cons c str =>
    change (if c = '-' then scanNumber true (cString str) else scanNumber false (cString (c :: str))) = _
    by_cases hc : c = '-'
    · rw [if_pos hc, scanNumber_cString, hc]
      rfl
    · rw [if_neg hc, scanNumber_cString]
      simp [numberAt, hc]

end Branches

section Format

/-- The end of a loop that goes on to store the given values, or that overflows. -/
def finish (valCnt : ℕ) (stored : List Stored) : Option (List Stored) → Except Undefined Scanned
  | some vs => .ok ⟨valCnt + vs.length, stored ++ vs⟩
  | none => .error .overflow

/-- What a token is stored as; `none` if it does not fit. -/
def Token.store (t : Token) : Option Stored := if t.Fits then some t.value else none

theorem finish_cons (valCnt : ℕ) (stored : List Stored) (v : Stored) (vs : Option (List Stored)) :
    finish (valCnt + 1) (stored ++ [v]) vs = finish valCnt stored (vs.map (v :: ·)) := by
  cases vs with
  | none => rfl
  | some vs => simp [finish, Nat.add_assoc, Nat.add_comm 1]

theorem mapM_store_cons (t : Token) (ts : List Token) :
    (t :: ts).mapM Token.store =
      if t.Fits then (ts.mapM Token.store).map (t.value :: ·) else none := by
  rw [List.mapM_cons, Token.store]
  split
  · cases ts.mapM Token.store <;> rfl
  · rfl

theorem scanFormat_int (format str : List Char) (valCnt : ℕ) (stored : List Stored) :
    scanFormat ('%' :: 'd' :: format) str valCnt stored = scanInt str >>= fun
      | some (value, str) => scanFormat format str (valCnt + 1) (stored ++ [.int value])
      | none => .ok ⟨valCnt, stored⟩ := by
  rw [scanFormat]
  rfl

theorem scanFormat_char (format str : List Char) (valCnt : ℕ) (stored : List Stored) :
    scanFormat ('%' :: 'c' :: format) str valCnt stored = scanChar str >>= fun
      | some (value, str) => scanFormat format str (valCnt + 1) (stored ++ [.char value])
      | none => .ok ⟨valCnt, stored⟩ := by
  rw [scanFormat]
  rfl

theorem scanFormat_literal {f : Char} {format : List Char} (hnul : f ≠ nul)
    (hint : ∀ fmt, f = '%' → format = 'd' :: fmt → False)
    (hchar : ∀ fmt, f = '%' → format = 'c' :: fmt → False) (str : List Char) (valCnt : ℕ)
    (stored : List Stored) :
    scanFormat (f :: cString format) str valCnt stored = deref str >>= fun c =>
      if f = c then scanFormat (cString format) str.tail valCnt stored
      else .ok ⟨valCnt, stored⟩ := by
  rw [scanFormat, if_neg hnul]
  · rfl
  · intro _ hnil
    simp [cString] at hnil
  · intro fmt hf hfmt
    cases format with
    | nil => exact absurd (List.cons.inj hfmt).1 (by decide)
    | cons g format => exact hint format hf (by rw [(List.cons.inj hfmt).1])
  · intro fmt hf hfmt
    cases format with
    | nil => exact absurd (List.cons.inj hfmt).1 (by decide)
    | cons g format => exact hchar format hf (by rw [(List.cons.inj hfmt).1])

theorem rest_subset (str : List Char) : (numberAt str).2.2 ⊆ str := by
  unfold numberAt
  split
  · exact List.Subset.trans (List.dropWhile_sublist _).subset (List.subset_cons_self ..)
  · exact (List.dropWhile_sublist _).subset

/-- On strings without inner terminators the scanner stores what the consumed tokens denote, up
to the first number that does not belong to `int`; it never reads behind a terminator. -/
theorem scanFormat_cString (format str : List Char) (valCnt : ℕ) (stored : List Stored)
    (hf : nul ∉ format) (hs : nul ∉ str) :
    scanFormat (cString format) (cString str) valCnt stored =
      finish valCnt stored ((consumed format str).mapM Token.store) := by
  -- the cases are those of the walk over the format and the text together
  fun_induction consumed format str generalizing valCnt stored with
  | case1 str =>
    change scanFormat [nul] (cString str) valCnt stored = _
    have hnul : nul ≠ '%' := by decide
    rw [scanFormat, if_pos rfl]
    · simp [finish]
      rfl
    · exact fun h => absurd h hnul
    · exact fun _ h => absurd h hnul
    · exact fun _ h => absurd h hnul
  | case2 format str negative rest hnum =>
    change scanFormat ('%' :: 'd' :: cString format) (cString str) valCnt stored = _
    rw [scanFormat_int, scanInt_cString, hnum, foundNumber, if_pos rfl]
    simp [finish]
  | case3 format str negative digits rest hnum hdigits ih =>
    have hrest : nul ∉ rest := fun h => hs (rest_subset str (by rwa [hnum]))
    have hformat : nul ∉ format := by simp_all
    change scanFormat ('%' :: 'd' :: cString format) (cString str) valCnt stored = _
    rw [scanFormat_int, scanInt_cString, hnum, foundNumber, if_neg hdigits, SignedType.read_eq,
      mapM_store_cons]
    by_cases hfits : (Token.number negative digits).Fits
    · rw [SignedType.check_of_mem hfits, if_pos hfits, ← finish_cons, ← ih _ _ hformat hrest]
      rfl
    · have hnone : cInt.check (signedNumber negative digits) = none := if_neg hfits
      rw [hnone, if_neg hfits]
      rfl
  | case4 format =>
    change scanFormat ('%' :: 'c' :: cString format) (cString []) valCnt stored = _
    rw [scanFormat_char]
    simp [scanChar, cString, deref, isAlpha_nul, finish]
  | case5 format c str hc ih =>
    have hformat : nul ∉ format := by simp_all
    have hstr : nul ∉ str := by simp_all
    change scanFormat ('%' :: 'c' :: cString format) (c :: cString str) valCnt stored = _
    rw [scanFormat_char, mapM_store_cons, if_pos (show (Token.letter c).Fits from trivial),
      ← finish_cons, ← ih _ _ hformat hstr]
    simp [scanChar, deref, hc, Token.value]
  | case6 format c str hc =>
    change scanFormat ('%' :: 'c' :: cString format) (c :: cString str) valCnt stored = _
    rw [scanFormat_char]
    simp [scanChar, deref, hc, finish]
  | case7 f format hint hchar =>
    have hnul : f ≠ nul := fun h => hf (h ▸ List.mem_cons_self ..)
    change scanFormat (f :: cString format) [nul] valCnt stored = _
    rw [scanFormat_literal hnul hint hchar]
    simp [deref, hnul, finish]
  | case8 format c str hint hchar ih =>
    have hnul : c ≠ nul := fun h => hf (h ▸ List.mem_cons_self ..)
    have hformat : nul ∉ format := by simp_all
    have hstr : nul ∉ str := by simp_all
    change scanFormat (c :: cString format) (c :: cString str) valCnt stored = _
    rw [scanFormat_literal hnul hint hchar, ← ih _ _ hformat hstr]
    simp [deref]
  | case9 f format c str hint hchar hne =>
    have hnul : f ≠ nul := fun h => hf (h ▸ List.mem_cons_self ..)
    change scanFormat (f :: cString format) (c :: cString str) valCnt stored = _
    rw [scanFormat_literal hnul hint hchar]
    simp [deref, hne, finish]

end Format

theorem vsscanf_cString {format str : List Char} (hf : nul ∉ format) (hs : nul ∉ str) :
    vsscanf (cString str) (cString format) =
      finish 0 [] ((consumed format str).mapM Token.store) := scanFormat_cString format str 0 [] hf hs

end MongoSgx
