import Mathlib.Data.Vector.Defs
import MongoSgx.Memory.Bytes
import MongoSgx.Runs.Longest
import MongoSgx.Scanner.Vsscanf

/-! # Printing addresses

`inet_ntop` prints an address into a scratch array on its stack and copies the
text to the buffer of the caller. Both functions hand back `NULL`, or `dst` after
a call of `strncpy`: what they store there is a list of characters from `dst` on.
The scratch arrays hold what was on the stack before.
-/

namespace MongoSgx

open Memory Runs

section CharArrays

def strlen (array : List Char) : Except Undefined ℕ :=
  if nul ∈ array then .ok (array.takeWhile (· ≠ nul)).length else .error .outOfBounds

def strnlen (array : List Char) (n : ℕ) : ℕ := ((array.take n).takeWhile (· ≠ nul)).length

/-- What `strncpy` stores: at most `n` characters, filled up with terminators. -/
def strncpy (array : List Char) (n : ℕ) : List Char :=
  let text := (array.take n).takeWhile (· ≠ nul)
  text ++ List.replicate (n - text.length) nul

/-- What `snprintf` stores; it returns the length of the text. -/
def snprintf (n : ℕ) (text : List Char) : List Char := text.take (n - 1) ++ [nul]

def storeChars (array chars : List Char) : Except Undefined (List Char) :=
  if chars.length ≤ array.length then .ok (chars ++ array.drop chars.length)
  else .error .outOfBounds

end CharArrays

/-- A pointer into an array, by the characters in front of it and those from it on. -/
structure CharPointer where
  before : List Char
  after : List Char

namespace CharPointer

/-- `tp += n` -/
def advance (tp : CharPointer) (n : ℕ) : CharPointer :=
  ⟨tp.before ++ tp.after.take n, tp.after.drop n⟩

def write (tp : CharPointer) (chars : List Char) : Except Undefined CharPointer := do
  let after ← storeChars tp.after chars
  return ⟨tp.before, after⟩

/-- `*tp++ = c` -/
def put (tp : CharPointer) (c : Char) : Except Undefined CharPointer := do
  let tp ← tp.write [c]
  return tp.advance 1

/-- `if (p) *tp++ = c` -/
def putIf (tp : CharPointer) (p : Bool) (c : Char) : Except Undefined CharPointer :=
  if p then tp.put c else .ok tp

end CharPointer

/-- What the scratch arrays hold before anything is printed. Their sizes are those of
`"255.255.255.255"` and `"ffff:ffff:ffff:ffff:ffff:ffff:255.255.255.255"`. -/
structure Scratch where
  ntop4 : List.Vector Char 16
  ntop6 : List.Vector Char 46

def afInet : ℤ := 2

def afInet6 : ℤ := 10

/-- `%u` -/
def printU (n : ℕ) : List Char := Nat.toDigits 10 n

/-- `%x` -/
def printX (n : ℕ) : List Char := Nat.toDigits 16 n

/-- `%u.%u.%u.%u` -/
def printQuad (src : Mem) : List Char :=
  printU (src 0).toNat ++ '.' :: printU (src 1).toNat ++ '.' :: printU (src 2).toNat ++
    '.' :: printU (src 3).toNat

def inetNtop4 (src : Mem) (size : ℕ) (scratch : Scratch) :
    Except Undefined (Option (List Char)) := do
  let tmp ← storeChars scratch.ntop4.toList (snprintf 16 (printQuad src))
  if size ≤ (printQuad src).length then return none
  else return some (strncpy tmp (strnlen tmp 16))

def word (src : Mem) (i : ℕ) : ℕ := (src (2 * i)).toNat <<< 8 ||| (src (2 * i + 1)).toNat

def words (src : Mem) : List ℕ := (List.range 8).map (word src)

/-- The end of a run of zeros; `none` is the base `-1`. -/
def closeRun (best cur : Option Span) : Option Span :=
  match cur, best with
  | none, best => best
  | some cur, none => some cur
  | some cur, some best => if best.len < cur.len then some cur else some best

/-- The loop over the words, from word `i` on, and the run that ends with it. -/
def scanRuns : ℕ → List ℕ → Option Span → Option Span → Option Span
  | _, [], best, cur => closeRun best cur
  | i, word :: words, best, cur =>
    if word = 0 then
      scanRuns (i + 1) words best (some (cur.elim ⟨i, 1⟩ fun cur => ⟨cur.base, cur.len + 1⟩))
    else scanRuns (i + 1) words (closeRun best cur) none

def bestRun (src : Mem) : Option Span :=
  (scanRuns 0 (words src) none none).filter fun best => 2 ≤ best.len

def inside (best : Option Span) (i : ℕ) : Bool :=
  best.any fun r => r.base ≤ i && i < r.base + r.len

/-- The address holds an IPv4 address, which is printed as one. -/
def encapsulates (src : Mem) (best : Option Span) : Bool :=
  best.any fun r => r.base = 0 && (r.len = 6 || (r.len = 5 && word src 5 = 0xffff))

/-- The loop that formats the words with the given indices; `none` is the `NULL` that it returns
if the IPv4 address is not printed. -/
def formatWords (src : Mem) (best : Option Span) (scratch : Scratch) :
    List ℕ → CharPointer → Except Undefined (Option CharPointer)
  | [], tp => .ok (some tp)
  | i :: is, tp =>
    if inside best i then do
      let tp ← tp.putIf (best.any fun r => i = r.base) ':'
      formatWords src best scratch is tp
    else do
      let tp ← tp.putIf (i ≠ 0) ':'
      if i = 6 && encapsulates src best then
        match ← inetNtop4 (fun k => src (12 + k)) (46 - tp.before.length) scratch with
        | none => return none
        | some text =>
          let tp ← tp.write text
          let length ← strlen tp.after
          return some (tp.advance length)
      else
        let tp ← tp.write (snprintf 46 (printX (word src i)))
        formatWords src best scratch is (tp.advance (printX (word src i)).length)

def inetNtop6 (src : Mem) (size : ℕ) (scratch : Scratch) :
    Except Undefined (Option (List Char)) := do
  let best := bestRun src
  match ← formatWords src best scratch (List.range 8) ⟨[], scratch.ntop6.toList⟩ with
  | none => return none
  | some tp =>
    let tp ← tp.putIf (best.any fun r => r.base + r.len = 8) ':'
    let tp ← tp.put nul
    if size < tp.before.length then return none
    else return some (strncpy (tp.before ++ tp.after) 46)

/-- The characters that are stored from `dst` on, which is then returned, or `none` for `NULL`. -/
def inetNtop (af : ℤ) (src : Mem) (size : ℕ) (scratch : Scratch) :
    Except Undefined (Option (List Char)) :=
  if af = afInet then inetNtop4 src size scratch
  else if af = afInet6 then inetNtop6 src size scratch
  else .ok none

end MongoSgx
