import MongoSgx.Inet.Ntop

/-! # Parsing addresses

`inet_pton` reads a text up to its terminator. The parser of an IPv4 address
builds four octets. That of an IPv6 address builds words, remembers where two
colons stood and inserts the zeros for them at the end; at a dot it goes back to
the last colon and reads an IPv4 address from there. What is read is stored in
`dst` only if the whole text is an address.
-/

namespace MongoSgx

/-- The value of a digit, or none for `-1`. -/
def hexDigitValue (ch : Char) : Option ℕ :=
  if '0' ≤ ch ∧ ch ≤ '9' then some (ch.toNat - '0'.toNat)
  else if 'a' ≤ ch ∧ ch ≤ 'f' then some (ch.toNat - 'a'.toNat + 10)
  else if 'A' ≤ ch ∧ ch ≤ 'F' then some (ch.toNat - 'A'.toNat + 10)
  else none

/-- The variables of `inet_pton4`: the octets in front of `tp`, and the one that `tp` points to. -/
structure Pton4 where
  front : List UInt8
  tp : UInt8
  sawDigit : Bool
  octets : ℕ

def Pton4.turn (st : Pton4) (ch : Char) : Option Pton4 :=
  if '0' ≤ ch ∧ ch ≤ '9' then
    let new := st.tp.toNat * 10 + (ch.toNat - '0'.toNat)
    if st.sawDigit ∧ st.tp = 0 then none
    else if 255 < new then none
    else if st.sawDigit then some { st with tp := .ofNat new }
    else if 4 < st.octets + 1 then none
    else some { st with tp := .ofNat new, octets := st.octets + 1, sawDigit := true }
  else if ch = '.' ∧ st.sawDigit then
    if st.octets = 4 then none
    else some { st with front := st.front ++ [st.tp], tp := 0, sawDigit := false }
  else none

/-- The bytes that are stored in `dst` when 1 is returned; `none` when 0 is. -/
def inetPton4 (src : List Char) : Option (List UInt8) := do
  let st ← src.foldlM Pton4.turn ⟨[], 0, false, 0⟩
  if st.octets < 4 then none else some (st.front ++ [st.tp])

/-- The variables of `inet_pton6`: the bytes in front of `tp`, and `colonp` as an index. -/
structure Pton6 where
  tmp : List UInt8
  colonp : Option ℕ
  curtok : List Char
  xdigitsSeen : ℕ
  val : ℕ

def wordBytes (val : ℕ) : List UInt8 := [.ofNat (val >>> 8), .ofNat val]

/-- The loop, which a dot ends. -/
def pton6Loop : List Char → Pton6 → Option Pton6
  | [], st => some st
  | ch :: src, st =>
    match hexDigitValue ch with
    | some digit =>
      if st.xdigitsSeen = 4 then none
      else if 0xffff < (st.val <<< 4 ||| digit) then none
      else pton6Loop src
        { st with val := st.val <<< 4 ||| digit, xdigitsSeen := st.xdigitsSeen + 1 }
    | none =>
      if ch = ':' then
        if st.xdigitsSeen = 0 then
          if st.colonp.isSome then none
          else pton6Loop src { st with curtok := src, colonp := some st.tmp.length }
        else if src = [] then none
        else if 16 < st.tmp.length + 2 then none
        else pton6Loop src
          { st with curtok := src, tmp := st.tmp ++ wordBytes st.val, xdigitsSeen := 0, val := 0 }
      else if ch = '.' ∧ st.tmp.length + 4 ≤ 16 then do
        let quad ← inetPton4 st.curtok
        return { st with tmp := st.tmp ++ quad, xdigitsSeen := 0 }
      else none

def leadingColon : List Char → Option (List Char)
  | [] => none
  | ':' :: ':' :: src => some (':' :: src)
  | ':' :: _ => none
  | src => some src

def lastWord (st : Pton6) : Option (List UInt8) :=
  if 0 < st.xdigitsSeen then
    if 16 < st.tmp.length + 2 then none else some (st.tmp ++ wordBytes st.val)
  else some st.tmp

def expandColons (colonp : Option ℕ) (tmp : List UInt8) : Option (List UInt8) :=
  match colonp with
  | none => some tmp
  | some colonp =>
    if tmp.length = 16 then none
    else some (tmp.take colonp ++ List.replicate (16 - tmp.length) 0 ++ tmp.drop colonp)

def inetPton6 (src : List Char) : Option (List UInt8) := do
  let src ← leadingColon src
  let st ← pton6Loop src ⟨[], none, src, 0, 0⟩
  let tmp ← lastWord st
  let tmp ← expandColons st.colonp tmp
  if tmp.length = 16 then some tmp else none

/-- The return value, and what is stored from `dst` on. -/
structure Parsed where
  returned : ℤ
  stored : List UInt8
  deriving DecidableEq

/-- `dst` is touched only when 1 is returned. -/
def parsed : Option (List UInt8) → Parsed
  | none => ⟨0, []⟩
  | some bytes => ⟨1, bytes⟩

/-- `src` are the characters that may be read. -/
def inetPton (af : ℤ) (src : List Char) : Except Undefined Parsed :=
  if af = afInet then do
    let length ← strlen src
    return parsed (inetPton4 (src.take length))
  else if af = afInet6 then do
    let length ← strlen src
    return parsed (inetPton6 (src.take length))
  else .ok ⟨-1, []⟩

/-- The octets that have been begun are those in front of `tp`, and the one there once a digit of
it was seen; `tp` stays within the array. -/
structure Pton4.Counts (st : Pton4) : Prop where
  octets : st.octets = st.front.length + st.sawDigit.toNat
  octets_le : st.octets ≤ 4
  front_le : st.front.length ≤ 3

theorem Pton4.counts_start : Pton4.Counts ⟨[], 0, false, 0⟩ := ⟨rfl, by decide, by decide⟩

theorem Pton4.Counts.turn {st st' : Pton4} {ch : Char} (h : st.Counts)
    (hturn : st.turn ch = some st') : st'.Counts := by
  obtain ⟨front, tp, sawDigit, octets⟩ := st
  obtain ⟨hoctets, hle, hfront⟩ := h
  change octets = front.length + sawDigit.toNat at hoctets
  change octets ≤ 4 at hle
  change front.length ≤ 3 at hfront
  unfold Pton4.turn at hturn
  split at hturn
  · -- a digit begins an octet, or belongs to the one that was begun
    dsimp only at hturn
    split at hturn
    · cases hturn
    split at hturn
    · cases hturn
    cases sawDigit with
    | true =>
      cases hturn
      exact ⟨hoctets, hle, hfront⟩
    | false =>
      rw [if_neg Bool.false_ne_true] at hturn
      split at hturn
      · cases hturn
      · cases hturn
        rw [Bool.toNat_false] at hoctets
        exact ⟨by simpa using hoctets, by simp; omega, hfront⟩
  · split at hturn
    · -- a dot ends the octet
      next hdot =>
      obtain ⟨-, rfl⟩ : ch = '.' ∧ sawDigit = true := hdot
      dsimp only at hturn
      split at hturn
      · cases hturn
      · cases hturn
        rw [Bool.toNat_true] at hoctets
        exact ⟨by simpa using hoctets, hle, by simp; omega⟩
    · cases hturn

end MongoSgx
