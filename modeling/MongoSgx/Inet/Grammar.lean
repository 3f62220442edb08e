import MongoSgx.Inet.Parsing

/-! # What the parser accepts

An IPv4 address is accepted in the one way in which it is printed. An IPv6 address is
made of groups of one to four hexadecimal digits in either case, with colons between
them; two colons may stand once for a run of zero words, and an IPv4 address for the
last two words. The parser accepts these texts, no other, and reads each as the bytes
that its groups stand for.
-/

namespace MongoSgx

open Memory Numeral

section Quads

/-- What the loop has read: octets with a dot behind each, and the octet that is open. -/
structure Spelled (done : List Char) (st : Pton4) : Prop where
  text : done = (st.front.flatMap fun b => Nat.toDigits 10 b.toNat ++ ['.']) ++
    if st.sawDigit then Nat.toDigits 10 st.tp.toNat else []
  unread : st.sawDigit = false → st.tp = 0

variable {done text : List Char} {st st' : Pton4} {ch : Char}

theorem digitChar_of_decimal (h : '0' ≤ ch ∧ ch ≤ '9') :
    ch.toNat - '0'.toNat < 10 ∧ ch = (ch.toNat - '0'.toNat).digitChar := by
  obtain ⟨hlo, hhi⟩ := h
  have hlo : '0'.toNat ≤ ch.toNat := hlo
  have hhi : ch.toNat ≤ '9'.toNat := hhi
  have hlt : ch.toNat - '0'.toNat < 10 := by
    have h9 : '9'.toNat = '0'.toNat + 9 := rfl
    omega
  refine ⟨hlt, ?_⟩
  obtain ⟨hlo', -, hvalue⟩ := decimal_digitChar _ hlt
  have hlo' : '0'.toNat ≤ (ch.toNat - '0'.toNat).digitChar.toNat := hlo'
  apply Char.toNat_inj.mp
  omega

theorem Spelled.turn (h : Spelled done st) (hturn : st.turn ch = some st') :
    Spelled (done ++ [ch]) st' := by
  obtain ⟨front, tp, sawDigit, octets⟩ := st
  obtain ⟨htext, hunread⟩ := h
  dsimp only at htext hunread
  unfold Pton4.turn at hturn
  split at hturn
  · next hdigit =>
    obtain ⟨hlt, hch⟩ := digitChar_of_decimal hdigit
    dsimp only at hturn
    generalize ch.toNat - '0'.toNat = d at hturn hlt hch
    split at hturn
    · cases hturn
    next hzero =>
    split at hturn
    · cases hturn
    next hle =>
    have hnat : (UInt8.ofNat (tp.toNat * 10 + d)).toNat = 10 * tp.toNat + d := by
      rw [UInt8.toNat_ofNat_of_lt' (by change _ < 256; omega)]
      omega
    cases sawDigit with
    | true =>
      -- a further digit of an octet that does not begin with a zero
      cases hturn
      have hpos : 0 < tp.toNat := by
        rcases Nat.eq_zero_or_pos tp.toNat with h0 | hpos
        · exact absurd ⟨rfl, UInt8.toNat_inj.mp h0⟩ hzero
        · exact hpos
      refine ⟨?_, nofun⟩
      dsimp only
      rw [htext, if_pos rfl, if_pos rfl, hnat, List.append_assoc,
        toDigits_eq_append (by decide) (n := 10 * tp.toNat + d) (by omega), hch]
      congr 3
      · omega
      · congr 1
        omega
    | false =>
      rw [if_neg Bool.false_ne_true] at hturn
      split at hturn
      · cases hturn
      · cases hturn
        obtain rfl := hunread rfl
        refine ⟨?_, nofun⟩
        dsimp only
        rw [htext, if_neg Bool.false_ne_true, if_pos rfl, hnat, hch, List.append_nil]
        congr 1
        rw [Nat.toDigits_of_lt_base (by simpa using hlt)]
        simp
  · split at hturn
    · next hdot =>
      obtain ⟨rfl, rfl⟩ : ch = '.' ∧ sawDigit = true := hdot
      dsimp only at hturn
      split at hturn
      · cases hturn
      · cases hturn
        refine ⟨?_, fun _ => rfl⟩
        dsimp only
        rw [htext, if_pos rfl, if_neg Bool.false_ne_true]
        simp
    · cases hturn

theorem exists_quadText {front : List UInt8} (hlen : front.length = 3) (b : UInt8) :
    ∃ src : Mem, (front.flatMap fun b => Nat.toDigits 10 b.toNat ++ ['.']) ++
      Nat.toDigits 10 b.toNat = quadText src ∧ front ++ [b] = load src 0 4 := by
  obtain ⟨b₀, b₁, b₂, rfl⟩ : ∃ b₀ b₁ b₂, front = [b₀, b₁, b₂] := List.length_eq_three.mp hlen
  refine ⟨fun i => [b₀, b₁, b₂, b].getD i 0, ?_, rfl⟩
  rw [← printQuad_eq, printQuad]
  simp [printU]

theorem inetPton4_eq_some_iff {bytes : List UInt8} : inetPton4 text = some bytes ↔
    ∃ src : Mem, text = quadText src ∧ bytes = load src 0 4 := by
  constructor
  · intro h
    have hrun : ∀ (rest done : List Char) (st st' : Pton4), Spelled done st → st.Counts →
        rest.foldlM Pton4.turn st = some st' → Spelled (done ++ rest) st' ∧ st'.Counts := by
      intro rest
      induction rest with
      | nil =>
        intro done st st' hst hcounts hrun
        cases hrun
        rw [List.append_nil]
        exact ⟨hst, hcounts⟩
      | cons ch rest ih =>
        intro done st st' hst hcounts hrun
        rw [List.foldlM_cons, Option.bind_eq_bind, Option.bind_eq_some_iff] at hrun
        obtain ⟨next, hturn, hrun⟩ := hrun
        rw [List.append_cons]
        exact ih _ next st' (hst.turn hturn) (hcounts.turn hturn) hrun
    rw [inetPton4, Option.bind_eq_bind, Option.bind_eq_some_iff] at h
    obtain ⟨st, hst, hend⟩ := h
    obtain ⟨hspelled, hcounts⟩ := hrun text [] _ st ⟨rfl, fun _ => rfl⟩ Pton4.counts_start hst
    split at hend
    · cases hend
    · next hfour =>
      cases hend
      obtain ⟨front, tp, sawDigit, octets⟩ := st
      obtain ⟨hoctets, hle, hfront⟩ := hcounts
      dsimp only at hoctets hle hfront hfour
      cases sawDigit with
      | false =>
        rw [Bool.toNat_false] at hoctets
        omega
      | true =>
        rw [Bool.toNat_true] at hoctets
        obtain ⟨src, htext, hbytes⟩ := exists_quadText (show front.length = 3 by omega) tp
        exact ⟨src, hspelled.text.trans htext, hbytes⟩
  · rintro ⟨src, rfl, rfl⟩
    exact inetPton4_quadText src

end Quads

section Words

def HexDigit (ch : Char) (d : ℕ) : Prop :=
  d < 16 ∧ (ch = d.digitChar ∨ ch = d.digitChar.toUpper)

def IsGroup (g : List Char) (w : ℕ) : Prop :=
  g ≠ [] ∧ g.length ≤ 4 ∧ ∃ ds, List.Forall₂ HexDigit g ds ∧ w = ds.foldl (16 * · + ·) 0

variable {ch : Char} {d k v w : ℕ} {g rest text : List Char} {ds : List ℕ} {tmp : List UInt8}
  {colonp : Option ℕ} {curtok : List Char} {st : Pton6}

theorem hexDigitValue_of_hexDigit (h : HexDigit ch d) : hexDigitValue ch = some d := by
  obtain ⟨hd, rfl | rfl⟩ := h
  · exact hexDigitValue_digitChar d hd
  · have hupper : ∀ d < 16, hexDigitValue d.digitChar.toUpper = some d := by decide
    exact hupper d hd

theorem hexDigit_of_hexDigitValue (h : hexDigitValue ch = some d) : HexDigit ch d := by
  have hlower : ∀ d < 16, 10 ≤ d → d.digitChar.toNat = d - 10 + 'a'.toNat := by decide
  have hupper : ∀ d < 16, 10 ≤ d → d.digitChar.toUpper.toNat = d - 10 + 'A'.toNat := by decide
  unfold hexDigitValue at h
  split at h
  · next hdigit =>
    obtain ⟨hlt, hch⟩ := digitChar_of_decimal hdigit
    obtain rfl := Option.some.inj h
    exact ⟨by omega, .inl hch⟩
  split at h
  · next hdigit =>
    obtain rfl := Option.some.inj h
    have hlo : 'a'.toNat ≤ ch.toNat := hdigit.1
    have hhi : ch.toNat ≤ 'a'.toNat + 5 := hdigit.2
    refine ⟨by omega, .inl (Char.toNat_inj.mp ?_)⟩
    rw [hlower _ (by omega) (by omega)]
    omega
  split at h
  · next hdigit =>
    obtain rfl := Option.some.inj h
    have hlo : 'A'.toNat ≤ ch.toNat := hdigit.1
    have hhi : ch.toNat ≤ 'A'.toNat + 5 := hdigit.2
    refine ⟨by omega, .inr (Char.toNat_inj.mp ?_)⟩
    rw [hupper _ (by omega) (by omega)]
    omega
  · cases h

theorem pton6Loop_hexDigit (h : HexDigit ch d) (hk : k < 4) (hv : v < 16 ^ k) :
    pton6Loop (ch :: rest) ⟨tmp, colonp, curtok, k, v⟩ =
      pton6Loop rest ⟨tmp, colonp, curtok, k + 1, 16 * v + d⟩ := by
  have hd := h.1
  have hpow : 16 ^ (k + 1) ≤ 16 ^ 4 := Nat.pow_le_pow_right (by decide) (by omega)
  have hlt : 16 * v + d < 16 ^ (k + 1) := by
    rw [Nat.pow_succ]
    omega
  have hval : v <<< 4 ||| d = 16 * v + d := by
    rw [← Nat.shiftLeft_add_eq_or_of_lt hd, Nat.shiftLeft_eq]
    omega
  rw [pton6Loop, hexDigitValue_of_hexDigit h]
  simp only [hval]
  rw [if_neg (Nat.ne_of_lt hk), if_neg (by omega)]

theorem pton6Loop_hexDigits (h : List.Forall₂ HexDigit g ds) (hk : k + g.length ≤ 4)
    (hv : v < 16 ^ k) (rest : List Char) :
    pton6Loop (g ++ rest) ⟨tmp, colonp, curtok, k, v⟩ =
      pton6Loop rest ⟨tmp, colonp, curtok, k + g.length, ds.foldl (16 * · + ·) v⟩ := by
  induction h generalizing k v with
  | nil => rfl
  | @cons ch d g ds hch _ ih =>
    rw [List.length_cons] at hk
    have hlt : 16 * v + d < 16 ^ (k + 1) := by
      have hd := hch.1
      rw [Nat.pow_succ]
      omega
    rw [List.cons_append, pton6Loop_hexDigit hch (by omega) hv, ih (by omega) hlt,
      List.length_cons, List.foldl_cons, Nat.add_right_comm, Nat.add_assoc]

/-- The loop does not read a fifth digit. -/
theorem length_hexDigits_le (h : List.Forall₂ HexDigit g ds) (hk : k ≤ 4)
    (hst : pton6Loop (g ++ rest) ⟨tmp, colonp, curtok, k, v⟩ = some st) : k + g.length ≤ 4 := by
  induction h generalizing k v with
  | nil => exact hk
  | @cons ch d g ds hch _ ih =>
    rw [List.cons_append, pton6Loop, hexDigitValue_of_hexDigit hch] at hst
    dsimp only at hst
    split at hst
    · cases hst
    · split at hst
      · cases hst
      · next hne _ =>
        have hle := ih (by omega) hst
        rw [List.length_cons]
        omega

theorem exists_hexDigits (text : List Char) : ∃ g ds rest, text = g ++ rest ∧
    List.Forall₂ HexDigit g ds ∧ ∀ ch rest', rest = ch :: rest' → hexDigitValue ch = none := by
  induction text with
  | nil => exact ⟨[], [], [], rfl, .nil, nofun⟩
  | cons ch text ih =>
    cases hch : hexDigitValue ch with
    | none =>
      refine ⟨[], [], ch :: text, rfl, .nil, ?_⟩
      rintro _ _ ⟨⟩
      exact hch
    | some d =>
      obtain ⟨g, ds, rest, rfl, hds, hrest⟩ := ih
      exact ⟨ch :: g, d :: ds, rest, rfl, .cons (hexDigit_of_hexDigitValue hch) hds, hrest⟩

/-- What the loop has done when it has come to an end from the beginning of a group: there was
nothing left, a last word, a further colon, a word and a colon, or an IPv4 address. -/
inductive Ends (tmp : List UInt8) (colonp : Option ℕ) (text : List Char) (st : Pton6) : Prop
  | nil (htext : text = []) (hcolonp : st.colonp = colonp) (hlast : lastWord st = some tmp)
  | word {w : ℕ} (hw : IsGroup text w) (hcolonp : st.colonp = colonp)
      (hlast : ∀ out, lastWord st = some out → out = tmp ++ wordBytes w)
  | colon {rest : List Char} (htext : text = ':' :: rest) (hcolonp : colonp = none)
      (hst : fromGroup tmp (some tmp.length) rest = some st)
  | group {g rest : List Char} {w : ℕ} (htext : text = g ++ ':' :: rest) (hw : IsGroup g w)
      (hne : rest ≠ []) (hst : fromGroup (tmp ++ wordBytes w) colonp rest = some st)
  | quad {src : Mem} (htext : text = quadText src) (hcolonp : st.colonp = colonp)
      (hlast : lastWord st = some (tmp ++ load src 0 4))

theorem ends_of_fromGroup (h : fromGroup tmp colonp text = some st) : Ends tmp colonp text st := by
  obtain ⟨g, ds, rest, rfl, hds, hrest⟩ := exists_hexDigits text
  have hlen : 0 + g.length ≤ 4 := length_hexDigits_le hds (by decide) h
  rw [fromGroup, pton6Loop_hexDigits hds hlen (by decide), Nat.zero_add] at h
  rw [Nat.zero_add] at hlen
  have hgroup : g ≠ [] → IsGroup g (ds.foldl (16 * · + ·) 0) := fun hne => ⟨hne, hlen, ds, hds, rfl⟩
  cases rest with
  | nil =>
    rw [List.append_nil] at h ⊢
    cases h
    by_cases hnil : g = []
    · subst hnil
      exact .nil rfl rfl rfl
    · refine .word (hgroup hnil) rfl fun out hout => ?_
      rw [lastWord, if_pos (List.length_pos_iff.mpr hnil)] at hout
      split at hout
      · cases hout
      · exact (Option.some.inj hout).symm
  | cons ch rest =>
    rw [pton6Loop, hrest ch rest rfl] at h
    dsimp only at h
    split at h
    · next hch =>
      subst hch
      split at h
      · next hnil =>
        obtain rfl := List.length_eq_zero_iff.mp hnil
        cases hds
        cases colonp with
        | some p => cases h
        | none => exact .colon rfl rfl h
      · next hne =>
        split at h
        · cases h
        split at h
        · cases h
        · next hrest _ =>
          exact .group rfl (hgroup fun hnil => hne (List.length_eq_zero_iff.mpr hnil)) hrest h
    · split at h
      · -- the IPv4 address is read from the beginning of the group
        rw [Option.bind_eq_bind, Option.bind_eq_some_iff] at h
        obtain ⟨quad, hquad, h⟩ := h
        obtain ⟨src, htext, rfl⟩ := inetPton4_eq_some_iff.mp hquad
        cases h
        exact .quad htext rfl rfl
      · cases h

end Words

section Texts

/-- Groups with colons between them, and the bytes they stand for. The last of them may be an IPv4
address where `quad` says so. -/
inductive Groups (quad : Prop) : List Char → List UInt8 → Prop
  | word {g : List Char} {w : ℕ} (hw : IsGroup g w) : Groups quad g (wordBytes w)
  | quad (h : quad) (src : Mem) : Groups quad (quadText src) (load src 0 4)
  | cons {g text : List Char} {w : ℕ} {bytes : List UInt8} (hw : IsGroup g w)
      (h : Groups quad text bytes) : Groups quad (g ++ ':' :: text) (wordBytes w ++ bytes)

def MaybeGroups (quad : Prop) (text : List Char) (bytes : List UInt8) : Prop :=
  (text = [] ∧ bytes = []) ∨ Groups quad text bytes

inductive IsIpv6 : List Char → List UInt8 → Prop
  | full {text : List Char} {bytes : List UInt8} (h : Groups True text bytes)
      (hlen : bytes.length = 16) : IsIpv6 text bytes
  /-- Two colons stand for one zero word or more. -/
  | elided {front back : List Char} {bytes bytes' : List UInt8} (h : MaybeGroups False front bytes)
      (h' : MaybeGroups True back bytes') (hlen : bytes.length + bytes'.length < 16) :
      IsIpv6 (front ++ ':' :: ':' :: back)
        (bytes ++ List.replicate (16 - (bytes.length + bytes'.length)) 0 ++ bytes')

variable {w : ℕ} {g rest text : List Char} {tmp bytes out : List UInt8} {colonp : Option ℕ}
  {st : Pton6}

theorem groups_behind_colons {p : ℕ} (h : fromGroup tmp (some p) text = some st)
    (hlast : lastWord st = some out) :
    st.colonp = some p ∧ ∃ bytes, out = tmp ++ bytes ∧ MaybeGroups True text bytes := by
  induction hn : text.length using Nat.strong_induction_on generalizing text tmp with
  | _ n ih =>
    subst hn
    cases ends_of_fromGroup h with
    | nil htext hcolonp hend =>
      obtain rfl := Option.some.inj (hend.symm.trans hlast)
      exact ⟨hcolonp, [], (List.append_nil _).symm, .inl ⟨htext, rfl⟩⟩
    | word hw hcolonp hend => exact ⟨hcolonp, _, hend out hlast, .inr (.word hw)⟩
    | colon _ hcolonp => cases hcolonp
    | group htext hw hne hst =>
      subst htext
      obtain ⟨hcolonp, bytes, hout, hbytes⟩ := ih _ (by simp; omega) hst rfl
      rcases hbytes with ⟨hnil, -⟩ | hbytes
      · exact absurd hnil hne
      · exact ⟨hcolonp, _, by rw [hout, List.append_assoc], .inr (.cons hw hbytes)⟩
    | quad htext hcolonp hend =>
      subst htext
      obtain rfl := Option.some.inj (hend.symm.trans hlast)
      exact ⟨hcolonp, _, rfl, .inr (.quad trivial _)⟩

/-- What the loop has read of a text without a leading colon: groups up to the end, or groups, two
colons and groups. The front holds the first of the two colons if there are groups in it. -/
inductive Loops (tmp : List UInt8) (text : List Char) (st : Pton6) (out : List UInt8) : Prop
  | full {bytes : List UInt8} (hcolonp : st.colonp = none) (hout : out = tmp ++ bytes)
      (h : MaybeGroups True text bytes)
  | elided {front back : List Char} {bytes bytes' : List UInt8}
      (htext : text = front ++ ':' :: back)
      (hfront : (front = [] ∧ bytes = []) ∨ ∃ g, front = g ++ [':'] ∧ Groups False g bytes)
      (hcolonp : st.colonp = some (tmp ++ bytes).length) (hout : out = tmp ++ bytes ++ bytes')
      (hback : MaybeGroups True back bytes')

theorem loops_of_fromGroup (h : fromGroup tmp none text = some st)
    (hlast : lastWord st = some out) : Loops tmp text st out := by
  induction hn : text.length using Nat.strong_induction_on generalizing text tmp with
  | _ n ih =>
    subst hn
    cases ends_of_fromGroup h with
    | nil htext hcolonp hend =>
      obtain rfl := Option.some.inj (hend.symm.trans hlast)
      exact .full hcolonp (List.append_nil _).symm (.inl ⟨htext, rfl⟩)
    | word hw hcolonp hend => exact .full hcolonp (hend out hlast) (.inr (.word hw))
    | colon htext _ hst =>
      obtain ⟨hcolonp, bytes, hout, hbytes⟩ := groups_behind_colons hst hlast
      rw [← List.nil_append (':' :: _)] at htext
      refine .elided htext (.inl ⟨rfl, rfl⟩) ?_ ?_ hbytes
      · rw [hcolonp, List.append_nil]
      · rw [hout, List.append_nil]
    | @group g rest w htext hw hne hst =>
      subst htext
      cases ih _ (by simp; omega) hst rfl with
      | full hcolonp hout h =>
        rcases h with ⟨hnil, -⟩ | h
        · exact absurd hnil hne
        · exact .full hcolonp (by rw [hout, List.append_assoc]) (.inr (.cons hw h))
      | @elided front back bytes bytes' htext hfront hcolonp hout hback =>
        have htext' : g ++ ':' :: rest = (g ++ ':' :: front) ++ ':' :: back := by
          rw [htext, List.append_assoc, List.cons_append]
        refine .elided htext' (.inr ?_) (by rw [hcolonp, List.append_assoc])
          (by rw [hout, List.append_assoc tmp]) hback
        rcases hfront with ⟨rfl, rfl⟩ | ⟨g', rfl, hg'⟩
        · exact ⟨g, rfl, by rw [List.append_nil]; exact .word hw⟩
        · exact ⟨g ++ ':' :: g', by rw [List.append_assoc, List.cons_append], .cons hw hg'⟩
    | quad htext hcolonp hend =>
      subst htext
      obtain rfl := Option.some.inj (hend.symm.trans hlast)
      exact .full hcolonp rfl (.inr (.quad trivial _))

theorem fromGroup_group (hw : IsGroup g w) (hroom : tmp.length + 2 ≤ 16) (hne : rest ≠ []) :
    fromGroup tmp colonp (g ++ ':' :: rest) = fromGroup (tmp ++ wordBytes w) colonp rest := by
  obtain ⟨hnil, hlen, ds, hds, rfl⟩ := hw
  have hpos : 0 + g.length ≠ 0 := by
    have := List.length_pos_iff.mpr hnil
    omega
  rw [fromGroup, pton6Loop_hexDigits hds (by omega) (by decide), pton6Loop, hexDigitValue_colon]
  simp only [if_true, hpos, if_false, hne]
  rw [if_neg (by omega)]
  rfl

theorem exists_head_of_isGroup (hw : IsGroup g w) : ∃ c cs, g = c :: cs ∧ c ≠ ':' := by
  obtain ⟨hnil, -, ds, hds, -⟩ := hw
  cases hds with
  | nil => exact absurd rfl hnil
  | cons hch _ =>
    refine ⟨_, _, rfl, ?_⟩
    rintro rfl
    have hvalue := hexDigitValue_of_hexDigit hch
    rw [hexDigitValue_colon] at hvalue
    cases hvalue

theorem exists_head_quadText (src : Mem) : ∃ c cs, quadText src = c :: cs ∧ c ≠ ':' := by
  obtain ⟨c, cs, hcs⟩ := List.exists_cons_of_ne_nil (Nat.toDigits_ne_nil (b := 10)
    (n := (src 0).toNat))
  have hmem : c ∈ Nat.toDigits 10 (src 0).toNat := by
    rw [hcs]
    exact List.mem_cons_self ..
  obtain ⟨d, hd, rfl⟩ := exists_digitChar_of_mem (by decide) hmem
  rw [← printQuad_eq, printQuad, printU, hcs]
  exact ⟨_, _, rfl, colon_ne_digitChar d (by omega)⟩

theorem Groups.exists_head {q : Prop} (h : Groups q text bytes) :
    ∃ c cs, text = c :: cs ∧ c ≠ ':' := by
  cases h with
  | word hw => exact exists_head_of_isGroup hw
  | quad _ src => exact exists_head_quadText src
  | cons hw _ =>
    obtain ⟨c, cs, rfl, hc⟩ := exists_head_of_isGroup hw
    exact ⟨c, _, rfl, hc⟩

theorem Groups.ne_nil {q : Prop} (h : Groups q text bytes) : text ≠ [] := by
  obtain ⟨c, cs, rfl, -⟩ := h.exists_head
  exact List.cons_ne_nil c cs

theorem Groups.reads {q : Prop} (h : Groups q text bytes)
    (hroom : tmp.length + bytes.length ≤ 16) : Reads tmp colonp text bytes := by
  induction h generalizing tmp with
  | @word g w hw =>
    obtain ⟨hnil, hlen, ds, hds, rfl⟩ := hw
    have hpos := List.length_pos_iff.mpr hnil
    have hroom : tmp.length + 2 ≤ 16 := hroom
    have hloop : pton6Loop (g ++ []) ⟨tmp, colonp, g, 0, 0⟩ =
        pton6Loop [] ⟨tmp, colonp, g, 0 + g.length, ds.foldl (16 * · + ·) 0⟩ :=
      pton6Loop_hexDigits hds (by omega) (by decide) []
    rw [List.append_nil, Nat.zero_add] at hloop
    refine ⟨_, hloop, rfl, ?_⟩
    rw [lastWord, if_pos hpos, if_neg (by dsimp only; omega)]
  | quad _ src =>
    have hroom : tmp.length + 4 ≤ 16 := hroom
    have h : Reads tmp colonp (colons [] ++ quadText src) ([].flatMap wordBytes ++ load src 0 4) :=
      reads_quad src (fun _ h => absurd h List.not_mem_nil) (by simpa using hroom)
    exact h
  | @cons _ text w bytes hw hrest ih =>
    rw [List.length_append] at hroom
    have hroom : tmp.length + (2 + bytes.length) ≤ 16 := hroom
    have hreads : Reads (tmp ++ wordBytes w) colonp text bytes := by
      apply ih
      rw [List.length_append]
      change tmp.length + 2 + bytes.length ≤ 16
      omega
    obtain ⟨st, hst, hcolonp, hlast⟩ := hreads
    refine ⟨st, ?_, hcolonp, by rw [hlast, List.append_assoc]⟩
    rw [fromGroup_group hw (by omega) hrest.ne_nil]
    exact hst

theorem Groups.fromGroup_front {back : List Char} (h : Groups False text bytes)
    (hroom : tmp.length + bytes.length ≤ 16) : fromGroup tmp none (text ++ ':' :: ':' :: back) =
      fromGroup (tmp ++ bytes) (some (tmp ++ bytes).length) back := by
  induction h generalizing tmp with
  | word hw =>
    have hroom : tmp.length + 2 ≤ 16 := hroom
    rw [fromGroup_group hw hroom (List.cons_ne_nil _ _), fromGroup_colon]
  | quad h => exact h.elim
  | @cons g text w bytes hw hrest ih =>
    have hlen : (wordBytes w).length = 2 := rfl
    rw [List.length_append] at hroom
    rw [List.append_assoc, List.cons_append, fromGroup_group hw (by omega)
      (List.append_ne_nil_of_left_ne_nil hrest.ne_nil _), ih
      (by rw [List.length_append]; omega), List.append_assoc]

theorem leadingColon_of_head {c : Char} {cs : List Char} (hc : c ≠ ':') :
    leadingColon (c :: cs) = some (c :: cs) := by
  rw [leadingColon]
  · exact List.cons_ne_nil _ _
  · exact fun _ h => hc (List.cons.inj h).1
  · exact fun _ h => hc (List.cons.inj h).1

theorem leadingColon_eq_some (h : leadingColon text = some rest) :
    (∃ back, text = ':' :: ':' :: back ∧ rest = ':' :: back) ∨
      rest = text ∧ ∃ c cs, text = c :: cs ∧ c ≠ ':' := by
  cases text with
  | nil => cases h
  | cons c cs =>
    by_cases hc : c = ':'
    · subst hc
      cases cs with
      | nil => cases h
      | cons d cs =>
        by_cases hd : d = ':'
        · subst hd
          exact .inl ⟨cs, rfl, (Option.some.inj h).symm⟩
        · rw [leadingColon] at h
          · cases h
          · exact fun _ he => hd (List.cons.inj he).1
    · rw [leadingColon_of_head hc] at h
      exact .inr ⟨(Option.some.inj h).symm, c, cs, rfl, hc⟩

theorem expandColons_some {front back : List UInt8}
    (hbytes : (expandColons (some front.length) (front ++ back)).bind
      (fun tmp => if tmp.length = 16 then some tmp else none) = some bytes) :
    front.length + back.length < 16 ∧
      bytes = front ++ List.replicate (16 - (front.length + back.length)) 0 ++ back := by
  rw [expandColons] at hbytes
  simp only [List.length_append, List.take_left, List.drop_left] at hbytes
  split at hbytes
  · cases hbytes
  · next hne =>
    rw [Option.bind_some] at hbytes
    split at hbytes
    · next hlen =>
      simp only [List.length_append, List.length_replicate] at hlen
      exact ⟨by omega, (Option.some.inj hbytes).symm⟩
    · cases hbytes

theorem isIpv6_of_inetPton6 (h : inetPton6 text = some bytes) : IsIpv6 text bytes := by
  simp only [inetPton6, Option.bind_eq_bind, Option.bind_eq_some_iff] at h
  obtain ⟨src, hsrc, st, hst, out, hlast, tmp, hexpand, h⟩ := h
  have hbind : (expandColons st.colonp out).bind
      (fun tmp => if tmp.length = 16 then some tmp else none) = some bytes := by
    rw [hexpand]
    exact h
  rcases leadingColon_eq_some hsrc with ⟨back, rfl, rfl⟩ | ⟨rfl, c, cs, rfl, hc⟩
  · have hst : fromGroup [] none (':' :: back) = some st := hst
    rw [fromGroup_colon] at hst
    obtain ⟨hcolonp, bytes', rfl, hback⟩ := groups_behind_colons hst hlast
    rw [hcolonp] at hbind
    obtain ⟨hlen, rfl⟩ := expandColons_some hbind
    have hfront : MaybeGroups False [] [] := .inl ⟨rfl, rfl⟩
    exact .elided hfront hback hlen
  · cases loops_of_fromGroup hst hlast with
    | full hcolonp hout hgroups =>
      rcases hgroups with ⟨hnil, -⟩ | hgroups
      · cases hnil
      · rw [List.nil_append] at hout
        subst hout
        rw [hcolonp, expandColons, Option.bind_some] at hbind
        split at hbind
        · next hlen =>
          obtain rfl := Option.some.inj hbind
          exact .full hgroups hlen
        · cases hbind
    | elided htext hfront hcolonp hout hback =>
      rw [List.nil_append] at hcolonp hout
      subst hout
      rw [hcolonp] at hbind
      obtain ⟨hlen, rfl⟩ := expandColons_some hbind
      rcases hfront with ⟨rfl, -⟩ | ⟨g, rfl, hg⟩
      · exact absurd (List.cons.inj htext).1 hc
      · rw [htext, List.append_assoc]
        exact .elided (.inr hg) hback hlen

theorem IsIpv6.inetPton6 (h : IsIpv6 text bytes) : inetPton6 text = some bytes := by
  cases h with
  | full h hlen =>
    obtain ⟨c, cs, rfl, hc⟩ := h.exists_head
    have hreads : Reads [] none (c :: cs) bytes := h.reads (by simp [hlen])
    obtain ⟨st, hst, hcolonp, hlast⟩ := hreads
    rw [fromGroup] at hst
    simp only [MongoSgx.inetPton6, leadingColon_of_head hc, hst, hlast, hcolonp, expandColons,
      Option.bind_eq_bind, Option.bind_some, List.nil_append]
    exact if_pos hlen
  | @elided front back bytes bytes' h h' hlen =>
    have hback : ∀ tmp colonp, tmp.length + bytes'.length ≤ 16 →
        Reads tmp colonp back bytes' := by
      intro tmp colonp hroom
      rcases h' with ⟨rfl, rfl⟩ | h'
      · exact reads_nil tmp colonp
      · exact h'.reads hroom
    obtain ⟨st, hst, hcolonp, hlast⟩ := hback bytes (some bytes.length) (by omega)
    have hloop : ∃ src, leadingColon (front ++ ':' :: ':' :: back) = some src ∧
        fromGroup [] none src = some st := by
      rcases h with ⟨rfl, rfl⟩ | h
      · exact ⟨':' :: back, rfl, by rw [fromGroup_colon]; exact hst⟩
      · obtain ⟨c, cs, hhead, hc⟩ := h.exists_head
        refine ⟨front ++ ':' :: ':' :: back, ?_, ?_⟩
        · rw [hhead]
          exact leadingColon_of_head hc
        · rw [h.fromGroup_front (by simp; omega)]
          exact hst
    obtain ⟨src, hleading, hloop⟩ := hloop
    rw [fromGroup] at hloop
    simp only [MongoSgx.inetPton6, hleading, hloop, hlast, hcolonp, expandColons,
      Option.bind_eq_bind, Option.bind_some, List.length_append, List.take_left, List.drop_left]
    rw [if_neg (by omega), Option.bind_some]
    apply if_pos
    simp only [List.length_append, List.length_replicate]
    omega

end Texts

section Functions

variable {text : List Char} {af : ℤ} {bytes : List UInt8}

def Accepts (af : ℤ) (text : List Char) (bytes : List UInt8) : Prop :=
  (af = afInet ∧ ∃ src : Mem, text = quadText src ∧ bytes = load src 0 4) ∨
    (af = afInet6 ∧ IsIpv6 text bytes)

/-- `inet_pton` returns 1 on the texts of the grammar and stores the address, it returns 0 on every
other text, and -1 in another family. -/
theorem inetPton_accepts (hnul : nul ∉ text) (rest : List Char) (result : Parsed) :
    inetPton af (text ++ nul :: rest) = .ok result ↔
      (∃ bytes, Accepts af text bytes ∧ result = ⟨1, bytes⟩) ∨
      ((af = afInet ∨ af = afInet6) ∧ (∀ bytes, ¬ Accepts af text bytes) ∧ result = ⟨0, []⟩) ∨
      (af ≠ afInet ∧ af ≠ afInet6 ∧ result = ⟨-1, []⟩) := by
  have hlen : strlen (text ++ nul :: rest) = .ok text.length := by
    rw [strlen_append hnul, if_pos (List.mem_cons_self ..), List.takeWhile_cons_of_neg (by simp),
      List.append_nil]
  have htake : (text ++ nul :: rest).take text.length = text := List.take_left
  have hne : afInet6 ≠ afInet := by decide
  have hparsed : ∀ x : Option (List UInt8), (∀ bytes, x = some bytes ↔ Accepts af text bytes) →
      ((.ok (parsed x) : Except Undefined Parsed) = .ok result ↔
        (∃ bytes, Accepts af text bytes ∧ result = ⟨1, bytes⟩) ∨
          (∀ bytes, ¬ Accepts af text bytes) ∧ result = ⟨0, []⟩) := by
    intro x hx
    rw [Except.ok.injEq]
    simp only [← hx]
    cases x with
    | none => simp [parsed, eq_comm]
    | some bytes => simp [parsed, eq_comm]
  unfold inetPton
  split
  · next haf =>
    subst haf
    rw [hlen]
    change (.ok (parsed (inetPton4 ((text ++ nul :: rest).take text.length))) : Except _ _) = _ ↔ _
    rw [htake, hparsed]
    · simp
    · intro bytes
      simp [Accepts, inetPton4_eq_some_iff, hne.symm]
  split
  · next haf =>
    subst haf
    rw [hlen]
    change (.ok (parsed (inetPton6 ((text ++ nul :: rest).take text.length))) : Except _ _) = _ ↔ _
    rw [htake, hparsed]
    · simp
    · intro bytes
      simp only [Accepts, hne, false_and, false_or, true_and]
      exact ⟨isIpv6_of_inetPton6, IsIpv6.inetPton6⟩
  · next h4 h6 =>
    simp [Accepts, h4, h6, eq_comm]

/-- A hexadecimal group is read on both sides of the two colons, in either case of its digits. -/
theorem inetPton_accepts_sample :
    inetPton afInet6 (['1', ':', ':', 'f', 'F'] ++ nul :: []) =
      .ok ⟨1, [0, 1] ++ List.replicate 12 0 ++ [0, 255]⟩ := by
  have hone : Groups False ['1'] [0, 1] :=
    .word ⟨List.cons_ne_nil _ _, by decide, [1], .cons ⟨by decide, by decide⟩ .nil, rfl⟩
  have hff : Groups True ['f', 'F'] [0, 255] :=
    .word ⟨List.cons_ne_nil _ _, by decide, [15, 15],
      .cons ⟨by decide, by decide⟩ (.cons ⟨by decide, by decide⟩ .nil), rfl⟩
  have haddr : IsIpv6 ['1', ':', ':', 'f', 'F'] ([0, 1] ++ List.replicate 12 0 ++ [0, 255]) :=
    .elided (.inr hone) (.inr hff) (by decide)
  exact (inetPton_accepts (by decide) [] _).mpr (.inl ⟨_, .inr ⟨rfl, haddr⟩, rfl⟩)

end Functions

end MongoSgx
