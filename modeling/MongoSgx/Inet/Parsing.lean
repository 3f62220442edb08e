import MongoSgx.Inet.Pton
import MongoSgx.Inet.Printing

/-! # What the parser does

The parser reads a printed octet or word as a whole: the digits accumulate to the
number, and no check stands in the way. At the beginning of each group it is in
the same kind of state, with the rest of the text as its current token. So groups
are read one after another, and an IPv4 address is read from the right place.
-/

namespace MongoSgx

open Memory Numeral

section Octets

theorem decimal_digitChar : ∀ d < 10, '0' ≤ d.digitChar ∧ d.digitChar ≤ '9' ∧
    d.digitChar.toNat - '0'.toNat = d := by decide

variable {front : List UInt8} {k : ℕ} {rest : List Char}

theorem turn_first (hk : k < 4) {d : ℕ} (hd : d < 10) :
    Pton4.turn ⟨front, 0, false, k⟩ d.digitChar = some ⟨front, .ofNat d, true, k + 1⟩ := by
  obtain ⟨hlo, hhi, hvalue⟩ := decimal_digitChar d hd
  have hnew : (0 : UInt8).toNat * 10 + d = d := by simp
  rw [Pton4.turn, if_pos ⟨hlo, hhi⟩]
  simp only [hvalue, hnew, Bool.false_eq_true, false_and, if_false]
  rw [if_neg (by omega), if_neg (by omega)]

theorem turn_next {v d : ℕ} (hv : 0 < v) (hd : d < 10) (hle : 10 * v + d ≤ 255) :
    Pton4.turn ⟨front, .ofNat v, true, k⟩ d.digitChar =
      some ⟨front, .ofNat (10 * v + d), true, k⟩ := by
  obtain ⟨hlo, hhi, hvalue⟩ := decimal_digitChar d hd
  have hnat : (UInt8.ofNat v).toNat = v := UInt8.toNat_ofNat_of_lt' (by change v < 256; omega)
  have hne : UInt8.ofNat v ≠ 0 := by
    intro heq
    have hzero := congrArg UInt8.toNat heq
    rw [hnat] at hzero
    exact absurd hzero (by simp; omega)
  rw [Pton4.turn, if_pos ⟨hlo, hhi⟩]
  simp only [hvalue, hnat, hne, and_false, if_false, if_true, Nat.mul_comm v 10]
  rw [if_neg (by omega)]

theorem foldlM_octet (hk : k < 4) (b : UInt8) (rest : List Char) :
    (Nat.toDigits 10 b.toNat ++ rest).foldlM Pton4.turn ⟨front, 0, false, k⟩ =
      rest.foldlM Pton4.turn ⟨front, b, true, k + 1⟩ := by
  have hb := b.toNat_lt
  have hread := read_toDigits (n := b.toNat) (by decide : 1 < 10)
    (fun rest => rest.foldlM Pton4.turn ⟨front, 0, false, k⟩)
    (fun _ v rest => rest.foldlM Pton4.turn ⟨front, .ofNat v, true, k + 1⟩)
    (fun d hd _ rest => by rw [List.foldlM_cons, turn_first hk hd]; rfl)
    (fun _ v d _ hv hd hle rest => by rw [List.foldlM_cons, turn_next hv hd (by omega)]; rfl) rest
  rw [hread, UInt8.ofNat_toNat]

theorem turn_dot {b : UInt8} (hk : k < 4) :
    Pton4.turn ⟨front, b, true, k⟩ '.' = some ⟨front ++ [b], 0, false, k⟩ := by
  have hdot : ¬ ('0' ≤ '.' ∧ '.' ≤ '9') := by decide
  rw [Pton4.turn, if_neg hdot, if_pos ⟨rfl, rfl⟩]
  exact if_neg (Nat.ne_of_lt hk)

theorem inetPton4_quadText (src : Mem) : inetPton4 (quadText src) = some (load src 0 4) := by
  rw [← printQuad_eq, inetPton4, printQuad]
  simp only [List.append_assoc, List.cons_append, printU]
  have hoctet : ∀ (front : List UInt8) (k : ℕ) (b : UInt8) (rest : List Char), k + 1 < 4 →
      (Nat.toDigits 10 b.toNat ++ '.' :: rest).foldlM Pton4.turn ⟨front, 0, false, k⟩ =
        rest.foldlM Pton4.turn ⟨front ++ [b], 0, false, k + 1⟩ := by
    intro front k b rest hk
    rw [foldlM_octet (by omega), List.foldlM_cons, turn_dot hk]
    rfl
  have hlast : (Nat.toDigits 10 (src 3).toNat).foldlM Pton4.turn
      ⟨[src 0, src 1, src 2], 0, false, 3⟩ = some ⟨[src 0, src 1, src 2], src 3, true, 4⟩ := by
    have h : (Nat.toDigits 10 (src 3).toNat ++ []).foldlM Pton4.turn
        ⟨[src 0, src 1, src 2], 0, false, 3⟩ = _ := foldlM_octet (by decide) (src 3) []
    rwa [List.append_nil] at h
  rw [hoctet _ _ _ _ (by decide), hoctet _ _ _ _ (by decide), hoctet _ _ _ _ (by decide)]
  change (Nat.toDigits 10 (src 3).toNat).foldlM Pton4.turn _ >>= _ = _
  rw [List.nil_append, List.singleton_append, List.cons_append, List.singleton_append, hlast]
  rfl

end Octets

section Groups

theorem hexDigitValue_digitChar : ∀ d < 16, hexDigitValue d.digitChar = some d := by decide

theorem hexDigitValue_colon : hexDigitValue ':' = none := by decide

theorem hexDigitValue_dot : hexDigitValue '.' = none := by decide

variable {tmp : List UInt8} {colonp : Option ℕ} {curtok rest : List Char} {k v w : ℕ}

theorem pton6Loop_digit {d : ℕ} (hd : d < 16) (hk : k < 4) (hle : 16 * v + d ≤ 0xffff) :
    pton6Loop (d.digitChar :: rest) ⟨tmp, colonp, curtok, k, v⟩ =
      pton6Loop rest ⟨tmp, colonp, curtok, k + 1, 16 * v + d⟩ := by
  have hval : v <<< 4 ||| d = 16 * v + d := by
    rw [← Nat.shiftLeft_add_eq_or_of_lt hd, Nat.shiftLeft_eq]
    omega
  rw [pton6Loop, hexDigitValue_digitChar d hd]
  simp only [hval]
  rw [if_neg (Nat.ne_of_lt hk), if_neg (by omega)]

theorem pton6Loop_word (hw : w < 65536) (rest : List Char) :
    pton6Loop (printX w ++ rest) ⟨tmp, colonp, curtok, 0, 0⟩ =
      pton6Loop rest ⟨tmp, colonp, curtok, (printX w).length, w⟩ := by
  have hlen : (printX w).length ≤ 4 :=
    (Nat.length_toDigits_le_iff (by decide) (by decide)).mpr hw
  exact read_toDigits (by decide) (fun rest => pton6Loop rest ⟨tmp, colonp, curtok, 0, 0⟩)
    (fun k v rest => pton6Loop rest ⟨tmp, colonp, curtok, k, v⟩)
    (fun d hd hle rest => by
      have h : pton6Loop (d.digitChar :: rest) ⟨tmp, colonp, curtok, 0, 0⟩ = _ :=
        pton6Loop_digit hd (by decide) (by omega)
      rwa [Nat.mul_zero, Nat.zero_add, Nat.zero_add] at h)
    (fun k v d hk _ hd hle rest => pton6Loop_digit hd (Nat.lt_of_lt_of_le hk hlen) (by omega)) rest

/-- Digits of a smaller base are read, as some value. -/
theorem pton6Loop_digits {ds : List Char} (hds : ∀ c ∈ ds, ∃ d < 16, c = d.digitChar)
    (hk : k + ds.length ≤ 4) (hv : v < 16 ^ k) (rest : List Char) :
    ∃ v', pton6Loop (ds ++ rest) ⟨tmp, colonp, curtok, k, v⟩ =
      pton6Loop rest ⟨tmp, colonp, curtok, k + ds.length, v'⟩ := by
  induction ds generalizing k v with
  | nil => exact ⟨v, rfl⟩
  | cons c ds ih =>
    obtain ⟨d, hd, rfl⟩ := hds c (List.mem_cons_self ..)
    rw [List.length_cons] at hk
    have hpow : 16 ^ (k + 1) ≤ 16 ^ 4 := Nat.pow_le_pow_right (by decide) (by omega)
    have hlt : 16 * v + d < 16 ^ (k + 1) := by
      rw [Nat.pow_succ]
      omega
    obtain ⟨v', hv'⟩ := ih (fun c hc => hds c (List.mem_cons_of_mem _ hc)) (by omega) hlt
    refine ⟨v', ?_⟩
    rw [List.cons_append, pton6Loop_digit hd (by omega) (by omega), hv', List.length_cons]
    congr 2
    omega

def fromGroup (tmp : List UInt8) (colonp : Option ℕ) (text : List Char) : Option Pton6 :=
  pton6Loop text ⟨tmp, colonp, text, 0, 0⟩

theorem fromGroup_word (hw : w < 65536) (hroom : tmp.length + 2 ≤ 16) (hne : rest ≠ []) :
    fromGroup tmp colonp (printX w ++ ':' :: rest) =
      fromGroup (tmp ++ wordBytes w) colonp rest := by
  have hlen : (printX w).length ≠ 0 := fun h => printX_ne_nil (List.length_eq_zero_iff.mp h)
  rw [fromGroup, pton6Loop_word hw, pton6Loop, hexDigitValue_colon]
  simp only [if_true, hlen, if_false, hne]
  rw [if_neg (by omega)]
  rfl

theorem fromGroup_colon (tmp : List UInt8) (rest : List Char) :
    fromGroup tmp none (':' :: rest) = fromGroup tmp (some tmp.length) rest := by
  rw [fromGroup, pton6Loop, hexDigitValue_colon]
  rfl

def colons (ws : List ℕ) : List Char := ws.flatMap fun w => printX w ++ [':']

theorem fromGroup_colons {ws : List ℕ} (hws : ∀ w ∈ ws, w < 65536)
    (hroom : tmp.length + 2 * ws.length ≤ 16) (hne : rest ≠ []) :
    fromGroup tmp colonp (colons ws ++ rest) =
      fromGroup (tmp ++ ws.flatMap wordBytes) colonp rest := by
  induction ws generalizing tmp with
  | nil => rw [List.flatMap_nil, List.append_nil, colons, List.flatMap_nil, List.nil_append]
  | cons w ws ih =>
    have hbytes : (wordBytes w).length = 2 := rfl
    have hw := hws w (List.mem_cons_self ..)
    rw [List.length_cons] at hroom
    have ih : fromGroup (tmp ++ wordBytes w) colonp (colons ws ++ rest) = _ :=
      ih (fun w hw => hws w (List.mem_cons_of_mem _ hw)) (by rw [List.length_append]; omega)
    have hcolons : colons (w :: ws) ++ rest = printX w ++ ':' :: (colons ws ++ rest) := by
      simp [colons]
    rw [hcolons, fromGroup_word hw (by omega) (by simp [hne]), ih, List.flatMap_cons,
      List.append_assoc]

theorem length_flatMap_wordBytes (ws : List ℕ) : (ws.flatMap wordBytes).length = 2 * ws.length := by
  simp [List.length_flatMap, wordBytes, Nat.mul_comm]

def Reads (tmp : List UInt8) (colonp : Option ℕ) (text : List Char) (bytes : List UInt8) : Prop :=
  ∃ st, fromGroup tmp colonp text = some st ∧ st.colonp = colonp ∧
    lastWord st = some (tmp ++ bytes)

theorem reads_nil (tmp : List UInt8) (colonp : Option ℕ) : Reads tmp colonp [] [] :=
  ⟨_, rfl, rfl, by simp [lastWord]⟩

theorem intercalate_concat (ws : List ℕ) (g : List Char) :
    [':'].intercalate (ws.map (Nat.toDigits 16) ++ [g]) = colons ws ++ g := by
  induction ws with
  | nil => simp [colons]
  | cons v ws ih =>
    have hne : ws.map (Nat.toDigits 16) ++ [g] ≠ [] := by simp
    rw [List.map_cons, List.cons_append, List.intercalate_cons_of_ne_nil hne, ih]
    simp [colons, printX]

theorem hexText_concat (ws : List ℕ) (w : ℕ) : hexText (ws ++ [w]) = colons ws ++ printX w := by
  rw [hexText, List.map_append]
  exact intercalate_concat ws _

theorem hexText_colon {ws : List ℕ} (hne : ws ≠ []) : hexText ws ++ [':'] = colons ws := by
  rcases List.eq_nil_or_concat ws with hnil | ⟨ws, w, rfl⟩
  · exact absurd hnil hne
  · rw [List.concat_eq_append, hexText_concat]
    simp [colons]

theorem reads_words {ws : List ℕ} (hws : ∀ w ∈ ws, w < 65536)
    (hroom : tmp.length + 2 * ws.length ≤ 16) :
    Reads tmp colonp (hexText ws) (ws.flatMap wordBytes) := by
  rcases List.eq_nil_or_concat ws with rfl | ⟨ws, w, rfl⟩
  · exact reads_nil tmp colonp
  · rw [List.concat_eq_append] at hws hroom ⊢
    rw [List.length_append, List.length_singleton] at hroom
    have hws' : ∀ v ∈ ws, v < 65536 := fun v hv => hws v (List.mem_append_left _ hv)
    have hw : w < 65536 := hws w (List.mem_append_right _ (List.mem_singleton_self w))
    have hpos : 0 < (printX w).length := List.length_pos_iff.mpr printX_ne_nil
    have hlast : fromGroup (tmp ++ ws.flatMap wordBytes) colonp (printX w ++ []) =
        some ⟨tmp ++ ws.flatMap wordBytes, colonp, printX w ++ [], (printX w).length, w⟩ :=
      pton6Loop_word hw []
    rw [List.append_nil] at hlast
    refine ⟨⟨tmp ++ ws.flatMap wordBytes, colonp, printX w, (printX w).length, w⟩, ?_, rfl, ?_⟩
    · rw [hexText_concat, fromGroup_colons hws' (by omega) printX_ne_nil]
      exact hlast
    · have hlen : ¬ 16 < (tmp ++ ws.flatMap wordBytes).length + 2 := by
        rw [List.length_append, length_flatMap_wordBytes]
        omega
      rw [lastWord, if_pos hpos, if_neg hlen, List.flatMap_append, List.append_assoc]
      rfl

theorem reads_quad {ws : List ℕ} (src : Mem) (hws : ∀ w ∈ ws, w < 65536)
    (hroom : tmp.length + 2 * ws.length + 4 ≤ 16) :
    Reads tmp colonp (colons ws ++ quadText src) (ws.flatMap wordBytes ++ load src 0 4) := by
  have hdigits : ∀ c ∈ printU (src 0).toNat, ∃ d < 16, c = d.digitChar := by
    intro c hc
    obtain ⟨d, hd, hdc⟩ := exists_digitChar_of_mem (by decide) hc
    exact ⟨d, by omega, hdc⟩
  have hlen := length_printU (src 0)
  have hbytes := length_flatMap_wordBytes ws
  have hne : quadText src ≠ [] := by
    rw [← printQuad_eq, printQuad]
    simp
  obtain ⟨rest, hrest⟩ : ∃ rest, quadText src = printU (src 0).toNat ++ '.' :: rest := by
    rw [← printQuad_eq, printQuad]
    simp only [List.append_assoc, List.cons_append]
    exact ⟨_, rfl⟩
  -- the first octet is read as a word, and then again from the last colon
  obtain ⟨v, hv⟩ : ∃ v, pton6Loop (printU (src 0).toNat ++ '.' :: rest)
      ⟨tmp ++ ws.flatMap wordBytes, colonp, quadText src, 0, 0⟩ = pton6Loop ('.' :: rest)
        ⟨tmp ++ ws.flatMap wordBytes, colonp, quadText src, 0 + (printU (src 0).toNat).length, v⟩ :=
    pton6Loop_digits hdigits (by omega) (by decide) _
  rw [← hrest] at hv
  refine ⟨⟨tmp ++ ws.flatMap wordBytes ++ load src 0 4, colonp, quadText src, 0, v⟩, ?_, rfl, ?_⟩
  · rw [fromGroup_colons hws (by omega) hne, fromGroup, hv, pton6Loop, hexDigitValue_dot]
    have hroom' : (tmp ++ ws.flatMap wordBytes).length + 4 ≤ 16 := by
      rw [List.length_append]
      omega
    simp only [hroom', inetPton4_quadText]
    rfl
  · rw [lastWord, if_neg (Nat.lt_irrefl 0), List.append_assoc]

end Groups

section Addresses

variable {ws front : List ℕ} {text : List Char} {tail : List UInt8}

theorem colon_ne_digitChar : ∀ d < 16, d.digitChar ≠ ':' := by decide

theorem leadingColon_printX (w : ℕ) (rest : List Char) :
    leadingColon (printX w ++ rest) = some (printX w ++ rest) := by
  obtain ⟨c, cs, hcs⟩ := List.exists_cons_of_ne_nil (printX_ne_nil (n := w))
  have hmem : c ∈ printX w := by
    rw [hcs]
    exact List.mem_cons_self ..
  obtain ⟨d, hd, rfl⟩ := exists_digitChar_of_mem (by decide) hmem
  have hne := colon_ne_digitChar d hd
  rw [hcs, List.cons_append, leadingColon]
  · exact List.cons_ne_nil _ _
  · exact fun _ h => hne (List.cons.inj h).1
  · exact fun _ h => hne (List.cons.inj h).1

theorem colons_cons (w : ℕ) (ws : List ℕ) : colons (w :: ws) = printX w ++ ':' :: colons ws := by
  simp [colons]

theorem leadingColon_hexText (hne : ws ≠ []) :
    leadingColon (hexText ws) = some (hexText ws) := by
  obtain ⟨w, ws, rfl⟩ := List.exists_cons_of_ne_nil hne
  rw [hexText, List.map_cons, intercalate_cons]
  exact leadingColon_printX w _

theorem inetPton6_hexText (hws : ∀ w ∈ ws, w < 65536) (hlen : ws.length = 8) :
    inetPton6 (hexText ws) = some (ws.flatMap wordBytes) := by
  have hne : ws ≠ [] := List.ne_nil_of_length_pos (by omega)
  have hbytes := length_flatMap_wordBytes ws
  obtain ⟨st, hst, hcolonp, hlast⟩ : Reads [] none (hexText ws) (ws.flatMap wordBytes) :=
    reads_words hws (by simp [hlen])
  rw [fromGroup] at hst
  rw [inetPton6, leadingColon_hexText hne]
  change (pton6Loop (hexText ws) ⟨[], none, hexText ws, 0, 0⟩ >>= _) = _
  rw [hst]
  change (lastWord st >>= _) = _
  rw [hlast, hcolonp]
  exact if_pos (by rw [List.nil_append]; omega)

theorem inetPton6_elided (hfront : ∀ w ∈ front, w < 65536)
    (htail : Reads (front.flatMap wordBytes) (some (front.flatMap wordBytes).length) text tail)
    (hlen : 2 * front.length + tail.length < 16) :
    inetPton6 (hexText front ++ ':' :: ':' :: text) = some (front.flatMap wordBytes ++
      List.replicate (16 - (2 * front.length + tail.length)) 0 ++ tail) := by
  have hbytes := length_flatMap_wordBytes front
  obtain ⟨st, hst, hcolonp, hlast⟩ := htail
  -- the loop comes to the rest of the text with the words in front of it
  obtain ⟨src, hleading, hloop⟩ : ∃ src, leadingColon (hexText front ++ ':' :: ':' :: text) =
      some src ∧ fromGroup [] none src = some st := by
    cases front with
    | nil => exact ⟨':' :: text, rfl, by rw [fromGroup_colon]; exact hst⟩
    | cons w ws =>
      have htext : hexText (w :: ws) ++ ':' :: ':' :: text = colons (w :: ws) ++ ':' :: text := by
        rw [← hexText_colon (List.cons_ne_nil w ws), List.append_assoc, List.singleton_append]
      rw [htext]
      refine ⟨colons (w :: ws) ++ ':' :: text, ?_, ?_⟩
      · rw [colons_cons, List.append_assoc]
        exact leadingColon_printX w _
      · rw [fromGroup_colons hfront (by rw [List.length_nil]; omega) (List.cons_ne_nil ':' text),
          List.nil_append, fromGroup_colon]
        exact hst
  have htmp : (front.flatMap wordBytes ++ tail).length = 2 * front.length + tail.length := by
    rw [List.length_append, hbytes]
  rw [fromGroup] at hloop
  rw [inetPton6, hleading]
  change (pton6Loop src ⟨[], none, src, 0, 0⟩ >>= _) = _
  rw [hloop]
  change (lastWord st >>= _) = _
  rw [hlast, hcolonp]
  change (expandColons (some _) (front.flatMap wordBytes ++ tail) >>= _) = _
  rw [expandColons]
  simp only [htmp]
  rw [if_neg (by omega), List.take_left, List.drop_left]
  apply if_pos
  simp only [List.length_append, List.length_replicate, hbytes]
  omega

end Addresses

end MongoSgx
