import Mathlib.Data.List.Basic
import Mathlib.Data.List.TakeWhile
import MongoSgx.Inet.Text
import MongoSgx.Numeral.Radix

/-! # What the printer does

While the words are formatted, the scratch array holds the text so far, and behind
the next character it still holds what it held at first. Nothing is stored behind
its end. An IPv4 address within an IPv6 address is copied without a terminator, so
that the text goes on up to the first terminator that the array happened to hold.
-/

namespace MongoSgx

open Memory Runs Numeral

section Digits

variable {n : ℕ} {src : Mem}

theorem nul_ne_digitChar : ∀ d < 16, nul ≠ d.digitChar := by decide

theorem nul_notMem_toDigits {b : ℕ} (hb : 1 < b) (hle : b ≤ 16) : nul ∉ Nat.toDigits b n := by
  intro h
  obtain ⟨d, hd, heq⟩ := exists_digitChar_of_mem hb h
  exact nul_ne_digitChar d (by omega) heq

theorem nul_notMem_printU : nul ∉ printU n := nul_notMem_toDigits (by decide) (by decide)

theorem nul_notMem_printX : nul ∉ printX n := nul_notMem_toDigits (by decide) (by decide)

theorem printX_ne_nil : printX n ≠ [] := Nat.toDigits_ne_nil

theorem length_printU (b : UInt8) : (printU b.toNat).length ≤ 3 :=
  (Nat.length_toDigits_le_iff (by decide) (by decide)).mpr (by have := b.toNat_lt; omega)

theorem word_eq (src : Mem) (i : ℕ) :
    word src i = 256 * (src (2 * i)).toNat + (src (2 * i + 1)).toNat := by
  have hlt := (src (2 * i + 1)).toNat_lt
  rw [word, ← Nat.shiftLeft_add_eq_or_of_lt hlt, Nat.shiftLeft_eq]
  omega

theorem word_lt (src : Mem) (i : ℕ) : word src i < 65536 := by
  have hhi := (src (2 * i)).toNat_lt
  have hlo := (src (2 * i + 1)).toNat_lt
  rw [word_eq]
  omega

theorem length_printX (src : Mem) (i : ℕ) : (printX (word src i)).length ≤ 4 :=
  (Nat.length_toDigits_le_iff (by decide) (by decide)).mpr (word_lt src i)

theorem printQuad_eq (src : Mem) : printQuad src = quadText src := by
  simp [printQuad, quadText, load, List.range', printU, List.intercalate]

theorem length_printQuad (src : Mem) : (printQuad src).length ≤ 15 := by
  have h0 := length_printU (src 0)
  have h1 := length_printU (src 1)
  have h2 := length_printU (src 2)
  have h3 := length_printU (src 3)
  simp only [printQuad, List.length_append, List.length_cons]
  omega

theorem nul_notMem_printQuad : nul ∉ printQuad src := by
  have hdot : nul ≠ '.' := by decide
  simp [printQuad, nul_notMem_printU, hdot]

end Digits

section CharArrays

variable {array text rest cs : List Char} {n : ℕ}

theorem storeChars_eq (h : cs.length ≤ array.length) :
    storeChars array cs = .ok (cs ++ array.drop cs.length) := if_pos h

theorem takeWhile_ne_nul (h : nul ∉ text) (rest : List Char) :
    (text ++ rest).takeWhile (· ≠ nul) = text ++ rest.takeWhile (· ≠ nul) := by
  have hne : ∀ c ∈ text, decide (c ≠ nul) = true := by
    intro c hc
    exact decide_eq_true fun heq => h (heq ▸ hc)
  exact List.takeWhile_append_of_pos hne

theorem takeWhile_take_terminated (h : nul ∉ text) (rest : List Char) (hn : text.length < n) :
    ((text ++ nul :: rest).take n).takeWhile (· ≠ nul) = text := by
  have hsub : n - text.length = (n - text.length - 1) + 1 := by omega
  rw [List.take_append, List.take_of_length_le (by omega), hsub, List.take_succ_cons,
    takeWhile_ne_nul h, List.takeWhile_cons_of_neg (by simp), List.append_nil]

theorem strncpy_terminated (h : nul ∉ text) (rest : List Char) (hn : text.length < n) :
    strncpy (text ++ nul :: rest) n = text ++ List.replicate (n - text.length) nul := by
  rw [strncpy, takeWhile_take_terminated h rest hn]

/-- Cut off at the length of the text, it is copied without a terminator. -/
theorem strncpy_strnlen (h : nul ∉ text) (rest : List Char) (hn : text.length < n) :
    strncpy (text ++ nul :: rest) (strnlen (text ++ nul :: rest) n) = text := by
  have hcopy : text.takeWhile (· ≠ nul) = text := by simpa using takeWhile_ne_nul h []
  rw [strnlen, takeWhile_take_terminated h rest hn, strncpy, List.take_left, hcopy, Nat.sub_self,
    List.replicate_zero, List.append_nil]

theorem strlen_append (h : nul ∉ text) (rest : List Char) : strlen (text ++ rest) =
    if nul ∈ rest then .ok (text ++ rest.takeWhile (· ≠ nul)).length
    else .error .outOfBounds := by
  rw [strlen, takeWhile_ne_nul h]
  simp only [List.mem_append, h, false_or]

theorem advance_append (before text rest : List Char) :
    CharPointer.advance ⟨before, text ++ rest⟩ text.length = ⟨before ++ text, rest⟩ := by
  rw [CharPointer.advance, List.take_left, List.drop_left]

theorem snprintf_eq (h : text.length < n) : snprintf n text = text ++ [nul] := by
  rw [snprintf, List.take_of_length_le (by omega)]

end CharArrays

/-- The IPv4 text is copied without its terminator, if it would fit with it. -/
theorem inetNtop4_eq (src : Mem) (size : ℕ) (scratch : Scratch) : inetNtop4 src size scratch =
    .ok (if size ≤ (quadText src).length then none else some (quadText src)) := by
  have hlen := length_printQuad src
  have hnul : nul ∉ printQuad src := nul_notMem_printQuad
  have hroom : (printQuad src ++ [nul]).length ≤ scratch.ntop4.toList.length := by
    rw [List.Vector.toList_length, List.length_append, List.length_singleton]
    omega
  rw [inetNtop4, snprintf_eq (by omega), storeChars_eq hroom, ← printQuad_eq]
  change (if _ then _ else _) = _
  split
  · rfl
  · rw [List.append_assoc, List.singleton_append, strncpy_strnlen hnul _ (by omega)]
    rfl

section Formatting

structure Prints (stale : List Char) (tp : CharPointer) (text : List Char) : Prop where
  before : tp.before = text
  length : text.length + tp.after.length = stale.length
  after : tp.after.tail = stale.drop (text.length + 1)

variable {stale text cs : List Char} {tp : CharPointer} {src : Mem} {best : Option Span} {i : ℕ}

theorem prints_start (stale : List Char) : Prints stale ⟨[], stale⟩ [] where
  before := rfl
  length := by simp
  after := by simp

theorem write_eq (h : cs.length ≤ tp.after.length) :
    tp.write cs = .ok ⟨tp.before, cs ++ tp.after.drop cs.length⟩ := by
  rw [CharPointer.write, storeChars_eq h]
  rfl

theorem Prints.drop_after (h : Prints stale tp text) {k : ℕ} (hk : 0 < k) :
    tp.after.drop k = stale.drop (text.length + k) := by
  obtain ⟨k, rfl⟩ := Nat.exists_eq_succ_of_ne_zero (Nat.ne_of_gt hk)
  rw [Nat.succ_eq_one_add, ← List.drop_drop, List.drop_one, h.after, List.drop_drop, Nat.add_assoc]

theorem Prints.advance (h : Prints stale tp text) (cs extra : List Char)
    (hextra : extra.length ≤ 1) (hroom : text.length + (cs ++ extra).length ≤ stale.length)
    (hne : cs ≠ []) : ∃ tp', tp.write (cs ++ extra) = .ok tp' ∧
      Prints stale (tp'.advance cs.length) (text ++ cs) := by
  have hlen := h.length
  have hpos := List.length_pos_iff.mpr hne
  rw [List.length_append] at hroom
  -- one character behind the printed ones may be the terminator
  have hafter : tp.after.drop (cs.length + 1) = stale.drop (text.length + cs.length + 1) :=
    h.drop_after (Nat.succ_pos _)
  refine ⟨_, write_eq (by rw [List.length_append]; omega), ?_⟩
  constructor
  · simp [CharPointer.advance, h.before]
  · simp [CharPointer.advance]
    omega
  · cases extra with
    | nil => simpa [CharPointer.advance] using hafter
    | cons c extra =>
      obtain rfl : extra = [] := List.length_eq_zero_iff.mp (by simpa using hextra)
      simpa [CharPointer.advance] using hafter

theorem Prints.put (h : Prints stale tp text) (hroom : text.length < stale.length) (c : Char) :
    ∃ tp', tp.put c = .ok tp' ∧ Prints stale tp' (text ++ [c]) := by
  obtain ⟨tp', hwrite, htp'⟩ := h.advance [c] [] (by simp) (by simp; omega) (by simp)
  refine ⟨_, ?_, htp'⟩
  rw [List.append_nil] at hwrite
  rw [CharPointer.put, hwrite]
  rfl

theorem Prints.putIf (h : Prints stale tp text) (hroom : text.length < stale.length) (p : Bool)
    (c : Char) : ∃ tp', tp.putIf p c = .ok tp' ∧
      Prints stale tp' (text ++ if p then [c] else []) := by
  cases p with
  | true => exact h.put hroom c
  | false => exact ⟨tp, rfl, by simpa using h⟩

def piece (src : Mem) (best : Option Span) (i : ℕ) : List Char :=
  if inside best i then (if best.any fun r => i = r.base then [':'] else [])
  else (if i ≠ 0 then [':'] else []) ++ printX (word src i)

theorem length_piece (src : Mem) (best : Option Span) (i : ℕ) : (piece src best i).length ≤ 5 := by
  have hlen := length_printX src i
  unfold piece
  split
  · split <;> simp
  · split <;> simp <;> omega

theorem formatWords_inside (scratch : Scratch) (is : List ℕ) (hin : inside best i = true) :
    formatWords src best scratch (i :: is) tp =
      tp.putIf (best.any fun r => i = r.base) ':' >>= formatWords src best scratch is := by
  rw [formatWords, if_pos hin]

theorem formatWords_word (scratch : Scratch) (is : List ℕ) (hin : inside best i = false)
    (hi : (i = 6 && encapsulates src best) = false) : formatWords src best scratch (i :: is) tp =
      tp.putIf (i ≠ 0) ':' >>= fun tp => tp.write (snprintf 46 (printX (word src i))) >>= fun tp =>
        formatWords src best scratch is (tp.advance (printX (word src i)).length) := by
  rw [formatWords, hin]
  simp only [hi]
  rfl

theorem length_pieces (src : Mem) (best : Option Span) (is : List ℕ) :
    (is.flatMap (piece src best)).length ≤ 5 * is.length := by
  induction is with
  | nil => simp
  | cons i is ih =>
    have hpiece := length_piece src best i
    rw [List.flatMap_cons, List.length_append, List.length_cons]
    omega

theorem prints_formatWords (scratch : Scratch) (is js : List ℕ)
    (his : ∀ i ∈ is, (i = 6 && encapsulates src best) = false) (h : Prints stale tp text)
    (hroom : text.length + 5 * is.length < stale.length) :
    ∃ tp', formatWords src best scratch (is ++ js) tp = formatWords src best scratch js tp' ∧
      Prints stale tp' (text ++ is.flatMap (piece src best)) := by
  induction is generalizing tp text with
  | nil => exact ⟨tp, rfl, by simpa using h⟩
  | cons i is ih =>
    have his' := fun j hj => his j (List.mem_cons_of_mem _ hj)
    have hpiece := length_piece src best i
    have hlen := length_printX src i
    rw [List.length_cons] at hroom
    rw [List.cons_append, List.flatMap_cons, ← List.append_assoc]
    cases hin : inside best i with
    | true =>
      obtain ⟨tp', hput, htp'⟩ := h.putIf (by omega) (best.any fun r => i = r.base) ':'
      have htext : piece src best i = if best.any fun r => i = r.base then [':'] else [] :=
        if_pos hin
      rw [← htext] at htp'
      rw [formatWords_inside scratch _ hin, hput]
      exact ih his' htp' (by rw [List.length_append]; omega)
    | false =>
      have htext : piece src best i = (if decide (i ≠ 0) then [':'] else []) ++
          printX (word src i) := by
        rw [piece, hin]
        simp
      obtain ⟨tp', hput, htp'⟩ := h.putIf (by omega) (i ≠ 0) ':'
      have hsum : (if decide (i ≠ 0) then [':'] else []).length +
          (printX (word src i)).length ≤ 5 := by
        rwa [htext, List.length_append] at hpiece
      obtain ⟨tp'', hwrite, htp''⟩ := htp'.advance (printX (word src i)) [nul] (by simp)
        (by simp only [List.length_append, List.length_singleton]; omega) printX_ne_nil
      rw [List.append_assoc, ← htext] at htp''
      rw [formatWords_word scratch _ hin (his i (List.mem_cons_self ..)), hput,
        snprintf_eq (by omega), ok_bind, hwrite]
      exact ih his' htp'' (by rw [List.length_append]; omega)

end Formatting

section Pieces

variable {src : Mem} {best : Option Span} {r : Span} {i n : ℕ}

theorem intercalate_cons (g : List Char) (gs : List (List Char)) :
    [':'].intercalate (g :: gs) = g ++ gs.flatMap (':' :: ·) := by
  induction gs generalizing g with
  | nil => simp
  | cons h gs ih => simp [ih]

theorem flatMap_colons (gs : List (List Char)) :
    gs.flatMap (':' :: ·) ++ (if gs = [] then [':'] else []) = ':' :: [':'].intercalate gs := by
  cases gs with
  | nil => rfl
  | cons g gs => simp [intercalate_cons]

theorem inside_some : inside (some r) i = true ↔ r.base ≤ i ∧ i < r.base + r.len := by
  simp [inside]

theorem encapsulates_iff :
    encapsulates src best = true ↔ ∃ r, best = some r ∧ HoldsQuad src r := by
  cases best with
  | none => simp [encapsulates]
  | some r => simp [encapsulates, HoldsQuad]

theorem piece_of_not_inside (h : ¬ inside best i = true) :
    piece src best i = (if i ≠ 0 then [':'] else []) ++ printX (word src i) := if_neg h

theorem pieces_front (h : ∀ i < n, ¬ inside best i = true) :
    (List.range n).flatMap (piece src best) = hexText ((List.range n).map (word src)) := by
  have hpieces : ∀ i ∈ List.range n, piece src best i =
      (if i ≠ 0 then [':'] else []) ++ printX (word src i) := by
    intro i hi
    exact piece_of_not_inside (h i (List.mem_range.mp hi))
  rw [List.flatMap_congr hpieces]
  cases n with
  | zero => rfl
  | succ n =>
    rw [List.range_succ_eq_map, hexText, List.map_cons, List.map_cons, intercalate_cons]
    simp [List.flatMap_map, List.map_map, printX]

theorem pieces_run (h : 0 < r.len) :
    (List.range' r.base r.len).flatMap (piece src (some r)) = [':'] := by
  obtain ⟨len, hlen⟩ := Nat.exists_eq_succ_of_ne_zero (Nat.ne_of_gt h)
  have hfirst : inside (some r) r.base = true := inside_some.mpr (by omega)
  have hrest : ∀ i ∈ List.range' (r.base + 1) len, piece src (some r) i = [] := by
    intro i hi
    rw [List.mem_range'_1] at hi
    have hin : inside (some r) i = true := inside_some.mpr (by omega)
    have hne : i ≠ r.base := by omega
    simp [piece, hin, hne]
  rw [hlen, List.range'_succ, List.flatMap_cons, List.flatMap_eq_nil_iff.mpr hrest]
  simp [piece, hfirst]

theorem pieces_behind (h : 0 < r.len) (k : ℕ) :
    (List.range' (r.base + r.len) k).flatMap (piece src (some r)) =
      (((List.range' (r.base + r.len) k).map (word src)).map printX).flatMap (':' :: ·) := by
  rw [List.flatMap_map, List.flatMap_map]
  apply List.flatMap_congr
  intro i hi
  rw [List.mem_range'_1] at hi
  have hin : ¬ inside (some r) i = true := fun hin => by
    have hlt := inside_some.mp hin
    omega
  have hne : i ≠ 0 := by omega
  rw [piece_of_not_inside hin, if_pos hne]
  rfl

theorem pieces_eq (h : 0 < r.len) (hn : r.base + r.len ≤ n) :
    (List.range n).flatMap (piece src (some r)) =
      hexText ((List.range r.base).map (word src)) ++ ':' ::
        (((List.range' (r.base + r.len) (n - (r.base + r.len))).map (word src)).map
          printX).flatMap (':' :: ·) := by
  have hsplit : List.range n = List.range r.base ++ (List.range' r.base r.len ++
      List.range' (r.base + r.len) (n - (r.base + r.len))) := by
    rw [List.range'_append_1, List.range_eq_range', List.range_eq_range']
    have hbase := List.range'_append_1 (s := 0) (m := r.base)
      (n := r.len + (n - (r.base + r.len)))
    rw [Nat.zero_add] at hbase
    rw [hbase]
    congr 1
    omega
  have hfront : ∀ i < r.base, ¬ inside (some r) i = true := by
    intro i hi hin
    have hle := inside_some.mp hin
    omega
  rw [hsplit, List.flatMap_append, List.flatMap_append, pieces_front hfront, pieces_run h,
    pieces_behind h]
  rfl

theorem take_words (h : n ≤ 8) : (words src).take n = (List.range n).map (word src) := by
  rw [words, ← List.map_take, List.take_range, Nat.min_eq_left h]

theorem drop_take_words (h : n ≤ 8) (k : ℕ) :
    ((words src).take n).drop k = (List.range' k (n - k)).map (word src) := by
  rw [take_words h, ← List.map_drop, List.range_eq_range', List.drop_range']
  simp

theorem pieces_text (h : Elided src best) (hq : encapsulates src best = false) :
    (List.range 8).flatMap (piece src best) ++
      (if best.any fun r => r.base + r.len = 8 then [':'] else []) = ipv6Text src best := by
  cases best with
  | none =>
    rw [pieces_front (by simp [inside])]
    simp [ipv6Text, words]
  | some r =>
    have hle : r.base + r.len ≤ 8 := by simpa [words] using h.1.1.le_length
    have hpos := h.1.1.1
    have hnot : ¬ HoldsQuad src r := fun hr => by
      rw [encapsulates_iff.mpr ⟨r, rfl, hr⟩] at hq
      cases hq
    have htail : tailGroups src r =
        ((List.range' (r.base + r.len) (8 - (r.base + r.len))).map (word src)).map printX := by
      have hall : (words src).take 8 = words src := List.take_of_length_le (by simp [words])
      rw [tailGroups, if_neg hnot, ← hall, drop_take_words (Nat.le_refl 8)]
      rfl
    have hnil : r.base + r.len = 8 ↔ tailGroups src r = [] := by
      rw [htail]
      simp
      omega
    rw [pieces_eq hpos hle, ipv6Text, take_words (by omega), ← flatMap_colons, ← htail]
    simp [hnil]

theorem pieces_quad (h : Elided src (some r)) (hq : HoldsQuad src r) :
    (List.range 6).flatMap (piece src (some r)) ++ ':' :: quadText (fun k => src (12 + k)) =
      ipv6Text src (some r) := by
  have hle : r.base + r.len ≤ 6 := by
    have hbase := hq.1
    have hlen := hq.2
    omega
  have hcolons := flatMap_colons (tailGroups src r)
  have htail : tailGroups src r =
      ((List.range' (r.base + r.len) (6 - (r.base + r.len))).map (word src)).map printX ++
        [quadText fun k => src (12 + k)] := by
    rw [tailGroups, if_pos hq, drop_take_words (by decide), hq.1, Nat.zero_add]
    rfl
  rw [if_neg (by simp [htail]), List.append_nil] at hcolons
  rw [pieces_eq h.1.1.1 hle, ipv6Text, take_words (by omega), ← hcolons, htail]
  simp

theorem length_pieces_quad (hq : HoldsQuad src r) :
    ((List.range 6).flatMap (piece src (some r))).length ≤ 6 := by
  obtain ⟨base, len⟩ := r
  obtain ⟨rfl, hlen⟩ : base = 0 ∧ (len = 6 ∨ len = 5 ∧ word src 5 = 0xffff) := hq
  have hword := length_printX src 5
  rcases hlen with rfl | ⟨rfl, -⟩
  · rw [pieces_eq (by decide) (by decide)]
    simp [hexText]
  · rw [pieces_eq (by decide) (by decide)]
    change (':' :: ':' :: (printX (word src 5) ++ [])).length ≤ 6
    rw [List.append_nil, List.length_cons, List.length_cons]
    omega

theorem nul_notMem_pieces (is : List ℕ) : nul ∉ is.flatMap (piece src best) := by
  have hcolon : nul ≠ ':' := by decide
  intro h
  obtain ⟨i, -, hi⟩ := List.mem_flatMap.mp h
  unfold piece at hi
  split at hi
  · split at hi <;> simp [hcolon] at hi
  · split at hi <;> simp [hcolon, nul_notMem_printX] at hi

theorem length_ipv6Text (h : Elided src best) : (ipv6Text src best).length ≤ 41 := by
  cases hq : encapsulates src best with
  | true =>
    obtain ⟨r, rfl, hr⟩ := encapsulates_iff.mp hq
    have hquad := length_printQuad fun k => src (12 + k)
    have hpieces := length_pieces_quad hr
    rw [printQuad_eq] at hquad
    rw [← pieces_quad h hr, List.length_append, List.length_cons]
    omega
  | false =>
    have hpieces := length_pieces src best (List.range 8)
    rw [List.length_range] at hpieces
    rw [← pieces_text h hq, List.length_append]
    split
    · simp only [List.length_singleton]
      omega
    · simp only [List.length_nil]
      omega

theorem nul_notMem_ipv6Text (h : Elided src best) : nul ∉ ipv6Text src best := by
  have hcolon : nul ≠ ':' := by decide
  cases hq : encapsulates src best with
  | true =>
    obtain ⟨r, rfl, hr⟩ := encapsulates_iff.mp hq
    have hquad : nul ∉ quadText fun k => src (12 + k) := printQuad_eq _ ▸ nul_notMem_printQuad
    rw [← pieces_quad h hr, List.mem_append, List.mem_cons]
    rintro (hmem | hmem | hmem)
    · exact nul_notMem_pieces _ hmem
    · exact hcolon hmem
    · exact hquad hmem
  | false =>
    rw [← pieces_text h hq, List.mem_append]
    rintro (hmem | hmem)
    · exact nul_notMem_pieces _ hmem
    · split at hmem <;> simp [hcolon] at hmem

end Pieces

section Whole

variable {src : Mem} {tp : CharPointer} {text full : List Char} {best : Option Span} {r : Span}

/-- The end of the printer: the terminator, the comparison with the size, and the copy. -/
def finishNtop6 (size : ℕ) (tp : CharPointer) : Except Undefined (Option (List Char)) := do
  let tp ← tp.put nul
  if size < tp.before.length then return none
  else return some (strncpy (tp.before ++ tp.after) 46)

theorem finishNtop6_eq (size : ℕ) (hnul : nul ∉ tp.before) (hne : tp.after ≠ [])
    (hlen : tp.before.length + tp.after.length = 46) : finishNtop6 size tp =
      .ok (if size ≤ tp.before.length then none
        else some (tp.before ++ List.replicate (46 - tp.before.length) nul)) := by
  obtain ⟨before, after⟩ := tp
  obtain ⟨c, rest, rfl⟩ := List.exists_cons_of_ne_nil hne
  have hlt : before.length < 46 := by
    change before.length + (rest.length + 1) = 46 at hlen
    omega
  change (if size < (before ++ [nul]).length then _ else _) =
    Except.ok (if size ≤ before.length then _ else _)
  rw [List.length_append, List.length_singleton]
  by_cases hsize : size ≤ before.length
  · rw [if_pos (by omega), if_pos hsize]
    rfl
  · rw [if_neg (by omega), if_neg hsize]
    change Except.ok (some (strncpy (before ++ [nul] ++ rest) 46)) = _
    rw [List.append_assoc, List.singleton_append, strncpy_terminated hnul _ hlt]

theorem inetNtop6_eq_bind (src : Mem) (size : ℕ) (scratch : Scratch) : inetNtop6 src size scratch =
    formatWords src (bestRun src) scratch (List.range 8) ⟨[], scratch.ntop6.toList⟩ >>= fun
      | none => .ok none
      | some tp => tp.putIf ((bestRun src).any fun r => r.base + r.len = 8) ':' >>=
          finishNtop6 size := rfl

theorem inetNtop6_text (hq : encapsulates src (bestRun src) = false) (size : ℕ)
    (scratch : Scratch) (htext : ipv6Text src (bestRun src) = text) :
    inetNtop6 src size scratch = .ok (if size ≤ text.length then none
      else some (text ++ List.replicate (46 - text.length) nul)) := by
  have hstale : scratch.ntop6.toList.length = 46 := scratch.ntop6.toList_length
  have hnul := nul_notMem_ipv6Text (elided_bestRun src)
  have hle := length_ipv6Text (elided_bestRun src)
  have hpieces := length_pieces src (bestRun src) (List.range 8)
  obtain ⟨tp, hloop, htp⟩ : ∃ tp, formatWords src (bestRun src) scratch (List.range 8 ++ [])
      ⟨[], scratch.ntop6.toList⟩ = .ok (some tp) ∧ _ :=
    prints_formatWords scratch (List.range 8) [] (by simp [hq])
      (prints_start scratch.ntop6.toList) (by simp)
  rw [List.append_nil] at hloop
  rw [List.length_range] at hpieces
  rw [List.nil_append] at htp
  obtain ⟨tp', hput, htp'⟩ := htp.putIf (by omega)
    ((bestRun src).any fun r => r.base + r.len = 8) ':'
  rw [pieces_text (elided_bestRun src) hq, htext] at htp'
  rw [htext] at hnul hle
  have hlen := htp'.length
  have hne : tp'.after ≠ [] := List.ne_nil_of_length_pos (by omega)
  have hbefore := htp'.before
  rw [inetNtop6_eq_bind, hloop]
  change (tp.putIf _ ':' >>= finishNtop6 size) = _
  rw [hput, ok_bind, finishNtop6_eq size (hbefore ▸ hnul) hne (by rw [hbefore]; omega), hbefore]

def staleBehind (scratch : Scratch) (text : List Char) : List Char :=
  scratch.ntop6.toList.drop text.length

/-- The text and the stale characters up to the first terminator have none, and what is left of
the array begins with it. -/
theorem staleBehind_split {scratch : Scratch} (hnul : nul ∉ text) (hle : text.length ≤ 41)
    (hmem : nul ∈ staleBehind scratch text) :
    nul ∉ text ++ (staleBehind scratch text).takeWhile (· ≠ nul) ∧
      (staleBehind scratch text).dropWhile (· ≠ nul) ≠ [] ∧
      (text ++ (staleBehind scratch text).takeWhile (· ≠ nul)).length +
        ((staleBehind scratch text).dropWhile (· ≠ nul)).length = 46 := by
  constructor
  · rw [List.mem_append]
    rintro (h | h)
    · exact hnul h
    · simpa using List.mem_takeWhile_imp h
  constructor
  · rw [Ne, List.dropWhile_eq_nil_iff]
    intro hall
    simpa using hall nul hmem
  · rw [← List.length_append, List.append_assoc, List.takeWhile_append_dropWhile, staleBehind,
      List.length_append, List.length_drop, scratch.ntop6.toList_length]
    omega

theorem not_inside_of_holdsQuad (hr : HoldsQuad src r) :
    inside (some r) 6 = false ∧ decide (r.base + r.len = 8) = false := by
  have hbase := hr.1
  have hlen := hr.2
  constructor
  · rw [Bool.eq_false_iff]
    intro hin
    have hlt := inside_some.mp hin
    omega
  · rw [decide_eq_false]
    omega

theorem formatWords_quad (scratch : Scratch) (is : List ℕ) (hin : inside best 6 = false)
    (hq : encapsulates src best = true) : formatWords src best scratch (6 :: is) tp =
      tp.putIf true ':' >>= fun tp =>
        inetNtop4 (fun k => src (12 + k)) (46 - tp.before.length) scratch >>= fun
          | none => .ok none
          | some text => tp.write text >>= fun tp => strlen tp.after >>= fun length =>
              .ok (some (tp.advance length)) := by
  rw [formatWords, hin]
  simp only [hq]
  rfl

theorem quad_loop (scratch : Scratch) (is : List ℕ) (hin : inside best 6 = false)
    (hq : encapsulates src best = true) (h : Prints scratch.ntop6.toList tp text)
    (hle : text.length ≤ 6) (hfull : text ++ ':' :: quadText (fun k => src (12 + k)) = full) :
    formatWords src best scratch (6 :: is) tp =
      if nul ∈ staleBehind scratch full then
        .ok (some ⟨full ++ (staleBehind scratch full).takeWhile (· ≠ nul),
          (staleBehind scratch full).dropWhile (· ≠ nul)⟩)
      else .error .outOfBounds := by
  have hstale : scratch.ntop6.toList.length = 46 := scratch.ntop6.toList_length
  have hlen := length_printQuad fun k => src (12 + k)
  have hnul : nul ∉ printQuad fun k => src (12 + k) := nul_notMem_printQuad
  have hpos : 0 < (printQuad fun k => src (12 + k)).length := by simp [printQuad]
  rw [printQuad_eq] at hlen hnul hpos
  obtain ⟨tp', hput, htp'⟩ := h.putIf (by omega) true ':'
  rw [if_pos rfl] at htp'
  have hroom := htp'.length
  rw [List.length_append, List.length_singleton, hstale] at hroom
  have hsize : ¬ 46 - tp'.before.length ≤ (quadText fun k => src (12 + k)).length := by
    rw [htp'.before, List.length_append, List.length_singleton]
    omega
  have hbehind : tp'.after.drop (quadText fun k => src (12 + k)).length =
      staleBehind scratch full := by
    rw [htp'.drop_after hpos, staleBehind, ← hfull, ← List.length_append, List.append_assoc]
    rfl
  rw [formatWords_quad scratch is hin hq, hput, ok_bind, inetNtop4_eq, if_neg hsize]
  change (tp'.write _ >>= _) = _
  rw [write_eq (by omega), ok_bind, strlen_append hnul, hbehind]
  split
  case isFalse => rfl
  case isTrue =>
    have hsplit : (staleBehind scratch full).takeWhile (· ≠ nul) ++
        (staleBehind scratch full).dropWhile (· ≠ nul) = staleBehind scratch full :=
      List.takeWhile_append_dropWhile
    have hadvance := advance_append tp'.before
      ((quadText fun k => src (12 + k)) ++ (staleBehind scratch full).takeWhile (· ≠ nul))
      ((staleBehind scratch full).dropWhile (· ≠ nul))
    rw [List.append_assoc, hsplit, htp'.before, ← List.append_assoc, List.append_assoc text,
      List.singleton_append, hfull] at hadvance
    rw [htp'.before]
    exact congrArg (fun tp => Except.ok (some tp)) hadvance

/-- With an IPv4 address, what the array held behind the text belongs to what is copied. -/
theorem inetNtop6_quad (hq : encapsulates src (bestRun src) = true) (size : ℕ)
    (scratch : Scratch) (htext : ipv6Text src (bestRun src) = text) :
    inetNtop6 src size scratch =
      if nul ∈ staleBehind scratch text then
        .ok (if size ≤ (text ++ (staleBehind scratch text).takeWhile (· ≠ nul)).length then none
          else some (text ++ (staleBehind scratch text).takeWhile (· ≠ nul) ++ List.replicate
            (46 - (text ++ (staleBehind scratch text).takeWhile (· ≠ nul)).length) nul))
      else .error .outOfBounds := by
  have helided := elided_bestRun src
  obtain ⟨r, hbest, hr⟩ := encapsulates_iff.mp hq
  rw [hbest] at hq htext helided
  obtain ⟨hin, hend⟩ := not_inside_of_holdsQuad hr
  obtain ⟨tp, hloop, htp⟩ := prints_formatWords scratch (List.range 6) [6, 7]
    (fun i hi => by rw [decide_eq_false (Nat.ne_of_lt (List.mem_range.mp hi)), Bool.false_and])
    (prints_start scratch.ntop6.toList) (by simp)
  rw [List.nil_append] at htp
  have hquad := quad_loop scratch [7] hin hq htp (length_pieces_quad hr)
    ((pieces_quad helided hr).trans htext)
  rw [← hloop] at hquad
  rw [inetNtop6_eq_bind, hbest]
  change (formatWords src (some r) scratch (List.range 6 ++ [6, 7]) _ >>= _) = _
  rw [hquad]
  split
  case isFalse => rfl
  case isTrue hmem =>
    obtain ⟨hnul, hne, hlen⟩ := staleBehind_split (htext ▸ nul_notMem_ipv6Text helided)
      (htext ▸ length_ipv6Text helided) hmem
    rw [ok_bind]
    change (CharPointer.putIf _ _ _ >>= _) = _
    rw [Option.any_some, hend]
    exact finishNtop6_eq size hnul hne hlen

end Whole

end MongoSgx
