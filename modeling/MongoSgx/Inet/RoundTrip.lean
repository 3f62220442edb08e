import MongoSgx.Inet.Buffer
import MongoSgx.Inet.Parsing

/-! # Parsing undoes printing

The words of an address hold its bytes, and the run that two colons stand for
holds zeros. So the text of an address is parsed into its bytes, and no other
address has this text. With arrays that are filled with zeros, the printer leaves
exactly the text and a terminator for the parser.
-/

namespace MongoSgx

open Memory Runs

section Words

variable {src : Mem} {r : Span} {best : Option Span}

theorem wordBytes_word (src : Mem) (i : ℕ) :
    wordBytes (word src i) = [src (2 * i), src (2 * i + 1)] := by
  have hlo := (src (2 * i + 1)).toNat_lt
  have hhi : (256 * (src (2 * i)).toNat + (src (2 * i + 1)).toNat) >>> 8 = (src (2 * i)).toNat := by
    rw [Nat.shiftRight_eq_div_pow]
    omega
  have hmod : UInt8.ofNat (256 * (src (2 * i)).toNat + (src (2 * i + 1)).toNat) =
      src (2 * i + 1) := by
    apply UInt8.toNat_inj.mp
    rw [UInt8.toNat_ofNat']
    omega
  rw [wordBytes, word_eq, hhi, hmod, UInt8.ofNat_toNat]

theorem flatMap_words (src : Mem) : (words src).flatMap wordBytes = load src 0 16 := by
  rw [words, List.flatMap_map]
  simp only [wordBytes_word]
  rfl

theorem flatMap_last_words (src : Mem) :
    ((words src).drop 6).flatMap wordBytes = load (fun k => src (12 + k)) 0 4 := by
  rw [words, ← List.map_drop, List.flatMap_map]
  simp only [wordBytes_word]
  rfl

theorem length_words (src : Mem) : (words src).length = 8 := by simp [words]

theorem words_lt : ∀ w ∈ words src, w < 65536 := by
  intro w hw
  obtain ⟨i, -, rfl⟩ := List.mem_map.mp hw
  exact word_lt src i

theorem words_split (h : IsRun (· = 0) (words src) r) : words src =
    (words src).take r.base ++ List.replicate r.len 0 ++ (words src).drop (r.base + r.len) := by
  have hzeros : ((words src).drop r.base).take r.len = List.replicate r.len 0 := by
    have hle := h.le_length
    apply List.ext_getElem?
    intro i
    by_cases hi : i < r.len
    · obtain ⟨w, hw, rfl⟩ := h.2 (r.base + i) (by omega) (by omega)
      rw [List.getElem?_take_of_lt hi, List.getElem?_drop, hw, List.getElem?_replicate_of_lt hi]
    · rw [List.getElem?_eq_none (by simp; omega), List.getElem?_eq_none (by simp; omega)]
  rw [← hzeros, List.append_assoc, ← List.drop_drop, List.take_append_drop, List.take_append_drop]

theorem flatMap_zeros (n : ℕ) :
    (List.replicate n 0).flatMap wordBytes = List.replicate (2 * n) 0 := by
  induction n with
  | zero => rfl
  | succ n ih =>
    rw [List.replicate_succ, List.flatMap_cons, ih, Nat.mul_succ, Nat.add_comm, List.replicate_add]
    rfl

end Words

theorem reads_tailGroups {src : Mem} {r : Span} (tmp : List UInt8) (colonp : Option ℕ)
    (hroom : tmp.length + 2 * (8 - (r.base + r.len)) ≤ 16) :
    Reads tmp colonp ([':'].intercalate (tailGroups src r))
      (((words src).drop (r.base + r.len)).flatMap wordBytes) := by
  have hlength := length_words src
  by_cases hq : HoldsQuad src r
  · -- the last two words are those of the IPv4 address
    have hlen : r.len ≤ 6 := by
      have hrun := hq.2
      omega
    have hsplit : (words src).drop r.len =
        ((words src).take 6).drop r.len ++ (words src).drop 6 := by
      rw [← List.drop_append_of_le_length (by simp [hlength, hlen]), List.take_append_drop]
    have hws : ∀ w ∈ ((words src).take 6).drop r.len, w < 65536 := fun w hw =>
      words_lt w (List.mem_of_mem_take (List.mem_of_mem_drop hw))
    rw [hq.1, Nat.zero_add] at hroom ⊢
    rw [tailGroups, if_pos hq, intercalate_concat, hsplit, List.flatMap_append, flatMap_last_words]
    exact reads_quad _ hws (by simp [hlength]; omega)
  · have hws : ∀ w ∈ (words src).drop (r.base + r.len), w < 65536 := fun w hw =>
      words_lt w (List.mem_of_mem_drop hw)
    rw [tailGroups, if_neg hq]
    exact reads_words hws (by rw [List.length_drop, hlength]; omega)

theorem inetPton6_ipv6Text {src : Mem} {best : Option Span} (h : Elided src best) :
    inetPton6 (ipv6Text src best) = some (load src 0 16) := by
  have hlength := length_words src
  cases best with
  | none => rw [ipv6Text, inetPton6_hexText words_lt hlength, flatMap_words]
  | some r =>
    have hle := h.1.1.le_length
    have hlen := h.2
    rw [hlength] at hle
    have hfront : ∀ w ∈ (words src).take r.base, w < 65536 := fun w hw =>
      words_lt w (List.mem_of_mem_take hw)
    have hcount : ((words src).take r.base).length = r.base := by
      rw [List.length_take, hlength]
      omega
    have htail : Reads (((words src).take r.base).flatMap wordBytes)
        (some (((words src).take r.base).flatMap wordBytes).length)
        ([':'].intercalate (tailGroups src r)) _ :=
      reads_tailGroups _ _ (by rw [length_flatMap_wordBytes, hcount]; omega)
    have hbytes : (((words src).drop (r.base + r.len)).flatMap wordBytes).length =
        2 * (8 - (r.base + r.len)) := by
      rw [length_flatMap_wordBytes, List.length_drop, hlength]
    have hzeros : 16 - (2 * r.base + 2 * (8 - (r.base + r.len))) = 2 * r.len := by omega
    have hsplit := congrArg (List.flatMap wordBytes) (words_split h.1.1)
    rw [List.flatMap_append, List.flatMap_append, flatMap_zeros, flatMap_words] at hsplit
    rw [ipv6Text, inetPton6_elided hfront htail (by rw [hcount, hbytes]; omega), hcount, hbytes,
      hzeros, hsplit]

section Texts

variable {src src' : Mem} {af af' : ℤ} {text stored : List Char} {n : ℕ} {scratch : Scratch}

def addressSize (af : ℤ) : ℕ := if af = afInet then 4 else 16

theorem nul_notMem_addressText (h : IsAddressText src af text) : nul ∉ text := by
  cases h with
  | inet => exact printQuad_eq src ▸ nul_notMem_printQuad
  | inet6 h => exact nul_notMem_ipv6Text h

theorem length_addressText (h : IsAddressText src af text) : text.length ≤ 41 := by
  cases h with
  | inet =>
    have hlen := length_printQuad src
    rw [printQuad_eq] at hlen
    omega
  | inet6 h => exact length_ipv6Text h

theorem inetPton_text (h : IsAddressText src af text) (k : ℕ) :
    inetPton af (text ++ List.replicate (k + 1) nul) =
      .ok ⟨1, load src 0 (addressSize af)⟩ := by
  have hlength : strlen (text ++ List.replicate (k + 1) nul) = .ok text.length := by
    rw [strlen_append (nul_notMem_addressText h), if_pos (by simp), List.replicate_succ,
      List.takeWhile_cons_of_neg (by simp), List.append_nil]
  rw [inetPton, hlength]
  cases h with
  | inet =>
    rw [if_pos rfl, ok_bind, List.take_left, inetPton4_quadText]
    rfl
  | inet6 h =>
    rw [if_neg (by decide), if_pos rfl, ok_bind, List.take_left, inetPton6_ipv6Text h]
    rfl

theorem colon_notMem_quadText : ':' ∉ quadText src := by
  have hdigits : ∀ n, ':' ∉ printU n := by
    intro n h
    obtain ⟨d, hd, heq⟩ := Numeral.exists_digitChar_of_mem (by decide) h
    exact colon_ne_digitChar d (by omega) heq.symm
  rw [← printQuad_eq, printQuad]
  simp [hdigits]

theorem colon_mem_ipv6Text (src : Mem) (best : Option Span) : ':' ∈ ipv6Text src best := by
  cases best with
  | none =>
    rw [ipv6Text, hexText, words]
    simp [List.range, List.range.loop]
  | some r => simp [ipv6Text]

theorem addressText_injective (h : IsAddressText src af text) (h' : IsAddressText src' af' text) :
    af = af' ∧ load src 0 (addressSize af) = load src' 0 (addressSize af) := by
  have haf : af = af' := by
    rcases (isAddressText_iff src af text).mp h with ⟨rfl, htext⟩ | ⟨rfl, htext⟩ <;>
      rcases (isAddressText_iff src' af' text).mp h' with ⟨rfl, htext'⟩ | ⟨rfl, htext'⟩
    · rfl
    · exact absurd (htext.symm.trans htext' ▸ colon_mem_ipv6Text src' _) colon_notMem_quadText
    · exact absurd (htext'.symm.trans htext ▸ colon_mem_ipv6Text src _) colon_notMem_quadText
    · rfl
  subst haf
  have hparse := (inetPton_text h 0).symm.trans (inetPton_text h' 0)
  exact ⟨rfl, congrArg Parsed.stored (Except.ok.inj hparse)⟩

theorem inetNtop_zeroed (h : IsAddressText src af text) (hn : 46 ≤ n)
    (hscratch : scratch.ntop6.toList = List.replicate 46 nul) : ∃ k,
    inetNtop af src n scratch = .ok (some (text ++ List.replicate k nul)) ∧
      text.length + k ≤ 46 := by
  have hlen := length_addressText h
  rcases (isAddressText_iff src af text).mp h with ⟨rfl, rfl⟩ | ⟨rfl, htext⟩
  · refine ⟨0, ?_, by omega⟩
    rw [List.replicate_zero, List.append_nil]
    change inetNtop4 src n scratch = _
    rw [inetNtop4_eq, if_neg (by omega)]
  · refine ⟨46 - text.length, ?_, by omega⟩
    change inetNtop6 src n scratch = _
    cases hq : encapsulates src (bestRun src) with
    | false => rw [inetNtop6_text hq n scratch htext.symm, if_neg (by omega)]
    | true =>
      have hstale : staleBehind scratch text = List.replicate (45 - text.length + 1) nul := by
        rw [staleBehind, hscratch, List.drop_replicate]
        congr 1
        omega
      rw [inetNtop6_quad hq n scratch htext.symm, hstale, if_pos (by simp), List.replicate_succ,
        List.takeWhile_cons_of_neg (by simp), List.append_nil, if_neg (by omega)]

theorem map_storedAt (h : stored.length ≤ n) :
    (List.range n).map (storedAt (fun _ => nul) stored) =
      stored ++ List.replicate (n - stored.length) nul := by
  apply List.ext_getElem
  · simp
    omega
  · intro i hi hi'
    rw [List.getElem_map, List.getElem_range, storedAt]
    by_cases hlt : i < stored.length
    · rw [List.getElem_append_left hlt, List.getElem?_eq_getElem hlt, Option.getD_some]
    · rw [List.getElem_append_right (by omega), List.getElem?_eq_none (by omega),
        List.getElem_replicate, Option.getD_none]

end Texts

/-- Parsing undoes printing. For every address of either family, every `dst` of at least 46 bytes
and a scratch array, both full of zeros: the address has a text, in which two colons stand for the
leftmost longest run of two or more zero words and nothing else; exactly this text is left in
`dst`; it is parsed into the bytes of the address; and no other address has it. -/
theorem inetPton_inetNtop (src : Mem) {af : ℤ} (haf : af = afInet ∨ af = afInet6) {n : ℕ}
    (hn : 46 ≤ n) {scratch : Scratch} (hscratch : scratch.ntop6.toList = List.replicate 46 nul) :
    ∃ text stored, IsAddressText src af text ∧
      inetNtop af src n scratch = .ok (some stored) ∧ stored.length ≤ n ∧
      (List.range n).map (storedAt (fun _ => nul) stored) =
        text ++ List.replicate (n - text.length) nul ∧
      inetPton af ((List.range n).map (storedAt (fun _ => nul) stored)) =
        .ok ⟨1, load src 0 (addressSize af)⟩ ∧
      ∀ (src' : Mem) (af' : ℤ), IsAddressText src' af' text →
        af = af' ∧ load src 0 (addressSize af) = load src' 0 (addressSize af) := by
  obtain ⟨text, htext⟩ : ∃ text, IsAddressText src af text := by
    rcases haf with rfl | rfl
    · exact ⟨_, .inet⟩
    · exact ⟨_, .inet6 (elided_bestRun src)⟩
  obtain ⟨k, hprint, hk⟩ := inetNtop_zeroed htext hn hscratch
  have hlen := length_addressText htext
  have hdst : (List.range n).map (storedAt (fun _ => nul) (text ++ List.replicate k nul)) =
      text ++ List.replicate (n - text.length) nul := by
    have hsum : k + (n - (text ++ List.replicate k nul).length) = n - text.length := by
      rw [List.length_append, List.length_replicate]
      omega
    rw [map_storedAt (by rw [List.length_append, List.length_replicate]; omega), List.append_assoc,
      ← List.replicate_add, hsum]
  obtain ⟨m, hm⟩ : ∃ m, n - text.length = m + 1 := ⟨n - text.length - 1, by omega⟩
  refine ⟨text, _, htext, hprint, ?_, hdst, ?_, ?_⟩
  · rw [List.length_append, List.length_replicate]
    omega
  · rw [hdst, hm]
    exact inetPton_text htext m
  · intro src' af' htext'
    exact addressText_injective htext htext'

/-- An address with a run of two zero words and a longer one: `2001::7:0:0:0:1` is not its text. -/
theorem inetPton_inetNtop_sample :
    ∃ text stored, IsAddressText (address [0x20, 1, 0, 0, 0, 0, 0, 7, 0, 0, 0, 0, 0, 0, 0, 1])
        afInet6 text ∧
      inetPton afInet6 ((List.range 46).map (storedAt (fun _ => nul) stored)) =
        .ok ⟨1, [0x20, 1, 0, 0, 0, 0, 0, 7, 0, 0, 0, 0, 0, 0, 0, 1]⟩ := by
  obtain ⟨text, stored, htext, -, -, -, hparse, -⟩ := inetPton_inetNtop
    (address [0x20, 1, 0, 0, 0, 0, 0, 7, 0, 0, 0, 0, 0, 0, 0, 1]) (.inr rfl) (Nat.le_refl 46)
    (show (scratchOf nul).ntop6.toList = List.replicate 46 nul from rfl)
  exact ⟨text, stored, htext, hparse⟩

end MongoSgx
