import MongoSgx.Inet.Printing

/-! # The buffer of the caller

A buffer is respected when `NULL` is returned exactly if the text does not fit
with its terminator, and the string is stored within the buffer otherwise. The
copy of an IPv4 text has no terminator, and the copy of an IPv6 text has 46 bytes,
whatever the size. So it depends on the size, on what lies behind the text in the
buffer, and on what the scratch array held, whether a buffer is respected.
-/

namespace MongoSgx

open Memory Runs

def storedAt (dst : ℕ → Char) (stored : List Char) : ℕ → Char := fun i => stored[i]?.getD (dst i)

def HoldsString (dst : ℕ → Char) (text : List Char) : Prop :=
  (List.range (text.length + 1)).map dst = cString text

/-- What a printer is to do with a buffer of some size: to return `NULL` without storing anything
if the text does not fit with its terminator, and else to store both and nothing behind the end. -/
structure RespectsBuffer (text : List Char) (size : ℕ) (dst : ℕ → Char)
    (result : Except Undefined (Option (List Char))) : Prop where
  null : size ≤ text.length → result = .ok none
  copied : text.length < size → ∃ stored, result = .ok (some stored) ∧
    HoldsString (storedAt dst stored) text ∧ stored.length ≤ size

/-- All but the last 32 bits are elided zeros, or elided zeros and a word of ones. -/
def EndsInQuad (src : Mem) : Prop := ∃ r, Elided src (some r) ∧ HoldsQuad src r

/-- When the buffer is respected. For IPv4: the text does not fit, or a terminator lies behind it
already. For IPv6: the text does not fit, or the buffer has 46 bytes; and if an IPv4 address ends
the text, the scratch array has a terminator behind it, and directly if the text fits. -/
structure BufferSuits (src : Mem) (af : ℤ) (text : List Char) (size : ℕ) (dst : ℕ → Char)
    (scratch : Scratch) : Prop where
  inet : af = afInet → size ≤ text.length ∨ dst text.length = nul
  inet6 : af = afInet6 → size ≤ text.length ∨ 46 ≤ size
  quad : af = afInet6 → EndsInQuad src → nul ∈ staleBehind scratch text ∧
    (text.length < size → (staleBehind scratch text).head? = some nul)

section Strings

variable {dst : ℕ → Char} {text more : List Char} {size : ℕ}

theorem holdsString_storedAt : HoldsString (storedAt dst (text ++ more)) text ↔
    more.head?.getD (dst text.length) = nul := by
  have htext : (List.range text.length).map (storedAt dst (text ++ more)) = text := by
    apply List.ext_getElem
    · simp
    · intro i hi hi'
      rw [List.getElem_map, List.getElem_range, storedAt, List.getElem?_append_left hi',
        List.getElem?_eq_getElem hi', Option.getD_some]
  have hlast : storedAt dst (text ++ more) text.length = more.head?.getD (dst text.length) := by
    rw [storedAt, List.getElem?_append_right (Nat.le_refl _), Nat.sub_self, List.head?_eq_getElem?]
  rw [HoldsString, List.range_succ, List.map_append, htext, cString, List.map_singleton, hlast]
  constructor
  · intro h
    exact List.singleton_inj.mp (List.append_cancel_left h)
  · intro h
    rw [h]

theorem not_respectsBuffer_error (e : Undefined) :
    ¬ RespectsBuffer text size dst (.error e) := by
  intro h
  by_cases hsize : size ≤ text.length
  · cases h.null hsize
  · obtain ⟨_, hstored, -⟩ := h.copied (by omega)
    cases hstored

theorem respectsBuffer_copy_iff (extra tail : List Char) : RespectsBuffer text size dst
    (.ok (if size ≤ (text ++ extra).length then none else some (text ++ extra ++ tail))) ↔
      (text.length < size → (text ++ extra).length < size ∧
        (extra ++ tail).head?.getD (dst text.length) = nul ∧
        (text ++ extra ++ tail).length ≤ size) := by
  constructor
  · intro h hsize
    obtain ⟨stored, hstored, hholds, hlen⟩ := h.copied hsize
    split at hstored
    · cases hstored
    · obtain rfl := Option.some.inj (Except.ok.inj hstored)
      rw [List.append_assoc, holdsString_storedAt] at hholds
      exact ⟨by omega, hholds, hlen⟩
  · intro h
    constructor
    · intro hsize
      rw [if_pos (by rw [List.length_append]; omega)]
    · intro hsize
      obtain ⟨hfits, hend, hlen⟩ := h hsize
      rw [if_neg (by omega)]
      refine ⟨_, rfl, ?_, hlen⟩
      rw [List.append_assoc, holdsString_storedAt]
      exact hend

end Strings

section Printers

variable {src : Mem} {dst : ℕ → Char} {text : List Char} {size : ℕ} {scratch : Scratch}

theorem endsInQuad_iff (src : Mem) :
    EndsInQuad src ↔ encapsulates src (bestRun src) = true := by
  constructor
  · rintro ⟨r, helided, hr⟩
    rw [(elided_bestRun src).unique helided]
    exact encapsulates_iff.mpr ⟨r, rfl, hr⟩
  · intro h
    have helided := elided_bestRun src
    obtain ⟨r, hbest, hr⟩ := encapsulates_iff.mp h
    rw [hbest] at helided
    exact ⟨r, helided, hr⟩

theorem respects_inet_iff : RespectsBuffer (quadText src) size dst (inetNtop4 src size scratch) ↔
    (size ≤ (quadText src).length ∨ dst (quadText src).length = nul) := by
  have hcopy : RespectsBuffer (quadText src) size dst _ ↔ _ := respectsBuffer_copy_iff [] []
  simp only [List.append_nil, List.head?_nil, Option.getD_none] at hcopy
  rw [inetNtop4_eq, hcopy]
  constructor
  · intro h
    by_cases hsize : size ≤ (quadText src).length
    · exact .inl hsize
    · exact .inr (h (by omega)).2.1
  · intro h hsize
    exact ⟨hsize, h.resolve_left (by omega), by omega⟩

/-- Without an IPv4 address the copy has 46 bytes. -/
theorem respects_text_iff (hq : ¬ EndsInQuad src) (htext : ipv6Text src (bestRun src) = text) :
    RespectsBuffer text size dst (inetNtop6 src size scratch) ↔
      (size ≤ text.length ∨ 46 ≤ size) := by
  have hle := length_ipv6Text (elided_bestRun src)
  rw [htext] at hle
  have hfalse : encapsulates src (bestRun src) = false := by
    rw [Bool.eq_false_iff]
    exact fun h => hq ((endsInQuad_iff src).mpr h)
  have hcopy : RespectsBuffer text size dst _ ↔ _ :=
    respectsBuffer_copy_iff [] (List.replicate (46 - text.length) nul)
  simp only [List.append_nil, List.nil_append, List.length_append, List.length_replicate] at hcopy
  rw [inetNtop6_text hfalse size scratch htext, hcopy]
  constructor
  · intro h
    by_cases hsize : size ≤ text.length
    · exact .inl hsize
    · have hlen := (h (by omega)).2.2
      omega
  · intro h hsize
    refine ⟨hsize, ?_, by omega⟩
    obtain ⟨k, hk⟩ : ∃ k, 46 - text.length = k + 1 := ⟨45 - text.length, by omega⟩
    rw [hk, List.replicate_succ]
    rfl

/-- With an IPv4 address the copy includes what the scratch array held behind it. -/
theorem respects_quad_iff (hq : EndsInQuad src) (htext : ipv6Text src (bestRun src) = text) :
    RespectsBuffer text size dst (inetNtop6 src size scratch) ↔
      (size ≤ text.length ∨ 46 ≤ size) ∧ nul ∈ staleBehind scratch text ∧
        (text.length < size → (staleBehind scratch text).head? = some nul) := by
  have hle := length_ipv6Text (elided_bestRun src)
  rw [htext] at hle
  rw [inetNtop6_quad ((endsInQuad_iff src).mp hq) size scratch htext]
  by_cases hmem : nul ∈ staleBehind scratch text
  · rw [if_pos hmem, respectsBuffer_copy_iff]
    obtain ⟨c, rest, hstale⟩ := List.exists_cons_of_ne_nil (List.ne_nil_of_mem hmem)
    rw [hstale] at hmem ⊢
    by_cases hc : c = nul
    · -- the terminator lies directly behind the text
      obtain ⟨k, hk⟩ : ∃ k, 46 - text.length = k + 1 := ⟨45 - text.length, by omega⟩
      rw [List.takeWhile_cons_of_neg (by simp [hc]), List.append_nil, List.nil_append,
        List.length_append, List.length_replicate, hk, List.replicate_succ]
      simp only [List.head?_cons, Option.getD_some, hc]
      constructor
      · intro h
        exact ⟨by omega, List.mem_cons_self .., fun _ => trivial⟩
      · intro h hsize
        exact ⟨hsize, trivial, by omega⟩
    · -- a character of the array follows the text
      rw [List.takeWhile_cons_of_pos (by simp [hc])]
      simp only [List.cons_append, List.head?_cons, Option.getD_some, Option.some.injEq, hc, hmem,
        false_and, and_false, true_and]
      constructor
      · intro h
        exact ⟨.inl (Nat.le_of_not_lt h), h⟩
      · intro h
        exact h.2
  · rw [if_neg hmem]
    constructor
    · exact fun h => absurd h (not_respectsBuffer_error _)
    · exact fun h => absurd h.2.1 hmem

end Printers

/-- For every address of either family with its text, every size, every content of the buffer and
every content of the scratch arrays: `inet_ntop` respects the buffer exactly if it suits. -/
theorem inetNtop_respects_iff {src : Mem} {af : ℤ} {text : List Char}
    (htext : IsAddressText src af text) (size : ℕ) (dst : ℕ → Char) (scratch : Scratch) :
    RespectsBuffer text size dst (inetNtop af src size scratch) ↔
      BufferSuits src af text size dst scratch := by
  rcases (isAddressText_iff src af text).mp htext with ⟨rfl, rfl⟩ | ⟨rfl, rfl⟩
  · change RespectsBuffer _ _ _ (inetNtop4 src size scratch) ↔ _
    rw [respects_inet_iff]
    constructor
    · intro h
      exact ⟨fun _ => h, fun haf => absurd haf (by decide), fun haf => absurd haf (by decide)⟩
    · exact fun h => h.inet rfl
  · change RespectsBuffer _ _ _ (inetNtop6 src size scratch) ↔ _
    by_cases hq : EndsInQuad src
    · rw [respects_quad_iff hq rfl]
      constructor
      · intro h
        exact ⟨fun haf => absurd haf (by decide), fun _ => h.1, fun _ _ => h.2⟩
      · exact fun h => ⟨h.inet6 rfl, h.quad rfl hq⟩
    · rw [respects_text_iff hq rfl]
      constructor
      · intro h
        exact ⟨fun haf => absurd haf (by decide), fun _ => h, fun _ hquad => absurd hquad hq⟩
      · exact fun h => h.inet6 rfl

section Samples

def address (bytes : List UInt8) : Mem := fun i => bytes.getD i 0

def scratchOf (c : Char) : Scratch := ⟨⟨.replicate 16 c, by simp⟩, ⟨.replicate 46 c, by simp⟩⟩

def loopback : Mem := address (.replicate 15 0 ++ [1])

theorem inetNtop_respects_iff_sample :
    RespectsBuffer "::1".toList 46 (fun _ => 'x')
      (inetNtop afInet6 loopback 46 (scratchOf 'x')) := by
  have htext : IsAddressText loopback afInet6 "::1".toList := by
    rw [isAddressText_iff]
    exact .inr ⟨rfl, by decide +kernel⟩
  have hq : ¬ EndsInQuad loopback := by
    rw [endsInQuad_iff]
    decide +kernel
  exact (inetNtop_respects_iff htext 46 _ _).mpr
    ⟨fun haf => absurd haf (by decide), fun _ => .inr (by decide), fun _ h => absurd h hq⟩

def fourBytes : Mem := address [1, 2, 3, 4]

def mappedBytes : Mem := address (.replicate 12 0 ++ [1, 2, 3, 4])

/-- The text of an IPv4 address is not terminated. That of an IPv6 address is stored beyond a
buffer of four bytes. With a scratch array without terminators it is read behind its end. -/
theorem disrespected_buffers :
    (IsAddressText fourBytes afInet "1.2.3.4".toList ∧
      ¬ RespectsBuffer "1.2.3.4".toList 16 (fun _ => 'x')
        (inetNtop afInet fourBytes 16 (scratchOf nul))) ∧
    (IsAddressText loopback afInet6 "::1".toList ∧
      ¬ RespectsBuffer "::1".toList 4 (fun _ => nul)
        (inetNtop afInet6 loopback 4 (scratchOf nul))) ∧
    IsAddressText mappedBytes afInet6 "::1.2.3.4".toList ∧
      ¬ RespectsBuffer "::1.2.3.4".toList 46 (fun _ => nul)
        (inetNtop afInet6 mappedBytes 46 (scratchOf 'x')) := by
  refine ⟨⟨?_, ?_⟩, ⟨?_, ?_⟩, ?_, ?_⟩
  · rw [isAddressText_iff]
    exact .inl ⟨rfl, by decide +kernel⟩
  · intro h
    have hresult : inetNtop afInet fourBytes 16 (scratchOf nul) = .ok (some "1.2.3.4".toList) := by
      decide +kernel
    obtain ⟨stored, hstored, hholds, -⟩ := h.copied (by decide)
    obtain rfl := Option.some.inj (Except.ok.inj (hresult.symm.trans hstored))
    exact absurd hholds (by unfold HoldsString; decide +kernel)
  · rw [isAddressText_iff]
    exact .inr ⟨rfl, by decide +kernel⟩
  · intro h
    have hresult : inetNtop afInet6 loopback 4 (scratchOf nul) =
        .ok (some ("::1".toList ++ List.replicate 43 nul)) := by
      decide +kernel
    obtain ⟨stored, hstored, -, hlen⟩ := h.copied (by decide)
    obtain rfl := Option.some.inj (Except.ok.inj (hresult.symm.trans hstored))
    exact absurd hlen (by decide)
  · rw [isAddressText_iff]
    exact .inr ⟨rfl, by decide +kernel⟩
  · have hresult : inetNtop afInet6 mappedBytes 46 (scratchOf 'x') = .error .outOfBounds := by
      decide +kernel
    rw [hresult]
    exact not_respectsBuffer_error _

end Samples

end MongoSgx
