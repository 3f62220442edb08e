import MongoSgx.Scanner.Vsscanf

/-! # Reported numbers

A number that the scanner reports is the number in the text, and the returned
value counts what was stored, exactly when the function that was called returns
the count and every number that a directive consumes belongs to `int`.
-/

namespace MongoSgx

open Numeral

inductive EntryPoint where
  | sscanf
  | sgxSscanf
  | isoc99Sscanf
  deriving DecidableEq

def EntryPoint.run : EntryPoint → List Char → List Char → Except Undefined Report
  | .sscanf => MongoSgx.sscanf
  | .sgxSscanf => MongoSgx.sgxSscanf
  | .isoc99Sscanf => MongoSgx.isoc99Sscanf

/-- The call ends without undefined arithmetic or reads, it returns the number of values that it
has stored, and each of them is what the corresponding part of the text denotes. -/
def ReportsExactly (e : EntryPoint) (str format : List Char) : Prop :=
  ∃ report, e.run (cString str) (cString format) = .ok report ∧
    report.returned = some report.stored.length ∧
    report.stored <+: (consumed format str).map Token.value

section Tokens

variable {ts : List Token}

theorem mapM_store_of_fits (h : ∀ t ∈ ts, t.Fits) :
    ts.mapM Token.store = some (ts.map Token.value) := by
  induction ts with
  | nil => rfl
  | cons t ts ih =>
    have ih := ih fun x hx => h x (List.mem_cons_of_mem _ hx)
    rw [mapM_store_cons, if_pos (h t (List.mem_cons_self ..)), ih]
    rfl

theorem mapM_store_of_not_fits (h : ¬ ∀ t ∈ ts, t.Fits) : ts.mapM Token.store = none := by
  induction ts with
  | nil => exact absurd (by simp) h
  | cons t ts ih =>
    rw [mapM_store_cons]
    by_cases ht : t.Fits
    · have hts : ¬ ∀ x ∈ ts, x.Fits := fun hall => h fun x hx => by
        rcases List.mem_cons.mp hx with rfl | hx
        · exact ht
        · exact hall x hx
      rw [if_pos ht, ih hts]
      rfl
    · rw [if_neg ht]

end Tokens

variable {str format : List Char}

/-- Each function runs the scanner; they differ in what they return. -/
theorem EntryPoint.run_eq (e : EntryPoint) (str format : List Char) :
    e.run str format = (vsscanf str format).map fun scanned =>
      ⟨if e = .sscanf then none else some scanned.valCnt, scanned.stored⟩ := by
  cases e with
  | sscanf =>
    change (vsscanf str format >>= _) = _
    cases vsscanf str format <;> rfl
  | sgxSscanf =>
    change (vsscanf str format >>= _) = _
    cases vsscanf str format <;> rfl
  | isoc99Sscanf =>
    change (vsscanf str format >>= _) = _
    cases vsscanf str format <;> rfl

/-- For every text and every format, a call reports exactly what is in the text if and only if
the function returns the count and every number that is consumed belongs to `int`. Then nothing
that is consumed is left out. -/
theorem reportsExactly_iff (e : EntryPoint) (hs : nul ∉ str) (hf : nul ∉ format) :
    (ReportsExactly e str format ↔ e ≠ .sscanf ∧ ∀ t ∈ consumed format str, t.Fits) ∧
    (e ≠ .sscanf ∧ (∀ t ∈ consumed format str, t.Fits) →
      e.run (cString str) (cString format) =
        .ok ⟨some (consumed format str).length, (consumed format str).map Token.value⟩) := by
  have hscan : vsscanf (cString str) (cString format) =
      finish 0 [] ((consumed format str).mapM Token.store) := vsscanf_cString hf hs
  have hrun : e ≠ .sscanf ∧ (∀ t ∈ consumed format str, t.Fits) →
      e.run (cString str) (cString format) =
        .ok ⟨some (consumed format str).length, (consumed format str).map Token.value⟩ := by
    rintro ⟨he, hfits⟩
    rw [mapM_store_of_fits hfits] at hscan
    rw [e.run_eq, hscan]
    simp [finish, Except.map, he]
  refine ⟨⟨?_, fun h => ⟨_, hrun h, by simp, List.prefix_rfl⟩⟩, hrun⟩
  rintro ⟨report, hreport, hcount, -⟩
  by_cases hfits : ∀ t ∈ consumed format str, t.Fits
  · refine ⟨fun he => ?_, hfits⟩
    rw [mapM_store_of_fits hfits] at hscan
    rw [e.run_eq, hscan, he] at hreport
    cases hreport
    cases hcount
  · rw [mapM_store_of_not_fits hfits] at hscan
    rw [e.run_eq, hscan] at hreport
    cases hreport

/-- The least number of `int` with leading zeros, and a mismatch behind it. -/
theorem reportsExactly_iff_sample :
    isoc99Sscanf (cString "v-002147483648;".toList) (cString "%c%d.%d".toList) =
      .ok ⟨some 2, [.char 'v', .int (-2147483648)]⟩ := by
  have hstr : nul ∉ "v-002147483648;".toList := by decide
  have hformat : nul ∉ "%c%d.%d".toList := by decide
  exact (reportsExactly_iff .isoc99Sscanf hstr hformat).2 ⟨by decide, by decide⟩

/-- The number next to the greatest one overflows in the final negation, and `sscanf` returns
nothing even for a number that fits. -/
theorem out_of_range_not_reported :
    sgxSscanf (cString "2147483648".toList) (cString "%d".toList) = .error .overflow ∧
    ¬ ReportsExactly .sgxSscanf "2147483648".toList "%d".toList ∧
    ¬ ReportsExactly .sscanf "1".toList "%d".toList := by
  have hoverflow : sgxSscanf (cString "2147483648".toList) (cString "%d".toList) =
      .error .overflow := rfl
  have hone : sscanf (cString "1".toList) (cString "%d".toList) = .ok ⟨none, [.int 1]⟩ := rfl
  refine ⟨hoverflow, ?_, ?_⟩
  · rintro ⟨report, hreport, -⟩
    cases hoverflow.symm.trans hreport
  · rintro ⟨report, hreport, hcount, -⟩
    cases hone.symm.trans hreport
    cases hcount

end MongoSgx
