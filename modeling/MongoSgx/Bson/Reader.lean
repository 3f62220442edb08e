import MongoSgx.Bson.Value

/-! # Readers of iterators

A reader hands out what an iterator stands on. The one of libbson gives no bytes
for an element that is not binary and enters documents and arrays alike. The
checked one hands out a value only where the iterator stands on an element of the
type that is asked for. A walk that the checked reader completes is the walk of
the code, without a value from anywhere else.
-/

namespace Bson

/-- How bytes are read, and how arrays and documents are entered with an iterator that may have been
set before. -/
structure Reader (β : Type) where
  binary : Iter β → Option (List β)
  array : Iter β → Option (Iter β) → Option (Iter β)
  document : Iter β → Option (Iter β) → Option (Iter β)

variable {β : Type}

namespace Reader

def libbson : Reader β where
  binary := Iter.binary
  array := Iter.recurse
  document := Iter.recurse

/-- The reader that looks at the type of the element first. -/
def checked : Reader β where
  binary it :=
    match it.cur with
    | some (_, .binary b) => some b
    | _ => none
  array it child :=
    match it.cur with
    | some (_, .array _) => it.recurse child
    | _ => none
  document it child :=
    match it.cur with
    | some (_, .document _) => it.recurse child
    | _ => none

def elements (vs : List (Value β)) : Doc β := vs.zipIdx.map fun v => (toString v.2, v.1)

@[simp] theorem elements_map_snd (vs : List (Value β)) : (elements vs).map Prod.snd = vs := by
  rw [elements, List.map_map, Function.comp_def, List.zipIdx_map_fst]

variable {it jt : Iter β} {child : Option (Iter β)} {b : List β} {d : Doc β}

theorem checked_binary_eq_some :
    checked.binary it = some b ↔ ∃ key, it.cur = some (key, .binary b) := by
  unfold checked
  grind

theorem checked_array_eq_some : checked.array it child = some jt ↔
    ∃ key vs, it.cur = some (key, .array vs) ∧ jt = Iter.init (elements vs) := by
  simp only [checked, Iter.recurse, elements]
  grind

theorem checked_document_eq_some :
    checked.document it child = some jt ↔
      ∃ key fields, it.cur = some (key, .document fields) ∧ jt = Iter.init fields := by
  simp only [checked, Iter.recurse]
  grind

theorem libbson_binary (h : checked.binary it = some b) : libbson.binary it = some b := by
  obtain ⟨key, hcur⟩ := checked_binary_eq_some.mp h
  simp only [libbson, Iter.binary, hcur]

theorem libbson_array (h : checked.array it child = some jt) :
    libbson.array it child = some jt := by
  obtain ⟨key, vs, hcur, rfl⟩ := checked_array_eq_some.mp h
  simp only [libbson, Iter.recurse, hcur, elements]

theorem libbson_document (h : checked.document it child = some jt) :
    libbson.document it child = some jt := by
  obtain ⟨key, fields, hcur, rfl⟩ := checked_document_eq_some.mp h
  simp only [libbson, Iter.recurse, hcur]

end Reader

def Doc.FirstBinary (key : String) (b : List β) (d rest : Doc β) : Prop :=
  ∃ before, (∀ f ∈ before, f.1 ≠ key) ∧ d = before ++ (key, .binary b) :: rest

section Find

variable {key : String} {b : List β} {d rest : Doc β}

theorem findIn_eq_iff {v : Value β} : Iter.findIn key d = ⟨some (key, v), rest⟩ ↔
    ∃ before, (∀ f ∈ before, f.1 ≠ key) ∧ d = before ++ (key, v) :: rest := by
  induction d with
  | nil => simp [Iter.findIn]
  | cons f d ih =>
    by_cases hf : f.1 = key
    · rw [Iter.findIn, if_pos hf]
      constructor
      · intro h
        obtain ⟨rfl, rfl⟩ := Iter.mk.inj h |>.imp Option.some.inj id
        exact ⟨[], by simp, rfl⟩
      · rintro ⟨_ | ⟨g, before⟩, hbefore, hd⟩
        · obtain ⟨rfl, rfl⟩ := List.cons.inj hd
          rfl
        · obtain ⟨rfl, -⟩ := List.cons.inj hd
          exact absurd hf (hbefore f (List.mem_cons_self ..))
    · rw [Iter.findIn, if_neg hf, ih]
      constructor
      · rintro ⟨before, hbefore, rfl⟩
        refine ⟨f :: before, ?_, rfl⟩
        intro g hg
        rcases List.mem_cons.mp hg with rfl | hg
        · exact hf
        · exact hbefore g hg
      · rintro ⟨_ | ⟨g, before⟩, hbefore, hd⟩
        · obtain ⟨rfl, -⟩ := List.cons.inj hd
          exact absurd rfl hf
        · obtain ⟨rfl, rfl⟩ := List.cons.inj hd
          exact ⟨before, fun x hx => hbefore x (List.mem_cons_of_mem _ hx), rfl⟩

theorem cur_findIn {f : String × Value β} (h : (Iter.findIn key d).cur = some f) : f.1 = key := by
  induction d with
  | nil => simp [Iter.findIn] at h
  | cons g d ih =>
    unfold Iter.findIn at h
    split at h
    case isTrue hg =>
      obtain rfl := Option.some.inj h
      exact hg
    case isFalse => exact ih h

theorem checked_binary_find_iff {it : Iter β} :
    Reader.checked.binary (it.find key) = some b ↔ ∃ rest, Doc.FirstBinary key b it.rest rest := by
  rw [Reader.checked_binary_eq_some]
  constructor
  · rintro ⟨k, hk⟩
    obtain rfl : k = key := cur_findIn hk
    exact ⟨(it.find k).rest, findIn_eq_iff.mp (by rw [← hk]; rfl)⟩
  · rintro ⟨rest, h⟩
    have hfind := findIn_eq_iff.mpr h
    exact ⟨key, by rw [Iter.find, hfind]⟩

theorem checked_array_find_iff {it arrayIter : Iter β} {child : Option (Iter β)} :
    Reader.checked.array (it.find key) child = some arrayIter ↔
      ∃ before vs rest, it.rest = before ++ (key, .array vs) :: rest ∧
        (∀ f ∈ before, f.1 ≠ key) ∧ arrayIter = Iter.init (Reader.elements vs) := by
  rw [Reader.checked_array_eq_some]
  constructor
  · rintro ⟨k, vs, hk, rfl⟩
    obtain rfl : k = key := cur_findIn hk
    obtain ⟨before, hbefore, hrest⟩ := findIn_eq_iff.mp
      (show Iter.findIn k it.rest = ⟨some (k, .array vs), (it.find k).rest⟩ by rw [← hk]; rfl)
    exact ⟨before, vs, _, hrest, hbefore, rfl⟩
  · rintro ⟨before, vs, rest, hrest, hbefore, rfl⟩
    have hfind := findIn_eq_iff.mpr ⟨before, hbefore, hrest⟩
    exact ⟨key, vs, by rw [Iter.find, hfind], rfl⟩

theorem rest_find (h : Doc.FirstBinary key b d rest) : ((Iter.init d).find key).rest = rest := by
  rw [Iter.init, Iter.find, findIn_eq_iff.mpr h]

end Find

end Bson
