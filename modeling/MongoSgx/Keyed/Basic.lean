import Mathlib.Data.List.Nodup

/-! # Lists with a unique key

A list whose elements have pairwise distinct keys, as a collection with a unique
index holds them. Elements are looked up, edited in place and removed by key;
new elements go to the end, and an element whose key is taken is not added.
-/

@[ext] structure Keyed {α κ : Type} (key : α → κ) where
  elems : List α
  nodup : (elems.map key).Nodup

namespace Keyed

variable {α α' κ : Type} {key : α → κ} {key' : α' → κ} {l : Keyed key} {a b : α} {k k' : κ}

instance : Membership α (Keyed key) := ⟨fun l a => a ∈ l.elems⟩

theorem mem_def : a ∈ l ↔ a ∈ l.elems := Iff.rfl

def keys (l : Keyed key) : List κ := l.elems.map key

theorem mem_keys : k ∈ l.keys ↔ ∃ a ∈ l, key a = k := List.mem_map

theorem eq_of_key_eq (ha : a ∈ l) (hb : b ∈ l) (h : key a = key b) : a = b :=
  List.inj_on_of_nodup_map l.nodup ha hb h

def empty : Keyed key := ⟨[], List.nodup_nil⟩

def map (f : α → α') (hf : ∀ a, key' (f a) = key a) (l : Keyed key) : Keyed key' where
  elems := l.elems.map f
  nodup := by
    rw [List.map_map, show key' ∘ f = key from funext hf]
    exact l.nodup

@[simp] theorem mem_map {f : α → α'} {hf : ∀ a, key' (f a) = key a} {b : α'} :
    b ∈ l.map f hf ↔ ∃ a ∈ l, f a = b := List.mem_map

@[simp] theorem keys_map {f : α → α'} (hf : ∀ a, key' (f a) = key a) :
    (l.map f hf).keys = l.keys := by
  simp only [keys, map, List.map_map]
  rw [show key' ∘ f = key from funext hf]

def sub (l : Keyed key) (as : List α) (h : as.Sublist l.elems) : Keyed key :=
  ⟨as, l.nodup.sublist (h.map key)⟩

variable [DecidableEq κ]

def find (l : Keyed key) (k : κ) : Option α := l.elems.find? fun a => key a = k

theorem find_eq_some_iff : l.find k = some a ↔ a ∈ l ∧ key a = k := by
  constructor
  · intro h
    exact ⟨List.mem_of_find?_eq_some h, by simpa using List.find?_some h⟩
  · rintro ⟨ha, rfl⟩
    cases h : l.find (key a) with
    | none =>
      have hn := List.find?_eq_none.mp h a ha
      simp at hn
    | some b =>
      have hb := List.find?_some h
      rw [eq_of_key_eq (List.mem_of_find?_eq_some h) ha (by simpa using hb)]

theorem find_eq_none_iff : l.find k = none ↔ ∀ a ∈ l, key a ≠ k := by
  simp [find, mem_def]

theorem find_eq_none_iff_keys : l.find k = none ↔ k ∉ l.keys := by
  simp [find_eq_none_iff, mem_keys]

/-- Add an element at the end, unless its key is taken. -/
def add (a : α) (l : Keyed key) : Keyed key :=
  if h : key a ∈ l.keys then l
  else ⟨l.elems ++ [a], by
    rw [List.map_append, List.map_singleton, ← List.concat_eq_append, List.nodup_concat]
    exact ⟨h, l.nodup⟩⟩

theorem elems_add (h : key a ∉ l.keys) : (l.add a).elems = l.elems ++ [a] := by
  unfold add
  rw [dif_neg h]

theorem add_of_mem (h : key a ∈ l.keys) : l.add a = l := dif_pos h

theorem keys_add (h : key a ∉ l.keys) : (l.add a).keys = l.keys ++ [key a] := by
  unfold keys
  rw [elems_add h, List.map_append, List.map_singleton]

theorem mem_add (h : key a ∉ l.keys) : b ∈ l.add a ↔ b ∈ l ∨ b = a := by
  rw [mem_def, elems_add h, List.mem_append, List.mem_singleton, mem_def]

theorem find_add (h : key a ∉ l.keys) :
    (l.add a).find k = if k = key a then some a else l.find k := by
  unfold find
  rw [elems_add h, List.find?_append]
  split
  · rename_i hk
    subst hk
    have hn : l.find (key a) = none := find_eq_none_iff_keys.mpr h
    unfold find at hn
    simp [hn]
  · rename_i hk
    simp [Ne.symm hk]

theorem find_map {f : α → α'} (hf : ∀ a, key' (f a) = key a) :
    (l.map f hf).find k = (l.find k).map f := by
  simp only [find, map, List.find?_map]
  congr 2
  funext a
  simp [hf]

def modify (k : κ) (f : α → α) (hf : ∀ a, key (f a) = key a) (l : Keyed key) : Keyed key :=
  l.map (fun a => if key a = k then f a else a) fun a => by split <;> simp [hf]

@[simp] theorem keys_modify {f : α → α} (hf : ∀ a, key (f a) = key a) :
    (l.modify k f hf).keys = l.keys := by
  unfold modify
  rw [keys_map]

theorem find_modify {f : α → α} (hf : ∀ a, key (f a) = key a) :
    (l.modify k f hf).find k' = if k' = k then (l.find k).map f else l.find k' := by
  unfold modify
  rw [find_map]
  split
  · rename_i h
    subst h
    cases hk : l.find k' with
    | none => rfl
    | some a => simp [(find_eq_some_iff.mp hk).2]
  · rename_i h
    cases hk : l.find k' with
    | none => rfl
    | some a => simp [(find_eq_some_iff.mp hk).2, h]

theorem modify_eq_self {f : α → α} (hf : ∀ a, key (f a) = key a)
    (h : ∀ a ∈ l, key a = k → f a = a) : l.modify k f hf = l := by
  ext1
  refine (List.map_congr_left fun a ha => ?_).trans (List.map_id _)
  by_cases hk : key a = k
  · rw [if_pos hk]
    exact h a ha hk
  · rw [if_neg hk]
    rfl

theorem elems_modify {f : α → α} (hf : ∀ a, key (f a) = key a) {l₁ l₂ : List α}
    (h : l.elems = l₁ ++ a :: l₂) : (l.modify (key a) f hf).elems = l₁ ++ f a :: l₂ := by
  have hn := l.nodup
  rw [h, List.map_append, List.map_cons, List.nodup_middle, List.nodup_cons] at hn
  have hne : ∀ b ∈ l₁ ++ l₂, (if key b = key a then f b else b) = b := by
    intro b hb
    rw [if_neg fun hk => hn.1 ?_]
    rw [← hk, ← List.map_append]
    exact List.mem_map_of_mem hb
  have hl₁ : l₁.map (fun b => if key b = key a then f b else b) = l₁ :=
    (List.map_congr_left fun b hb => hne b (List.mem_append_left _ hb)).trans (List.map_id l₁)
  have hl₂ : l₂.map (fun b => if key b = key a then f b else b) = l₂ :=
    (List.map_congr_left fun b hb => hne b (List.mem_append_right _ hb)).trans (List.map_id l₂)
  simp [modify, map, h, hl₁, hl₂]

def erase (k : κ) (l : Keyed key) : Keyed key :=
  l.sub (l.elems.filter fun a => key a ≠ k) List.filter_sublist

@[simp] theorem mem_erase : a ∈ l.erase k ↔ a ∈ l ∧ key a ≠ k := by
  simp [erase, sub, mem_def]

theorem keys_erase : (l.erase k).keys = l.keys.filter (· ≠ k) := by
  simp only [keys, erase, sub, List.filter_map]
  rfl

theorem elems_erase {l₁ l₂ : List α} (h : l.elems = l₁ ++ a :: l₂) :
    (l.erase (key a)).elems = l₁ ++ l₂ := by
  have hn := l.nodup
  rw [h, List.map_append, List.map_cons, List.nodup_middle, List.nodup_cons] at hn
  have hne : ∀ b ∈ l₁ ++ l₂, key b ≠ key a := by
    intro b hb hk
    refine hn.1 ?_
    rw [← hk, ← List.map_append]
    exact List.mem_map_of_mem hb
  have hl₁ : l₁.filter (fun b => key b ≠ key a) = l₁ :=
    List.filter_eq_self.mpr fun b hb => by simpa using hne b (List.mem_append_left _ hb)
  have hl₂ : l₂.filter (fun b => key b ≠ key a) = l₂ :=
    List.filter_eq_self.mpr fun b hb => by simpa using hne b (List.mem_append_right _ hb)
  change l.elems.filter (fun b => key b ≠ key a) = _
  rw [h, List.filter_append, List.filter_cons, hl₁, hl₂]
  simp

section Map

variable {f : α → α'} {hf : ∀ a, key' (f a) = key a}

theorem map_add : (l.add a).map f hf = (l.map f hf).add (f a) := by
  by_cases h : key a ∈ l.keys
  · rw [add_of_mem h, add_of_mem (by rwa [keys_map, hf])]
  · ext1
    rw [elems_add (by rwa [keys_map, hf])]
    change (l.add a).elems.map f = _
    rw [elems_add h, List.map_append, List.map_singleton]
    rfl

theorem map_modify {g : α → α} (hg : ∀ a, key (g a) = key a) {g' : α' → α'}
    {hg' : ∀ a, key' (g' a) = key' a} (h : ∀ a, f (g a) = g' (f a)) :
    (l.modify k g hg).map f hf = (l.map f hf).modify k g' hg' := by
  ext1
  simp only [modify, map, List.map_map]
  apply List.map_congr_left
  intro a _
  simp only [Function.comp_apply, hf]
  split <;> simp [h]

omit [DecidableEq κ] in
theorem map_map {α'' : Type} {key'' : α'' → κ} {f' : α' → α''} {hf' : ∀ a, key'' (f' a) = key' a} :
    (l.map f hf).map f' hf' = l.map (f' ∘ f) fun a => (hf' (f a)).trans (hf a) := by
  ext1
  simp only [map, List.map_map]

theorem map_erase : (l.erase k).map f hf = (l.map f hf).erase k := by
  ext1
  simp only [erase, sub, map, List.filter_map]
  congr 1
  apply List.filter_congr
  intro a _
  simp [hf]

end Map

end Keyed
