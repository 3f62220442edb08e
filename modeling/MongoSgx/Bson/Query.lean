import MongoSgx.Bson.Value

/-! # Selectors and updates

A selector is a conjunction of conditions on dotted paths. A path resolves to
every value it reaches, through the elements of arrays on the way, and an array
at its end stands for itself and for its elements. `$ne` asks that no resolved
value be equal. Updates edit one field at a time and keep the order of fields.
-/

namespace Bson

variable {β : Type}

namespace Value

/-- The values an equality at the end of a path is compared with. -/
def leaves : Value β → List (Value β)
  | .array vs => .array vs :: vs
  | v => [v]

def field (key : String) : Value β → List (Value β)
  | .document fs => (Doc.get? fs key).toList
  | .array vs => vs.flatMap fun
    | .document fs => (Doc.get? fs key).toList
    | _ => []
  | _ => []

def resolve : List String → Value β → List (Value β)
  | [], v => v.leaves
  | key :: path, v => (v.field key).flatMap (resolve path)

end Value

inductive Cond (β : Type) where
  | eq (v : Value β)
  | ne (v : Value β)

def Cond.Holds (vs : List (Value β)) : Cond β → Prop
  | .eq v => v ∈ vs
  | .ne v => v ∉ vs

/-- A conjunction of conditions, each on the values of a dotted path. -/
abbrev Selector (β : Type) := List (List String × Cond β)

def Selector.Matches (sel : Selector β) (d : Doc β) : Prop :=
  ∀ c ∈ sel, c.2.Holds ((Value.document d).resolve c.1)

def Selector.ofDoc (d : Doc β) : Selector β := d.map fun f => ([f.1], .eq f.2)

@[simp] theorem Selector.matches_nil (d : Doc β) : Selector.Matches [] d := by
  simp [Selector.Matches]

@[simp] theorem Selector.matches_cons (c : List String × Cond β) (sel : Selector β) (d : Doc β) :
    Selector.Matches (c :: sel) d ↔
      c.2.Holds ((Value.document d).resolve c.1) ∧ Selector.Matches sel d := by
  simp [Selector.Matches]

@[simp] theorem Selector.matches_append (sel sel' : Selector β) (d : Doc β) :
    Selector.Matches (sel ++ sel') d ↔ Selector.Matches sel d ∧ Selector.Matches sel' d := by
  simp only [Selector.Matches, List.mem_append, or_imp, forall_and]

@[simp] theorem Cond.holds_eq (vs : List (Value β)) (v : Value β) :
    (Cond.eq v).Holds vs ↔ v ∈ vs := Iff.rfl

@[simp] theorem Cond.holds_ne (vs : List (Value β)) (v : Value β) :
    (Cond.ne v).Holds vs ↔ v ∉ vs := Iff.rfl

variable [DecidableEq β]

instance (vs : List (Value β)) (c : Cond β) : Decidable (c.Holds vs) :=
  match c with
  | .eq v => inferInstanceAs (Decidable (v ∈ vs))
  | .ne v => inferInstanceAs (Decidable (v ∉ vs))

instance (sel : Selector β) (d : Doc β) : Decidable (sel.Matches d) :=
  inferInstanceAs (Decidable (∀ c ∈ sel, c.2.Holds ((Value.document d).resolve c.1)))

def Selector.matchesElem (sel : Selector β) : Value β → Bool
  | .document fs => decide (sel.Matches fs)
  | _ => false

inductive UpdateOp (β : Type) where
  | push (field : String) (v : Value β)
  | pull (field : String) (sel : Selector β)
  | set (field : String) (v : Value β)

abbrev Update (β : Type) := List (UpdateOp β)

namespace Doc

/-- `$push`: append to an array, or start one. Another type of field is a write error. -/
def push (key : String) (v : Value β) : Doc β → Option (Doc β)
  | [] => some [(key, .array [v])]
  | (k, w) :: d =>
    if k = key then
      match w with
      | .array vs => some ((k, .array (vs ++ [v])) :: d)
      | _ => none
    else (push key v d).map ((k, w) :: ·)

/-- `$pull`: drop the matching elements of an array. Another type of field is a write error. -/
def pull (key : String) (sel : Selector β) : Doc β → Option (Doc β)
  | [] => some []
  | (k, w) :: d =>
    if k = key then
      match w with
      | .array vs => some ((k, .array (vs.filter fun v => !sel.matchesElem v)) :: d)
      | _ => none
    else (pull key sel d).map ((k, w) :: ·)

/-- `$set`: replace a field in its place, or add it at the end. -/
def set (key : String) (v : Value β) : Doc β → Doc β
  | [] => [(key, v)]
  | (k, w) :: d => if k = key then (k, v) :: d else (k, w) :: set key v d

end Doc

def UpdateOp.apply (d : Doc β) : UpdateOp β → Option (Doc β)
  | .push key v => Doc.push key v d
  | .pull key sel => Doc.pull key sel d
  | .set key v => some (Doc.set key v d)

/-- Apply the edits of an update in order; `none` is a write error. -/
def Update.apply (upd : Update β) (d : Doc β) : Option (Doc β) := upd.foldlM UpdateOp.apply d

def UpdateOp.key : UpdateOp β → String
  | .push key _ | .pull key _ | .set key _ => key

section Frame

variable {d d' : Doc β} {key key' : String} {v w : Value β}

omit [DecidableEq β] in
theorem Doc.get?_cons :
    Doc.get? ((key', w) :: d) key = if key = key' then some w else d.get? key := by
  by_cases h : key = key'
  · simp [Doc.get?, h]
  · simp [Doc.get?, List.lookup_cons, beq_eq_false_iff_ne.mpr h, h]

omit [DecidableEq β] in
theorem Iter.initFind_cur : (Iter.initFind d key).cur = (d.get? key).map (Prod.mk key) := by
  induction d with
  | nil => rfl
  | cons f d ih =>
    obtain ⟨k, w⟩ := f
    rw [Doc.get?_cons]
    by_cases hk : k = key
    · subst hk
      simp [initFind, init]
    · rw [if_neg (Ne.symm hk), ← ih]
      simp [initFind, init, hk]

omit [DecidableEq β] in
theorem Iter.get?_of_binary {bytes : List β} (h : (Iter.initFind d key).binary = some bytes)
    (hne : bytes ≠ []) : d.get? key = some (.binary bytes) := by
  rw [Iter.binary, initFind_cur] at h
  cases hd : d.get? key with
  | none => simp [hd] at h
  | some v =>
    rw [hd] at h
    cases v with
    | binary b =>
      obtain rfl := Option.some.inj h
      rfl
    | _ => exact absurd (Option.some.inj h).symm hne

omit [DecidableEq β] in
theorem Doc.get?_push (hne : key ≠ key') (h : Doc.push key' v d = some d') :
    d'.get? key = d.get? key := by
  induction d generalizing d' with
  | nil =>
    cases h
    rw [get?_cons, if_neg hne]
  | cons f d ih =>
    obtain ⟨k, w⟩ := f
    unfold push at h
    split at h
    · rename_i hk
      subst hk
      cases w with
      | array vs =>
        cases h
        rw [get?_cons, get?_cons, if_neg hne, if_neg hne]
      | _ => cases h
    · obtain ⟨e, he, rfl⟩ := Option.map_eq_some_iff.mp h
      rw [get?_cons, get?_cons, ih he]

theorem Doc.get?_pull {sel : Selector β} (hne : key ≠ key') (h : Doc.pull key' sel d = some d') :
    d'.get? key = d.get? key := by
  induction d generalizing d' with
  | nil =>
    cases h
    rfl
  | cons f d ih =>
    obtain ⟨k, w⟩ := f
    unfold pull at h
    split at h
    · rename_i hk
      subst hk
      cases w with
      | array vs =>
        cases h
        rw [get?_cons, get?_cons, if_neg hne, if_neg hne]
      | _ => cases h
    · obtain ⟨e, he, rfl⟩ := Option.map_eq_some_iff.mp h
      rw [get?_cons, get?_cons, ih he]

omit [DecidableEq β] in
theorem Doc.get?_set (hne : key ≠ key') : (Doc.set key' v d).get? key = d.get? key := by
  induction d with
  | nil => rw [set, get?_cons, if_neg hne]
  | cons f d ih =>
    obtain ⟨k, w⟩ := f
    unfold set
    split
    · rename_i hk
      subst hk
      rw [get?_cons, get?_cons, if_neg hne, if_neg hne]
    · rw [get?_cons, get?_cons, ih]

theorem UpdateOp.get?_apply {op : UpdateOp β} (hne : key ≠ op.key) (h : op.apply d = some d') :
    Doc.get? d' key = Doc.get? d key := by
  cases op with
  | push => exact Doc.get?_push hne h
  | pull => exact Doc.get?_pull hne h
  | set =>
    cases h
    exact Doc.get?_set hne

theorem Update.get?_apply {upd : Update β} (hne : ∀ op ∈ upd, key ≠ op.key)
    (h : upd.apply d = some d') : Doc.get? d' key = Doc.get? d key := by
  induction upd generalizing d with
  | nil =>
    cases h
    rfl
  | cons op upd ih =>
    rw [apply, List.foldlM_cons] at h
    obtain ⟨e, he, h⟩ := Option.bind_eq_some_iff.mp h
    rw [ih (fun op' hop => hne op' (List.mem_cons_of_mem _ hop)) h]
    exact UpdateOp.get?_apply (hne op (List.mem_cons_self ..)) he

end Frame

section Filter

variable {d : Doc β} {key : String} {v : Value β} {p : String → Bool}

omit [DecidableEq β] in
theorem Doc.filter_push (hp : p key = true) :
    (Doc.push key v d).map (List.filter fun f => p f.1) =
      Doc.push key v (d.filter fun f => p f.1) := by
  induction d with
  | nil => simp [push, hp]
  | cons f d ih =>
    obtain ⟨k, w⟩ := f
    by_cases hk : k = key
    · subst hk
      cases w <;> simp [push, hp]
    · cases hpk : p k
      · simpa [push, hk, hpk, Function.comp_def] using ih
      · simp only [push, hk, ↓reduceIte, Option.map_map, Function.comp_def, List.filter_cons, hpk,
          ← ih]

theorem Doc.filter_pull {sel : Selector β} (hp : p key = true) :
    (Doc.pull key sel d).map (List.filter fun f => p f.1) =
      Doc.pull key sel (d.filter fun f => p f.1) := by
  induction d with
  | nil => rfl
  | cons f d ih =>
    obtain ⟨k, w⟩ := f
    by_cases hk : k = key
    · subst hk
      cases w <;> simp [pull, hp]
    · cases hpk : p k
      · simpa [pull, hk, hpk, Function.comp_def] using ih
      · simp only [pull, hk, ↓reduceIte, Option.map_map, Function.comp_def, List.filter_cons, hpk,
          ← ih]

omit [DecidableEq β] in
theorem Doc.filter_set (hp : p key = false) :
    (Doc.set key v d).filter (fun f => p f.1) = d.filter fun f => p f.1 := by
  induction d with
  | nil => simp [set, hp]
  | cons f d ih =>
    obtain ⟨k, w⟩ := f
    by_cases hk : k = key
    · subst hk
      simp [set, hp]
    · simp [set, hk, List.filter_cons, ih]

end Filter

end Bson
