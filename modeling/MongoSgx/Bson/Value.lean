import Mathlib.Data.Int.Notation
import Mathlib.Data.Nat.Notation

/-! # BSON documents and iterators

A document is a list of named fields: names may repeat and may come in any
order. Iterators follow libbson. They walk a document forward, `find` looks on
from the current position, and `recurse` lets another iterator enter a document or an
array. Reading through an iterator that stands on no element is undefined, written
`none`.
-/

namespace Bson

/-- The element types the programs never look into. -/
inductive Scalar where
  | int32 (n : ℤ)
  | int64 (n : ℤ)
  | bool (b : Bool)
  | utf8 (s : String)
  | oid (id : ℕ)
  | null
  deriving DecidableEq

inductive Value (β : Type) where
  | binary (bytes : List β)
  | document (fields : List (String × Value β))
  | array (elems : List (Value β))
  | scalar (s : Scalar)

abbrev Doc (β : Type) := List (String × Value β)

variable {β : Type}

section DecidableEq

variable [DecidableEq β]

mutual

def Value.decEq : (v w : Value β) → Decidable (v = w)
  | .binary a, .binary b => decidable_of_iff (a = b) (by simp)
  | .document a, .document b =>
    have := decEqFields a b
    decidable_of_iff (a = b) (by simp)
  | .array a, .array b =>
    have := decEqElems a b
    decidable_of_iff (a = b) (by simp)
  | .scalar a, .scalar b => decidable_of_iff (a = b) (by simp)
  | .binary _, .document _ | .binary _, .array _ | .binary _, .scalar _
  | .document _, .binary _ | .document _, .array _ | .document _, .scalar _
  | .array _, .binary _ | .array _, .document _ | .array _, .scalar _
  | .scalar _, .binary _ | .scalar _, .document _ | .scalar _, .array _ => isFalse nofun

def decEqFields : (a b : List (String × Value β)) → Decidable (a = b)
  | [], [] => isTrue rfl
  | [], _ :: _ | _ :: _, [] => isFalse nofun
  | (k, v) :: a, (l, w) :: b =>
    have := v.decEq w
    have := decEqFields a b
    decidable_of_iff (k = l ∧ v = w ∧ a = b) (by simp [and_assoc])

def decEqElems : (a b : List (Value β)) → Decidable (a = b)
  | [], [] => isTrue rfl
  | [], _ :: _ | _ :: _, [] => isFalse nofun
  | v :: a, w :: b =>
    have := v.decEq w
    have := decEqElems a b
    decidable_of_iff (v = w ∧ a = b) (by simp)

end

instance : DecidableEq (Value β) := Value.decEq

end DecidableEq

/-- The first field of the given name. -/
def Doc.get? (d : Doc β) (key : String) : Option (Value β) := d.lookup key

/-- An iterator: the element it stands on, if any, and the fields after it. -/
structure Iter (β : Type) where
  cur : Option (String × Value β)
  rest : Doc β

namespace Iter

def init (d : Doc β) : Iter β := ⟨none, d⟩

/-- `bson_iter_next` until a field of the given name, or past the last field. -/
def findIn (key : String) : Doc β → Iter β
  | [] => ⟨none, []⟩
  | f :: d => if f.1 = key then ⟨some f, d⟩ else findIn key d

def find (key : String) (it : Iter β) : Iter β := findIn key it.rest

/-- `bson_iter_init_find`: the first field of the given name. -/
def initFind (d : Doc β) (key : String) : Iter β := (init d).find key

/-- `bson_iter_recurse`: `child` is set before the first field of the container that the iterator
stands on. On any other element it is left as it is, which is `none` before it is first set. Array
elements are named by their positions. -/
def recurse (it : Iter β) (child : Option (Iter β)) : Option (Iter β) :=
  match it.cur with
  | some (_, .document fs) => some (init fs)
  | some (_, .array vs) => some (init (vs.zipIdx.map fun v => (toString v.2, v.1)))
  | some _ => child
  | none => none

/-- `bson_iter_binary`: the bytes of a binary element, none for any other element. -/
def binary (it : Iter β) : Option (List β) :=
  match it.cur with
  | some (_, .binary b) => some b
  | some _ => some []
  | none => none

/-- `bson_iter_int64`: the value of an int64 element, zero for any other element. -/
def int64 (it : Iter β) : Option ℤ :=
  match it.cur with
  | some (_, .scalar (.int64 n)) => some n
  | some _ => some 0
  | none => none

@[simp] theorem find_cons (key : String) (c : Option (String × Value β)) (f : String × Value β)
    (d : Doc β) :
    find key ⟨c, f :: d⟩ = if f.1 = key then ⟨some f, d⟩ else find key ⟨c, d⟩ := rfl

end Iter

end Bson
