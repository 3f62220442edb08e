import MongoSgx.Store.Group

/-! # What the group signature binds

The signature covers the plain concatenation of the fields, with no lengths and
no separators. It binds exactly that byte string: bytes can move between fields
and between entries, and only documents whose parts have the same lengths are
told apart.
-/

namespace MongoSgx

open Bson

variable {β : Type}

/-- The fields that the signature covers. -/
def isSignedField (f : String × Value β) : Bool := f.1 ∈ ["name", "encname", "users"]

/-- The document has one field each of `name`, `encname` and `users`, in this order, with the
given bytes; other fields may stand anywhere. -/
def HasFields (d : Doc β) (name encname : List β) (es : List (List β × List β)) : Prop :=
  d.filter isSignedField = signedFields name encname es

variable {d d' : Doc β} {name encname name' encname' : List β} {es es' : List (List β × List β)}

theorem feedField_unsigned {f : String × Value β} (hf : isSignedField f = false)
    (dropped : List β → Bool) (iters : WalkIters β) :
    feedField dropped iters f = some (iters, []) := by
  simp only [isSignedField, List.mem_cons, List.not_mem_nil, or_false, decide_eq_false_iff_not,
    not_or] at hf
  obtain ⟨hname, hencname, husers⟩ := hf
  simp [feedField, hname, hencname, husers]

theorem feedDocument_filter (dropped : List β → Bool) (d : Doc β) :
    feedDocument dropped (d.filter isSignedField) = feedDocument dropped d := by
  rw [feedDocument, feedDocument, Rounds.run_filter]
  intro f hf iters
  exact feedField_unsigned hf dropped iters

variable [DecidableEq β] {P : Primitives β}

theorem HasFields.groupSignature (h : HasFields d name encname es) :
    groupSignature P d = some (P.hmac (name ++ encname ++ Bytes.concat es)) := by
  rw [← groupSignature_signedFields, ← h, MongoSgx.groupSignature, MongoSgx.groupSignature,
    computeGroupSignature, computeGroupSignature, feedDocument_filter]

theorem HasFields.signature_eq_iff (hP : P.Ideal) (h : HasFields d name encname es)
    (h' : HasFields d' name' encname' es') :
    MongoSgx.groupSignature P d = MongoSgx.groupSignature P d' ↔
      name ++ encname ++ Bytes.concat es = name' ++ encname' ++ Bytes.concat es' := by
  rw [h.groupSignature, h'.groupSignature, Option.some.injEq, hP.hmac_inj]

/-- A document that carries the signature of another one passes the check exactly when it has
the same bytes in the same order. -/
theorem HasFields.validate_iff (hP : P.Ideal) (h : HasFields d name encname es)
    (h' : HasFields d' name' encname' es') (hsig : (Iter.initFind d' "signature").binary =
      (MongoSgx.groupSignature P d).map List.Vector.toList) :
    validateGroupSignature P d' = some true ↔
      name ++ encname ++ Bytes.concat es = name' ++ encname' ++ Bytes.concat es' := by
  rw [h.groupSignature, Option.map_some] at hsig
  simp only [validateGroupSignature, hsig, h'.groupSignature, Option.bind_eq_bind,
    Option.bind_some, Option.pure_def, Option.some.injEq, beq_iff_eq, hP.hmac_toList_inj]
  exact eq_comm

/-- Same signature, same concatenation; and same fields, when the names and the encrypted names
have the same lengths and the entries are aligned. -/
theorem groupSignature_binds_concat (hP : P.Ideal) (h : HasFields d name encname es)
    (h' : HasFields d' name' encname' es') :
    (groupSignature P d = groupSignature P d' ↔
      name ++ encname ++ Bytes.concat es = name' ++ encname' ++ Bytes.concat es') ∧
    (name.length = name'.length → encname.length = encname'.length → Bytes.Aligned es es' →
      groupSignature P d = groupSignature P d' → name = name' ∧ encname = encname' ∧ es = es') ∧
    ((Iter.initFind d' "signature").binary = (groupSignature P d).map List.Vector.toList →
      (validateGroupSignature P d' = some true ↔
        name ++ encname ++ Bytes.concat es = name' ++ encname' ++ Bytes.concat es')) := by
  have hiff := h.signature_eq_iff hP h'
  refine ⟨hiff, fun hn he ha hs => ?_, h.validate_iff hP h'⟩
  have hcat := hiff.mp hs
  rw [List.append_assoc, List.append_assoc] at hcat
  obtain ⟨hname, hcat⟩ := List.append_inj hcat hn
  obtain ⟨henc, hcat⟩ := List.append_inj hcat he
  exact ⟨hname, henc, Bytes.concat_inj_of_aligned ha hcat⟩

/-- Two signed documents of one shape with different members. -/
theorem groupSignature_binds_concat_sample :
    groupSignature Primitives.nat (signedFields [1] [2] [([3], [4]), ([5], [6])]) ≠
      groupSignature Primitives.nat (signedFields [1] [2] [([3], [4]), ([5], [7])]) := by
  intro hs
  have h : HasFields (β := ℕ) (signedFields [1] [2] [([3], [4]), ([5], [6])]) [1] [2]
      [([3], [4]), ([5], [6])] := rfl
  have h' : HasFields (β := ℕ) (signedFields [1] [2] [([3], [4]), ([5], [7])]) [1] [2]
      [([3], [4]), ([5], [7])] := rfl
  obtain ⟨-, hfields, -⟩ := groupSignature_binds_concat Primitives.nat_ideal h h'
  obtain ⟨-, -, he⟩ := hfields rfl rfl (by simp [Bytes.Aligned]) hs
  simp at he

/-- The first member can be folded into the name of the second: the document keeps its signature
and passes the check. -/
theorem folded_member_passes : Primitives.nat.Ideal ∧ ∃ d d' : Doc ℕ,
    [([3], [4]), ([5], [6])] ≠ [([3, 4, 5], [6])] ∧
    HasFields d [1] [2] [([3], [4]), ([5], [6])] ∧ HasFields d' [1] [2] [([3, 4, 5], [6])] ∧
    groupSignature Primitives.nat d = groupSignature Primitives.nat d' ∧
    (Iter.initFind d' "signature").binary =
      (groupSignature Primitives.nat d).map List.Vector.toList ∧
    validateGroupSignature Primitives.nat d' = some true := by
  have h : HasFields (β := ℕ) (signedFields [1] [2] [([3], [4]), ([5], [6])]) [1] [2]
      [([3], [4]), ([5], [6])] := rfl
  have h' : HasFields (signedFields [1] [2] [([3, 4, 5], [6])] ++
      [("signature", .binary (Primitives.nat.hmac [1, 2, 3, 4, 5, 6]).toList)]) [1] [2]
      [([3, 4, 5], [6])] := rfl
  have hsig : (Iter.initFind (signedFields [1] [2] [([3, 4, 5], [6])] ++
      [("signature", .binary (Primitives.nat.hmac [1, 2, 3, 4, 5, 6]).toList)])
      "signature").binary = (groupSignature Primitives.nat
        (signedFields [1] [2] [([3], [4]), ([5], [6])])).map List.Vector.toList := by
    rw [h.groupSignature]
    rfl
  refine ⟨Primitives.nat_ideal, _, _, by decide, h, h', ?_, hsig, ?_⟩
  · exact (h.signature_eq_iff Primitives.nat_ideal h').mpr rfl
  · exact (h.validate_iff Primitives.nat_ideal h' hsig).mpr rfl

end MongoSgx
