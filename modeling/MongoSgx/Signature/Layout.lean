import MongoSgx.Signature.Binding

/-! # Predictions come true

The enclave signs the document that the server is about to produce. On documents
in the layout of `create_group`, with any other fields around the signed ones,
the signature predicted before an update is the one that the walk computes after
it, and the field that holds the signature does not take part.
-/

namespace MongoSgx

open Bson

variable {β : Type} {d : Doc β} {name encname : List β} {es : List (List β × List β)}

section Edits

theorem HasFields.push (h : HasFields d name encname es) (e : List β × List β) :
    ∃ d', Doc.push "users" (entryValue e) d = some d' ∧ HasFields d' name encname (es ++ [e]) := by
  have hpush : (Doc.push "users" (entryValue e) d).map (List.filter isSignedField) =
      Doc.push "users" (entryValue e) (d.filter isSignedField) :=
    Doc.filter_push (p := fun key => key ∈ ["name", "encname", "users"]) rfl
  rw [h] at hpush
  obtain ⟨d', hd', hfilter⟩ := Option.map_eq_some_iff.mp hpush
  refine ⟨d', hd', hfilter.trans ?_⟩
  simp [signedFields]

variable [DecidableEq β]

theorem matchesElem_entryValue (p : List β) (e : List β × List β) :
    Selector.matchesElem [(["name"], .eq (.binary p))] (entryValue e) = decide (e.1 = p) := by
  simp [Selector.matchesElem, entryValue, Value.resolve, Value.field, Doc.get?, Value.leaves,
    eq_comm (a := p)]

theorem HasFields.pull (h : HasFields d name encname es) (p : List β) :
    ∃ d', Doc.pull "users" [(["name"], .eq (.binary p))] d = some d' ∧
      HasFields d' name encname (es.filter fun e => e.1 ≠ p) := by
  have hpull : (Doc.pull "users" [(["name"], .eq (.binary p))] d).map (List.filter isSignedField) =
      Doc.pull "users" [(["name"], .eq (.binary p))] (d.filter isSignedField) :=
    Doc.filter_pull (p := fun key => key ∈ ["name", "encname", "users"]) rfl
  rw [h] at hpull
  obtain ⟨d', hd', hfilter⟩ := Option.map_eq_some_iff.mp hpull
  refine ⟨d', hd', hfilter.trans ?_⟩
  have hentries : (es.map entryValue).filter (fun v => !Selector.matchesElem
      [(["name"], .eq (.binary p))] v) = (es.filter fun e => e.1 ≠ p).map entryValue := by
    rw [List.filter_map]
    congr 1
    apply List.filter_congr
    intro e _
    simp [matchesElem_entryValue]
  simp only [signedFields, ← hentries]

omit [DecidableEq β] in
theorem feedDocument_set_signature (dropped : List β → Bool) (d : Doc β) (v : Value β) :
    feedDocument dropped (Doc.set "signature" v d) = feedDocument dropped d := by
  have hset : (Doc.set "signature" v d).filter isSignedField = d.filter isSignedField :=
    Doc.filter_set (p := fun key => key ∈ ["name", "encname", "users"]) rfl
  rw [← feedDocument_filter, hset, feedDocument_filter]

end Edits

section Predictions

variable [DecidableEq β] {P : Primitives β}

theorem HasFields.computeGroupSignature_add (h : HasFields d name encname es) (p : Hashed β)
    (k : List β) : computeGroupSignature P d (some p) (some k) true =
      some (P.hmac (name ++ encname ++ Bytes.concat (es ++ [(p.toList, k)]))) := by
  have hfilter : (es.filter fun e => !isDropped (some p) true e.1) = es := by
    simp [isDropped]
  have hstream : ∀ fs : List (Feed β),
      stream (fs ++ feedAdditional (some p) (some k) true) = stream fs ++ (p.toList ++ k) := by
    simp [stream, feedAdditional]
  rw [computeGroupSignature, ← feedDocument_filter, h, feedDocument_signedFields, hfilter]
  simp only [Option.bind_eq_bind, Option.bind_some, Option.pure_def, hstream, stream_entryFeeds]
  simp

theorem HasFields.computeGroupSignature_remove (h : HasFields d name encname es) (p : Hashed β) :
    computeGroupSignature P d (some p) none false =
      some (P.hmac (name ++ encname ++ Bytes.concat (es.filter fun e => e.1 ≠ p.toList))) := by
  have hfilter : (es.filter fun e => !isDropped (some p) false e.1) =
      es.filter fun e => e.1 ≠ p.toList := by
    apply List.filter_congr
    intro e _
    rw [Bool.eq_iff_iff]
    simp [isDropped, eq_comm (a := p.toList)]
  rw [computeGroupSignature, ← feedDocument_filter, h, feedDocument_signedFields, hfilter]
  simp [feedAdditional, stream_entryFeeds]

theorem filter_snoc_of_notMem {p k : List β} (hp : p ∉ es.map Prod.fst) :
    ((es ++ [(p, k)]).filter fun e => e.1 ≠ p) = es := by
  have hes : (es.filter fun e => e.1 ≠ p) = es := by
    rw [List.filter_eq_self]
    intro e he
    have hne : e.1 ≠ p := fun hep => hp (hep ▸ List.mem_map_of_mem he)
    simpa using hne
  rw [List.filter_append, hes]
  simp

/-- The predicted signature is the recomputed one. For a document in the layout of
`create_group`, the signature predicted for a new member is that of the document after the
`$push`, and the one predicted for a removal is that of the document after the `$pull`. A
removal predicted after an addition gives back the signature of the document, unless it had the
pseudonym before. The `$set` of the signature that follows changes no result of the walk. -/
theorem predicted_eq_recomputed (h : HasFields d name encname es) (p : Hashed β) (k : List β) :
    (∃ d', Doc.push "users" (entryValue (p.toList, k)) d = some d' ∧
      (groupSignature P d').isSome ∧
      computeGroupSignature P d (some p) (some k) true = groupSignature P d' ∧
      (p.toList ∉ es.map Prod.fst →
        computeGroupSignature P d' (some p) none false = groupSignature P d) ∧
      ∀ s : Hashed β, (pushUpdate p k s).apply d =
        some (Doc.set "signature" (.binary s.toList) d')) ∧
    (∃ d', Doc.pull "users" [(["name"], .eq (.binary p.toList))] d = some d' ∧
      (groupSignature P d').isSome ∧
      computeGroupSignature P d (some p) none false = groupSignature P d' ∧
      ∀ s : Hashed β, (pullUpdate p s).apply d =
        some (Doc.set "signature" (.binary s.toList) d')) ∧
    ∀ (d₀ : Doc β) (v : Value β) (additionalUserName : Option (Hashed β))
      (additionalUserKey : Option (List β)) (additionalIsAdd : Bool),
      computeGroupSignature P (Doc.set "signature" v d₀) additionalUserName additionalUserKey
        additionalIsAdd =
      computeGroupSignature P d₀ additionalUserName additionalUserKey additionalIsAdd := by
  refine ⟨?_, ?_, ?_⟩
  · obtain ⟨d', hd', h'⟩ := h.push (p.toList, k)
    refine ⟨d', hd', ?_, ?_, fun hp => ?_, fun s => ?_⟩
    · rw [h'.groupSignature, Option.isSome_some]
    · rw [h.computeGroupSignature_add, h'.groupSignature]
    · rw [h'.computeGroupSignature_remove, h.groupSignature, filter_snoc_of_notMem hp]
    · have hpush : Doc.push "users" (.document [("name", .binary p.toList), ("key", .binary k)]) d =
          some d' := hd'
      simp [Update.apply, pushUpdate, UpdateOp.apply, hpush]
  · obtain ⟨d', hd', h'⟩ := h.pull p.toList
    refine ⟨d', hd', ?_, ?_, fun s => ?_⟩
    · rw [h'.groupSignature, Option.isSome_some]
    · rw [h.computeGroupSignature_remove, h'.groupSignature]
    · simp [Update.apply, pullUpdate, UpdateOp.apply, hd']
  · intro d₀ v additionalUserName additionalUserKey additionalIsAdd
    rw [computeGroupSignature, computeGroupSignature, feedDocument_set_signature]

/-- A document with foreign fields and an entry that is there twice, edited for a pseudonym that
the longer name of another entry begins with. -/
theorem predicted_eq_recomputed_sample : ∃ d' : Doc ℕ,
    Doc.push "users" (entryValue (List.replicate 32 7, [9]))
      [("_id", .scalar (.oid 3)), ("name", .binary [1]), ("note", .scalar .null),
        ("encname", .binary []), ("users", .array [entryValue (List.replicate 33 7, [5]),
          entryValue ([4], [6]), entryValue ([4], [6])]), ("signature", .binary [8])] = some d' ∧
    computeGroupSignature Primitives.nat d' (some ⟨.replicate 32 7, rfl⟩) none false =
      groupSignature Primitives.nat
        [("_id", .scalar (.oid 3)), ("name", .binary [1]), ("note", .scalar .null),
          ("encname", .binary []), ("users", .array [entryValue (List.replicate 33 7, [5]),
            entryValue ([4], [6]), entryValue ([4], [6])]), ("signature", .binary [8])] := by
  have h : HasFields (β := ℕ) [("_id", .scalar (.oid 3)), ("name", .binary [1]),
      ("note", .scalar .null), ("encname", .binary []),
      ("users", .array [entryValue (List.replicate 33 7, [5]), entryValue ([4], [6]),
        entryValue ([4], [6])]), ("signature", .binary [8])] [1] []
      [(List.replicate 33 7, [5]), ([4], [6]), ([4], [6])] := rfl
  obtain ⟨⟨d', hd', -, -, hback, -⟩, -, -⟩ :=
    predicted_eq_recomputed (P := Primitives.nat) h ⟨.replicate 32 7, rfl⟩ [9]
  exact ⟨d', hd', hback (by decide)⟩

end Predictions

end MongoSgx
