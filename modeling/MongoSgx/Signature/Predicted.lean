import MongoSgx.Signature.Agreement

/-! # Predicted signatures

The enclave signs a group as it will be after an update that it has not sent yet.
Whatever the document, the signature predicted for a new member covers the signed
bytes of the document with those of the member after them, and the one predicted
for a member to be dropped covers the document without the entries that bear its
pseudonym.
-/

namespace MongoSgx

open Bson

variable {β : Type}

def signedStream (d : Doc β) : Option (List β) := (feeds d).map stream

variable [DecidableEq β] {P : Primitives β}

def bears (pseudonym : List β) (v : Value β) : Bool :=
  ((recurseValue v).bind fun user => ((Iter.init user).find "name").binary) == some pseudonym

def dropBearers (pseudonym : List β) : Value β → Value β
  | .array vs => .array (vs.filter fun v => !bears pseudonym v)
  | .document fs => .document (fs.filter fun f => !bears pseudonym f.2)
  | v => v

def dropEntries (pseudonym : List β) (d : Doc β) : Doc β :=
  d.map fun f => if f.1 = "users" then (f.1, dropBearers pseudonym f.2) else f

/-- Every element of every `users` field is a document or an array. -/
def Nested (d : Doc β) : Prop :=
  ∀ f ∈ d, f.1 = "users" → ∀ e ∈ contentsOf f.2, (recurseValue e.2).isSome

section Users

variable {pseudonym : List β}

/-- What is fed for an element of a `users` array that can be entered. -/
def feedOf (dropped : List β → Bool) (v : Value β) : Option (List (Feed β)) :=
  (feedUser dropped none ("", v)).map Prod.snd

omit [DecidableEq β] in
theorem feedUser_container (dropped : List β → Bool) {entry : String × Value β}
    (h : (recurseValue entry.2).isSome) (it : Option (Iter β)) :
    (feedUser dropped it entry).map Prod.snd = feedOf dropped entry.2 := by
  obtain ⟨user, huser⟩ := Option.isSome_iff_exists.mp h
  simp only [feedOf, feedUser, recurse_some, huser, Option.map_some, Option.some_or]

omit [DecidableEq β] in
theorem run_feedUser_containers (dropped : List β → Bool) {array : Doc β}
    (h : ∀ e ∈ array, (recurseValue e.2).isSome) (it : Option (Iter β)) :
    (Rounds.run (feedUser dropped) it array).map Prod.snd =
      ((array.map Prod.snd).mapM (feedOf dropped)).map List.flatten := by
  rw [Rounds.outputs_eq_mapM fun e he it => feedUser_container dropped (h e he) it, List.mapM_map]
  rfl

theorem feedOf_of_bears {v : Value β} (h : bears pseudonym v = true) :
    feedOf (fun content => pseudonym == content) v = some [] := by
  rw [bears, beq_iff_eq, Option.bind_eq_some_iff] at h
  obtain ⟨user, huser, hname⟩ := h
  simp [feedOf, feedUser, huser, hname]

theorem feedOf_of_not_bears {v : Value β} (h : bears pseudonym v = false) :
    feedOf (fun content => pseudonym == content) v = feedOf (fun _ => false) v := by
  simp only [feedOf, feedUser, recurse_some]
  cases huser : recurseValue v with
  | none => rfl
  | some user =>
    cases hname : ((Iter.init user).find "name").binary with
    | none => simp [hname]
    | some name =>
      have hne : pseudonym ≠ name := by
        simp only [bears, huser, Option.bind_some, hname, beq_eq_false_iff_ne, ne_eq,
          Option.some.injEq] at h
        exact Ne.symm h
      simp [hname, hne]

theorem feedUsers_drop (vs : List (Value β)) :
    (vs.mapM (feedOf fun content => pseudonym == content)).map List.flatten =
      ((vs.filter fun v => !bears pseudonym v).mapM (feedOf fun _ => false)).map
        List.flatten := by
  induction vs with
  | nil => rfl
  | cons v vs ih =>
    rw [List.mapM_cons, List.filter_cons]
    cases h : bears pseudonym v with
    | true =>
      rw [feedOf_of_bears h]
      simp only [Bool.not_true, Bool.false_eq_true, ↓reduceIte]
      rw [← ih]
      cases vs.mapM (feedOf fun content => pseudonym == content) <;> rfl
    | false =>
      rw [feedOf_of_not_bears h]
      simp only [Bool.not_false, ↓reduceIte, List.mapM_cons]
      cases feedOf (fun _ => false) v with
      | none => rfl
      | some fs =>
        revert ih
        cases vs.mapM (feedOf fun content => pseudonym == content) <;>
          cases (vs.filter fun v => !bears pseudonym v).mapM (feedOf fun _ => false) <;> simp

end Users

section Walk

variable {pseudonym : List β}

theorem recurseValue_dropBearers (pseudonym : List β) {v : Value β} {c : Doc β}
    (h : recurseValue v = some c) :
    ∃ c', recurseValue (dropBearers pseudonym v) = some c' ∧
      c'.map Prod.snd = (c.map Prod.snd).filter fun v => !bears pseudonym v := by
  cases v with
  | binary b => cases h
  | scalar s => cases h
  | document fs =>
    obtain rfl := Option.some.inj h
    exact ⟨_, rfl, by rw [Iter.init, List.filter_map]; rfl⟩
  | array vs =>
    obtain rfl := Option.some.inj h
    refine ⟨_, rfl, ?_⟩
    simp only [Iter.init, List.map_map, Function.comp_def, List.zipIdx_map_fst]

theorem recurseValue_dropBearers_none {v : Value β} (h : recurseValue v = none) :
    dropBearers pseudonym v = v := by
  cases v with
  | binary b => rfl
  | scalar s => rfl
  | document fs => cases h
  | array vs => cases h

theorem run_feedUser_drop {c c' : Doc β} (hc : ∀ e ∈ c, (recurseValue e.2).isSome)
    (hsnd : c'.map Prod.snd = (c.map Prod.snd).filter fun v => !bears pseudonym v)
    (it it' : Option (Iter β)) :
    (Rounds.run (feedUser fun content => pseudonym == content) it c).map Prod.snd =
      (Rounds.run (feedUser fun _ => false) it' c').map Prod.snd := by
  have hc' : ∀ e ∈ c', (recurseValue e.2).isSome := by
    intro e he
    have hmem := List.mem_map_of_mem (f := Prod.snd) he
    rw [hsnd] at hmem
    obtain ⟨e₀, he₀, heq⟩ := List.mem_map.mp (List.mem_filter.mp hmem).1
    rw [← heq]
    exact hc e₀ he₀
  rw [run_feedUser_containers _ hc, run_feedUser_containers _ hc', hsnd, feedUsers_drop]

omit [DecidableEq β] in
theorem feedField_of_users (dropped : List β → Bool) (iters : WalkIters β) {f : String × Value β}
    (h : f.1 = "users") : feedField dropped iters f =
      ((Iter.mk (some f) []).recurse iters.array).bind fun arrayIter =>
        (Rounds.run (feedUser dropped) iters.userDocument arrayIter.rest).map
          fun x => (⟨some ⟨none, []⟩, x.1⟩, x.2) := by
  have hne : ("users" : String) ≠ "name" ∧ ("users" : String) ≠ "encname" := by decide
  simp only [feedField, h, hne.1, hne.2, ↓reduceIte]
  cases (Iter.mk (some f) []).recurse iters.array with
  | none => rfl
  | some arrayIter =>
    cases hrun : Rounds.run (feedUser dropped) iters.userDocument arrayIter.rest <;>
      simp [hrun]

/-- Two walks between fields. A `users` field that is no container goes on in the array of the one
before, at the end of which both stand. -/
def SameArray (iters iters' : WalkIters β) : Prop :=
  iters.array = iters'.array ∧ ahead iters.array = []

theorem feedField_drop {f : String × Value β}
    (hf : f.1 = "users" → ∀ e ∈ contentsOf f.2, (recurseValue e.2).isSome)
    {iters iters' : WalkIters β} (h : SameArray iters iters') :
    Option.Rel (fun x y => SameArray x.1 y.1 ∧ x.2 = y.2)
      (feedField (fun content => pseudonym == content) iters f) (feedField (fun _ => false) iters'
        (if f.1 = "users" then (f.1, dropBearers pseudonym f.2) else f)) := by
  obtain ⟨harray, hend⟩ := h
  by_cases husers : f.1 = "users"
  · rw [if_pos husers, feedField_of_users _ _ husers,
      feedField_of_users _ _ (f := (f.1, dropBearers pseudonym f.2)) husers, recurse_some,
      recurse_some, ← harray]
    cases hv : recurseValue f.2 with
    | none =>
      rw [recurseValue_dropBearers_none hv, hv]
      cases hjt : iters.array with
      | none => exact .none
      | some jt =>
        have hrest : jt.rest = [] := by rwa [hjt] at hend
        simp only [Option.map_none, Option.none_or, Option.bind_some, hrest, Rounds.run_nil,
          Option.map_some]
        exact .some ⟨⟨rfl, rfl⟩, rfl⟩
    | some c =>
      obtain ⟨c', hc', hsnd⟩ := recurseValue_dropBearers pseudonym hv
      have hcontents : contentsOf f.2 = c := by rw [contentsOf, hv]; rfl
      have hrun := run_feedUser_drop (hcontents ▸ hf husers) hsnd iters.userDocument
        iters'.userDocument
      simp only [hc', Option.map_some, Option.some_or, Option.bind_some, Iter.init]
      generalize Rounds.run (feedUser fun content => pseudonym == content) _ c = x,
        Rounds.run (feedUser fun _ => false) _ c' = y at hrun
      cases x with
      | none =>
        cases y with
        | none => exact .none
        | some y => cases hrun
      | some x =>
        cases y with
        | none => cases hrun
        | some y => exact .some ⟨⟨rfl, rfl⟩, Option.some.inj hrun⟩
  · rw [if_neg husers]
    simp only [feedField, husers, ↓reduceIte, binary_some, Option.bind_eq_bind, Option.bind_some,
      Option.pure_def]
    split
    · exact .some ⟨⟨harray, hend⟩, rfl⟩
    · split
      · exact .some ⟨⟨harray, hend⟩, rfl⟩
      · exact .some ⟨⟨harray, hend⟩, rfl⟩

/-- Where every element can be entered, the walk that passes over a pseudonym is the walk over the
document without the entries that bear it. -/
theorem feedDocument_drop {d : Doc β} (hd : Nested d) :
    feedDocument (fun content => pseudonym == content) d = feeds (dropEntries pseudonym d) := by
  have hrel : Option.Rel (fun x y => SameArray x.1 y.1 ∧ x.2 = y.2)
      (Rounds.run (feedField fun content => pseudonym == content) ⟨none, none⟩ d)
      (Rounds.run (feedField fun _ => false) ⟨none, none⟩ (dropEntries pseudonym d)) :=
    Rounds.run_rel (fun f hf _ _ h => feedField_drop (hd f hf) h) ⟨rfl, rfl⟩
  unfold feeds feedDocument
  generalize Rounds.run _ _ d = x, Rounds.run _ _ (dropEntries pseudonym d) = y at hrel ⊢
  cases hrel with
  | none => rfl
  | some hxy => exact congrArg some hxy.2

end Walk

section Predictions

variable {d : Doc β} {h : Hashed β} {c : List β}

theorem computeGroupSignature_add : computeGroupSignature P d (some h) (some c) true =
    (signedStream d).map fun s => P.hmac (s ++ (h.toList ++ c)) := by
  have hfeeds : feedDocument (isDropped (some h) true) d = feeds d := rfl
  simp only [computeGroupSignature, hfeeds, signedStream]
  cases feeds d <;> simp [feedAdditional, stream]

theorem computeGroupSignature_remove (hd : Nested d) : computeGroupSignature P d (some h) none false =
    (signedStream (dropEntries h.toList d)).map P.hmac := by
  have hfeeds : feedDocument (isDropped (some h) false) d = feeds (dropEntries h.toList d) :=
    feedDocument_drop hd
  simp only [computeGroupSignature, hfeeds, signedStream]
  cases feeds (dropEntries h.toList d) <;> simp [feedAdditional]

omit [DecidableEq β] in
theorem nested_toDoc {G : Group β} : Nested (G.toDoc P) := by
  intro f hf husers e he
  simp only [Group.toDoc, List.mem_cons, List.not_mem_nil, or_false] at hf
  obtain rfl : f = ("users", .array ((G.entries P).map entryValue)) := by
    rcases hf with rfl | rfl | rfl | rfl | rfl <;> first | rfl | simp at husers
  obtain ⟨v, hv, rfl⟩ := List.mem_map.mp he
  obtain ⟨e, -, hev⟩ := List.mem_map.mp (List.fst_mem_of_mem_zipIdx hv)
  rw [← hev]
  rfl

end Predictions

end MongoSgx
