import MongoSgx.Signature.Binding

/-! # One key for every tag

Pseudonyms of users, groups and members, signatures of user records and
signatures of group documents come from the HMAC under one key, over plain
concatenations that do not say what they are for. Two tags are equal exactly when
their bytes are: lengths keep the uses apart, and nothing else does.
-/

namespace MongoSgx

open Bson

variable {β : Type}

inductive Use (β : Type) where
  | name (name : List β)
  | member (userName groupName : List β)
  | record (hashedUserName encryptedUserKey : List β)
  | document (groupDocument : Doc β) (additionalUserName : Option (Hashed β))
      (additionalUserKey : Option (List β)) (additionalIsAdd : Bool)

namespace Use

variable [DecidableEq β] (P : Primitives β)

/-- The tag that the code computes; none where the walk over a document is undefined. -/
def tag : Use β → Option (Hashed β)
  | .name n => some (hashName P n none)
  | .member u g => some (hashName P u (some g))
  | .record n c => some (computeUserSignature P n c)
  | .document d user key isAdd => computeGroupSignature P d user key isAdd

def bytes : Use β → Option (List β)
  | .name n => some n
  | .member u g => some (u ++ g)
  | .record n c => some (n ++ c)
  | .document d user key isAdd => (feedDocument (isDropped user isAdd) d).map fun feeds =>
      stream (feeds ++ feedAdditional user key isAdd)

theorem tag_eq_map (U : Use β) : U.tag P = U.bytes.map P.hmac := by
  cases U with
  | name n => simp [tag, bytes, hashName]
  | member u g => simp [tag, bytes, hashName]
  | record n c => rfl
  | document d user key isAdd =>
    simp only [tag, bytes, computeGroupSignature, Option.map_map, Option.bind_eq_bind,
      Option.pure_def]
    cases feedDocument (isDropped user isAdd) d <;> rfl

variable {P}

theorem tag_eq_iff (hP : P.Ideal) {U U' : Use β} : U.tag P = U'.tag P ↔ U.bytes = U'.bytes := by
  rw [tag_eq_map, tag_eq_map]
  exact (Option.map_injective hP.hmac_injective).eq_iff

end Use

variable {P : Primitives β} {n u v g h a b c e : List β} {salt : Option (List β)} {d : Doc β}
  {es : List (List β × List β)}

theorem hashName_eq_iff (hP : P.Ideal) {m : List β} {salt' : Option (List β)} :
    hashName P n salt = hashName P m salt' ↔ n ++ salt.getD [] = m ++ salt'.getD [] := hP.hmac_inj

theorem member_eq_of_lengths (hP : P.Ideal) (hl : u.length = v.length ∨ g.length = h.length)
    (he : hashName P u (some g) = hashName P v (some h)) : u = v ∧ g = h := by
  have hcat : u ++ g = v ++ h := (hashName_eq_iff hP).mp he
  rcases hl with hl | hl
  · exact List.append_inj hcat hl
  · exact List.append_inj' hcat hl

theorem ne_append_of_length_lt {x : List β} (ha : a.length = hmacResultLength)
    (hx : x.length < hmacResultLength) : x ≠ a ++ b := by
  rintro rfl
  rw [List.length_append] at hx
  omega

theorem hashName_ne_record (hP : P.Ideal) (ha : a.length = hmacResultLength)
    (hn : (n ++ salt.getD []).length < hmacResultLength) :
    hashName P n salt ≠ computeUserSignature P a c :=
  fun he => ne_append_of_length_lt ha hn (hP.hmac_inj.mp he)

variable [DecidableEq β]

theorem hashName_ne_document (hP : P.Ideal) (hd : HasFields d a e es)
    (ha : a.length = hmacResultLength) (hn : (n ++ salt.getD []).length < hmacResultLength) :
    groupSignature P d ≠ some (hashName P n salt) := by
  rw [hd.groupSignature, List.append_assoc]
  intro he
  exact ne_append_of_length_lt ha hn (hP.hmac_inj.mp (Option.some.inj he)).symm

theorem document_eq_record_iff (hP : P.Ideal) (hd : HasFields d b e es)
    (hab : a.length = b.length) : groupSignature P d = some (computeUserSignature P a c) ↔
      a = b ∧ c = e ++ Bytes.concat es := by
  rw [hd.groupSignature, Option.some.injEq, computeUserSignature, computeHmac2, hP.hmac_inj,
    List.append_assoc]
  constructor
  · intro he
    obtain ⟨hb, hc⟩ := List.append_inj he hab.symm
    exact ⟨hb.symm, hc.symm⟩
  · rintro ⟨rfl, rfl⟩
    rfl

theorem name_eq_of_document_eq_record (hP : P.Ideal)
    (hd : HasFields d (hashName P g none).toList e es)
    (he : groupSignature P d = some (computeUserSignature P (hashName P u none).toList c)) :
    u = g := by
  have hlen : (hashName P u none).toList.length = (hashName P g none).toList.length :=
    (List.Vector.toList_length _).trans (List.Vector.toList_length _).symm
  obtain ⟨hname, -⟩ := (document_eq_record_iff hP hd hlen).mp he
  exact (hashName_none_inj hP).mp (List.Vector.toList_injective hname)

/-- Every two uses of the HMAC have the same tag exactly when their bytes are the same. Members of
groups are told apart when their names, or those of their groups, have one length; names of fewer
bytes than a pseudonym give no signature; and a user record and a group document have the same
signature only if they have one name and the encrypted key is made of the rest of the group. -/
theorem tags_separated (hP : P.Ideal) :
    (∀ U U' : Use β, U.tag P = U'.tag P ↔ U.bytes = U'.bytes) ∧
    (∀ u g v h : List β, u.length = v.length ∨ g.length = h.length →
      hashName P u (some g) = hashName P v (some h) → u = v ∧ g = h) ∧
    (∀ n salt a c, a.length = hmacResultLength → (n ++ salt.getD []).length < hmacResultLength →
      hashName P n salt ≠ computeUserSignature P a c) ∧
    (∀ d n salt a e es, HasFields d a e es → a.length = hmacResultLength →
      (n ++ salt.getD []).length < hmacResultLength →
      groupSignature P d ≠ some (hashName P n salt)) ∧
    (∀ d a b c e es, HasFields d b e es → a.length = b.length →
      (groupSignature P d = some (computeUserSignature P a c) ↔
        a = b ∧ c = e ++ Bytes.concat es)) ∧
    ∀ d u g c e es, HasFields d (hashName P g none).toList e es →
      groupSignature P d = some (computeUserSignature P (hashName P u none).toList c) → u = g :=
  ⟨fun _ _ => Use.tag_eq_iff hP, fun _ _ _ _ => member_eq_of_lengths hP,
    fun _ _ _ _ ha hn => hashName_ne_record hP ha hn,
    fun _ _ _ _ _ _ hd ha hn => hashName_ne_document hP hd ha hn,
    fun _ _ _ _ _ _ hd hab => document_eq_record_iff hP hd hab,
    fun _ _ _ _ _ _ hd he => name_eq_of_document_eq_record hP hd he⟩

/-- Two members of groups whose names have one length. -/
theorem tags_separated_sample :
    hashName Primitives.nat [1] (some [5]) ≠ hashName Primitives.nat [2] (some [5]) := by
  intro he
  obtain ⟨-, hmember, -⟩ := tags_separated Primitives.nat_ideal
  obtain ⟨hu, -⟩ := hmember [1] [5] [2] [5] (.inl rfl) he
  cases hu

/-- The member `[1]` of the group `[2, 3]` has the pseudonym of the member `[1, 2]` of the group
`[3]` and of the user `[1, 2, 3]`, a user named like a record has a pseudonym that signs it, and the
signature of the record of the user `[5]` passes on a group `[5]` without members. -/
theorem tags_collide : Primitives.nat.Ideal ∧
    hashName Primitives.nat [1] (some [2, 3]) = hashName Primitives.nat [1, 2] (some [3]) ∧
    hashName Primitives.nat [1, 2, 3] none = hashName Primitives.nat [1] (some [2, 3]) ∧
    (∀ c, hashName Primitives.nat ((hashName Primitives.nat [5] none).toList ++ c) none =
      computeUserSignature Primitives.nat (hashName Primitives.nat [5] none).toList c) ∧
    ∀ c, validateGroupSignature Primitives.nat
      (signedFields (hashName Primitives.nat [5] none).toList c [] ++ [("signature",
        .binary (computeUserSignature Primitives.nat (hashName Primitives.nat [5] none).toList
          c).toList)]) = some true := by
  have hP := Primitives.nat_ideal
  refine ⟨hP, rfl, rfl, fun c => ?_, fun c => ?_⟩
  · unfold hashName computeUserSignature computeHmac2
    rw [Option.getD_none, List.append_nil]
  · have hd : HasFields (signedFields (hashName Primitives.nat [5] none).toList c [])
        (hashName Primitives.nat [5] none).toList c [] := rfl
    have hd' : HasFields (signedFields (hashName Primitives.nat [5] none).toList c [] ++
        [("signature", .binary (computeUserSignature Primitives.nat
          (hashName Primitives.nat [5] none).toList c).toList)])
        (hashName Primitives.nat [5] none).toList c [] := rfl
    have hsign : groupSignature Primitives.nat
        (signedFields (hashName Primitives.nat [5] none).toList c []) =
        some (computeUserSignature Primitives.nat (hashName Primitives.nat [5] none).toList c) :=
      (document_eq_record_iff hP hd rfl).mpr ⟨rfl, (List.append_nil c).symm⟩
    apply (hd.validate_iff hP hd' _).mpr rfl
    rw [hsign]
    rfl

end MongoSgx
