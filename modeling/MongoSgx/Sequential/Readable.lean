import MongoSgx.Sequential.Keys

/-! # Keys that can be read back

`create_user` stores a key of any length, and only `get_keys_of_group` looks at
the length. A group can be read exactly when each of its members was registered
last with a key of `KEY_SIZE` bytes; one other key makes the call throw for all
of them.
-/

namespace MongoSgx

open Bson Interaction

variable {β : Type} {P : Primitives β}

theorem readKeys_of_wrong_size (hP : P.Ideal) {g : List β} :
    ∀ {array : Doc β} {ms : List (Member β)},
      array.map Prod.snd = ms.map (fun m => entryValue (m.entry P g)) →
      (∃ m ∈ ms, m.key.length ≠ keySize) →
      ∀ it, readKeys P it array = throw (bsonError "Key size is wrong" 513)
  | _, [], _, ⟨_, hm, _⟩, _ => nomatch hm
  | (_, _) :: array, m :: ms, h, hbad, it => by
      obtain ⟨rfl, htail⟩ := List.cons.inj h
      by_cases hm : m.key.length = keySize
      · have htail_bad : ∃ n ∈ ms, n.key.length ≠ keySize := by
          obtain ⟨n, hn, hsize⟩ := hbad
          rcases List.mem_cons.mp hn with rfl | hn
          · exact absurd hm hsize
          · exact ⟨n, hn, hsize⟩
        have ih := readKeys_of_wrong_size hP htail htail_bad
        simp [readKeys, Iter.recurse, entryValue, Iter.init, Iter.binary, Member.entry,
          decryptData_encrypt hP, ih, throw]
      · simp [readKeys, Iter.recurse, entryValue, Iter.init, Iter.binary, Member.entry,
          decryptData_encrypt hP, hm]

variable [DecidableEq β] {count : ℤ → Scalar} {V : Vault β}

theorem wp_getKeysOfGroup_of_wrong_size (hP : P.Ideal) {G : Group β} (hG : G ∈ V.groups)
    (hS : G.Signed P) (hK : ¬ G.KeySized) :
    Wp (Honest count) (fun r w => w = V.toWorld P ∧
      r = .error (.thrown (bsonError "Key size is wrong" 513)))
      (getKeysOfGroup P G.name) (V.toWorld P) := by
  have hbad : ∃ m ∈ G.members, m.key.length ≠ keySize := by simpa [Group.KeySized] using hK
  have hvalid : validateGroupSignature P (G.toDoc P) = some true := by
    rw [validateGroupSignature_toDoc, decide_eq_true hS]
  obtain ⟨arrayIter, harray, hsnd⟩ := read_group_users (P := P) (G := G)
  have hread := readKeys_of_wrong_size hP hsnd hbad none
  apply ((keysSteps_alone hP).ends rfl).wp.mono
  rintro r w ⟨rfl, ⟨H, hH, hn, hr⟩ | ⟨hg, -⟩⟩
  · obtain rfl := Keyed.eq_of_key_eq hH hG hn
    refine ⟨rfl, ?_⟩
    cases r with
    | ok ks => exact absurd hr ((KeysStop.entries harray hread).not_keysOf ks)
    | error e =>
      cases hr with
      | malformed h => cases hvalid.symm.trans h
      | invalid h => cases hvalid.symm.trans h
      | noArray h => cases harray.symm.trans h
      | entries h hread' =>
        obtain rfl := Option.some.inj (harray.symm.trans h)
        cases hread.symm.trans hread'
        rfl
  · exact absurd (Keyed.mem_keys.mpr ⟨G, hG, rfl⟩) hg

/-- Every member of the group was registered last with a key of `KEY_SIZE` bytes. -/
def Directory.GroupKeySized (D : Directory β) (g : List β) : Prop :=
  ∀ us, (g, us) ∈ D.groups → ∀ u ∈ us, ∀ key, D.keyOf u = some key → key.length = keySize

theorem groupKeySized_iff {V : Vault β} (hC : V.Coherent) {G : Group β} (hG : G ∈ V.groups) :
    V.directory.GroupKeySized G.name ↔ G.KeySized := by
  have hkeys : (∀ u ∈ G.users, ∀ key, V.directory.keyOf u = some key → key.length = keySize) ↔
      G.KeySized := by
    have hmap : (∀ o ∈ G.users.map V.directory.keyOf, ∀ key, o = some key → key.length = keySize) ↔
        G.KeySized := by
      rw [← keys_eq_keyOf hC hG]
      simp [Group.KeySized]
    rw [← hmap]
    simp
  rw [← hkeys]
  constructor
  · intro h
    exact h G.users (List.mem_map_of_mem (f := Group.listing) hG)
  · intro h us hus
    obtain ⟨H, hH, he⟩ := List.mem_map.mp hus
    obtain ⟨hname, rfl⟩ := Prod.mk.inj he
    obtain rfl := Keyed.eq_of_key_eq hH hG hname
    exact h

/-- After every session of operations, with keys of any length: `get_keys_of_group` returns
normally for a group that exists exactly when each member of the group was registered last with
a key of `KEY_SIZE` bytes. It does so for every group of a session that registers no other
keys. -/
theorem getKeysOfGroup_returns_iff (hP : P.Ideal) (count : ℤ → Scalar)
    (hist : List (Op β × Except Stop Unit)) {w : World β}
    (h : Session (Honest count) (Op.prog P) World.empty hist w) :
    (∀ g, w.HasGroup P g →
      (Wp (Honest count) (fun r _ => ∃ ks, r = .ok ks) (getKeysOfGroup P g) w ↔
        (runMachine Directory.step Directory.empty (hist.map Prod.fst)).2.GroupKeySized g)) ∧
    ((∀ x ∈ hist, x.1.KeySized) → ∀ g, w.HasGroup P g →
      Wp (Honest count) (fun r _ => ∃ ks, r = .ok ks) (getKeysOfGroup P g) w) := by
  obtain ⟨-, V, rfl, hS, hC, hV⟩ := h.simulation (simulates_directory hP count)
    (fun _ _ => trivial) represents_empty
  have hiff : ∀ g, (V.toWorld P).HasGroup P g →
      (Wp (Honest count) (fun r _ => ∃ ks, r = .ok ks) (getKeysOfGroup P g) (V.toWorld P) ↔
        V.directory.GroupKeySized g) := by
    intro g hg
    obtain ⟨G, hG, rfl⟩ := (hasGroup_iff hP).mp hg
    rw [groupKeySized_iff hC hG]
    constructor
    · intro hwp
      by_contra hK
      obtain ⟨r, w', hr, -, rfl⟩ :=
        (wp_getKeysOfGroup_of_wrong_size hP hG (hS G hG) hK).exists_evals (honest_total count)
      obtain ⟨ks, hks⟩ := hwp.of_evals hr
      cases hks
    · intro hK
      apply (wp_getKeysOfGroup hP hG (hS G hG) hK).mono
      rintro r w ⟨-, ks, hks, -⟩
      exact ⟨ks, hks⟩
  rw [← hV]
  refine ⟨hiff, fun hk g hg => (hiff g hg).mpr ?_⟩
  obtain ⟨-, -, hK⟩ := h.simulation (simulates_keySized hP count) hk ⟨represents_empty, by nofun⟩
  rw [hV]
  intro us _ u _ key hkey
  obtain ⟨e, he, rfl⟩ := Option.map_eq_some_iff.mp hkey
  exact hK e (Keyed.find_eq_some_iff.mp he).1

/-- A group whose member has a key of the right size, beside a group whose member has not. -/
theorem getKeysOfGroup_returns_iff_sample : ∃ hist w,
    Session (Honest .int64) (Op.prog Primitives.nat) World.empty hist w ∧
    hist.map Prod.fst = [.createUser [1] (.replicate 32 7), .createUser [2] [8],
      .createGroup [5] [1], .createGroup [6] [2]] ∧
    Wp (Honest .int64) (fun r _ => ∃ ks, r = .ok ks) (getKeysOfGroup Primitives.nat [5]) w ∧
    ¬ Wp (Honest .int64) (fun r _ => ∃ ks, r = .ok ks) (getKeysOfGroup Primitives.nat [6]) w := by
  obtain ⟨hist, w, h, hops, hD⟩ := exists_session (β := ℕ) Primitives.nat_ideal .int64
    [.createUser [1] (.replicate 32 7), .createUser [2] [8], .createGroup [5] [1],
      .createGroup [6] [2]]
  have hgroup : ∀ g : List ℕ, g ∈ [[5], [6]] → w.HasGroup Primitives.nat g := fun g hg =>
    (Represents.mem_groups_iff Primitives.nat_ideal hD).mpr hg
  obtain ⟨hiff, -⟩ := getKeysOfGroup_returns_iff Primitives.nat_ideal .int64 hist h
  rw [hops] at hiff
  refine ⟨hist, w, h, hops, (hiff [5] (hgroup _ (by simp))).mpr ?_, fun hwp => ?_⟩
  · intro us hus u hu key hkey
    have hentry : ([5], us) ∈ [(([5] : List ℕ), [([1] : List ℕ)]), ([6], [[2]])] := hus
    obtain rfl : us = [[1]] := by simpa using hentry
    obtain rfl := List.mem_singleton.mp hu
    obtain rfl := Option.some.inj (show some (List.replicate 32 7) = some key from hkey)
    rfl
  · have hentry : (([6] : List ℕ), [([2] : List ℕ)]) ∈ [([5], [[1]]), ([6], [[2]])] := by decide
    have hsize := (hiff [6] (hgroup _ (by simp))).mp hwp [[2]] hentry [2] (by simp) [8] rfl
    exact absurd hsize (by decide)

/-- A user with a short key joins a group, and the keys of the group cannot be read any more. -/
theorem short_key_blocks_group : ∃ hist w,
    Session (Honest .int64) (Op.prog Primitives.nat) World.empty hist w ∧
    hist.map Prod.fst = [.createUser [1] (.replicate 32 7), .createGroup [5] [1],
      .createUser [2] [8], .addUserToGroup [5] [2]] ∧
    hist.map (fun x => x.2.isOk) = [true, true, true, true] ∧ w.HasGroup Primitives.nat [5] ∧
    Wp (Honest .int64) (fun r w' => w' = w ∧
      r = .error (.thrown (bsonError "Key size is wrong" 513)))
      (getKeysOfGroup Primitives.nat [5]) w := by
  obtain ⟨hist, w, h, hops, hD⟩ := exists_session (β := ℕ) Primitives.nat_ideal .int64
    [.createUser [1] (.replicate 32 7), .createGroup [5] [1], .createUser [2] [8],
      .addUserToGroup [5] [2]]
  have hg : w.HasGroup Primitives.nat [5] :=
    (Represents.mem_groups_iff Primitives.nat_ideal hD).mpr (by decide)
  obtain ⟨hok, -⟩ := h.simulation (simulates_directory Primitives.nat_ideal .int64)
    (fun _ _ => trivial) represents_empty
  rw [hops] at hok
  refine ⟨hist, w, h, hops, hok, hg, ?_⟩
  obtain ⟨V, rfl, hS, hC, hV⟩ := hD
  obtain ⟨G, hG, hname⟩ := (hasGroup_iff Primitives.nat_ideal).mp hg
  have hK : ¬ G.KeySized := by
    rw [← groupKeySized_iff hC hG, hV, hname]
    intro hsized
    have hentry : (([5] : List ℕ), [([1] : List ℕ), [2]]) ∈ [([5], [[1], [2]])] := by decide
    have hsize := hsized [[1], [2]] hentry [2] (by simp) [8] rfl
    exact absurd hsize (by decide)
  rw [← hname]
  exact wp_getKeysOfGroup_of_wrong_size Primitives.nat_ideal hG (hS G hG) hK

end MongoSgx
