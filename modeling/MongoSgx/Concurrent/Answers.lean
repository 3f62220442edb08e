import Mathlib.Order.CompletePartialOrder
import MongoSgx.Concurrent.Refinement
import MongoSgx.Interaction.Moments

/-! # Answers among deletions

While users are deleted the other calls are no longer linearizable: a member may be
added whose record has just gone. But each answer is still true of the database as
the call found it or left it at one of its own driver calls, and no call fails in any
other way.
-/

namespace MongoSgx

open Bson Interaction

variable {β : Type}

section Definitions

/-- What a call does to a collection, and for a read the servers that may answer. -/
inductive Access where
  | reads (collection : Collection) (readPrefs : Option ReadMode)
  | inserts (collection : Collection)
  | updates (collection : Collection)

def Call.access : Call β → Option Access
  | .cursorNext cursor => some (.reads cursor.collection cursor.readPrefs)
  | .insertOne collection _ => some (.inserts collection)
  | .updateOne collection _ _ => some (.updates collection)
  | _ => none

/-- A call with the database before and after it. -/
abbrev Moment (β : Type) := Call β × World β × World β

variable [DecidableEq β] (P : Primitives β)

/-- At a call of the kind the database went from a sound vault to a sound vault like this. -/
def Witnessed (M : Set (Moment β)) (a : Access) (φ : Vault β → Vault β → Prop) : Prop :=
  ∃ (c : Call β) (V W : Vault β), c.access = some a ∧ V.Sound P ∧ W.Sound P ∧
    (c, V.toWorld P, W.toWorld P) ∈ M ∧ φ V W

/-- The moments at which a call moved warrant its answer. An addition and a removal either write, or
find at their read of the group that there is nothing to do. -/
inductive Request.Warranted : Request β → Except Stop (Answer β) → Set (Moment β) → Prop
  | registered {u key : List β} {M : Set (Moment β)}
      (h : Witnessed P M (.inserts .users) fun V W =>
        u ∉ V.accounts.keys ∧ ∃ iv, W = V.register u key iv) :
      Warranted (.op (.createUser u key)) (.ok .done) M
  | taken {u key : List β} {e : BsonError} {M : Set (Moment β)}
      (h : Witnessed P M (.inserts .users) fun V W => u ∈ V.accounts.keys ∧ W = V)
      (he : e.code = mongocErrorDuplicateKey) :
      Warranted (.op (.createUser u key)) (.error (.thrown e)) M
  | unknown {q : Request β} {g u : List β} {M : Set (Moment β)} (hq : q.Adds g u)
      (h : Witnessed P M (.reads .users (some .primaryPreferred)) fun V W =>
        u ∉ V.accounts.keys ∧ W = V) :
      Warranted q (.error (.thrown (bsonError "User does not exist" 539))) M
  /-- The key is that of the record at one moment, and the user joins with it at another. -/
  | joined {q : Request β} {g u key : List β} {M : Set (Moment β)} (hq : q.Adds g u)
      (hkey : Witnessed P M (.reads .users (some .primaryPreferred)) fun V _ => V.HasAccount u key)
      (h : Witnessed P M (.updates .groups) fun V W =>
        (∃ G ∈ V.groups, G.name = g ∧ u ∉ G.users) ∧
          ∃ iv s, W = V.modify g (.join ⟨u, key, iv⟩) s) :
      Warranted q (.ok .done) M
  | needless {q : Request β} {g u key : List β} {M : Set (Moment β)} (hq : q.Adds g u)
      (hkey : Witnessed P M (.reads .users (some .primaryPreferred)) fun V _ => V.HasAccount u key)
      (h : Witnessed P M (.reads .groups none) fun V W =>
        W = V ∧ ∀ G ∈ V.groups, G.name = g → u ∈ G.users) :
      Warranted q (.ok .done) M
  | founded {g u key : List β} {M : Set (Moment β)}
      (hkey : Witnessed P M (.reads .users (some .primaryPreferred)) fun V _ => V.HasAccount u key)
      (h : Witnessed P M (.inserts .groups) fun V W => g ∉ V.groups.keys ∧
        ∃ iv iv', W = V.establish P g iv' ⟨u, key, iv⟩) :
      Warranted (.op (.createGroup g u)) (.ok .done) M
  | left {g u : List β} {M : Set (Moment β)}
      (h : Witnessed P M (.updates .groups) fun V W =>
        (∃ G ∈ V.groups, G.name = g ∧ u ∈ G.users) ∧ ∃ s, W = V.modify g (.leave u) s) :
      Warranted (.op (.removeUserFromGroup g u)) (.ok .done) M
  | absent {g u : List β} {M : Set (Moment β)}
      (h : Witnessed P M (.reads .groups none) fun V W =>
        W = V ∧ ∀ G ∈ V.groups, G.name = g → u ∉ G.users) :
      Warranted (.op (.removeUserFromGroup g u)) (.ok .done) M
  | gaveUp {o : Op β} {M : Set (Moment β)} (ho : o.Attempted) :
      Warranted (.op o) (.error (.thrown o.gaveUp)) M
  | keys {g : List β} {ks : List (Key β)} {M : Set (Moment β)}
      (h : Witnessed P M (.reads .groups (some .secondaryPreferred)) fun V W =>
        W = V ∧ ∃ G ∈ V.groups, G.name = g ∧
          ks.map List.Vector.toList = G.members.map Member.key) :
      Warranted (.getKeysOfGroup g) (.ok (.keys ks)) M
  | missing {g : List β} {M : Set (Moment β)}
      (h : Witnessed P M (.reads .groups (some .secondaryPreferred)) fun V W =>
        W = V ∧ g ∉ V.groups.keys) :
      Warranted (.getKeysOfGroup g)
        (.error (.thrown (bsonError "No matching group to validate" 487))) M
  | member {g u : List β} {b : Bool} {M : Set (Moment β)}
      (h : Witnessed P M (.reads .groups (some .primaryPreferred)) fun V W =>
        W = V ∧ (b = true ↔ ∃ G ∈ V.groups, G.name = g ∧ u ∈ G.users)) :
      Warranted (.isUserPartOfGroup g u) (.ok (.member b)) M

/-- The program keeps the store sound, and the moments of its calls satisfy the postcondition. -/
abbrev Testifies (count : ℤ → Scalar) {α : Type}
    (Q : Except Stop α → World β → Set (Moment β) → Prop) (p : Enclave β α)
    (V : Vault β) (M : Set (Moment β)) : Prop :=
  Traced (Honest count) (.keeping (SoundStore P)) aroundCall Q p (V.toWorld P) M

end Definitions

variable {P : Primitives β} {V W : Vault β} {count : ℤ → Scalar}
  {M M' : Set (Moment β)} {a : Access} {φ : Vault β → Vault β → Prop} {g u key : List β} {α : Type}
  {Q : Except Stop α → World β → Set (Moment β) → Prop}

section Rules

theorem Witnessed.grow (h : Witnessed P M a φ) (hM : M ⊆ M') : Witnessed P M' a φ := by
  obtain ⟨c, V, W, hc, hV, hW, hmem, hφ⟩ := h
  exact ⟨c, V, W, hc, hV, hW, hM hmem, hφ⟩

theorem Witnessed.mono {ψ : Vault β → Vault β → Prop} (h : Witnessed P M a φ)
    (hφ : ∀ V W, φ V W → ψ V W) : Witnessed P M a ψ := by
  obtain ⟨c, V, W, hc, hV, hW, hmem, h⟩ := h
  exact ⟨c, V, W, hc, hV, hW, hmem, hφ V W h⟩

theorem witnessed_here {c : Call β} (hV : V.Sound P) (hW : W.Sound P) (hc : c.access = some a)
    (hφ : φ V W) : Witnessed P (M ∪ {(c, V.toWorld P, W.toWorld P)}) a φ :=
  ⟨c, V, W, hc, hV, hW, Set.mem_union_right _ rfl, hφ⟩

variable [DecidableEq β]

def momentRule (P : Primitives β) (count : ℤ → Scalar) :
    CallRule (Call β) Reply (World β × Set (Moment β)) :=
  ((Contract.keeping (SoundStore P)).traced (Moment β)).rule ((Honest count).traced aroundCall)

def SoundlyTold (P : Primitives β) (A : Set (Moment β) → Prop) (x : World β × Set (Moment β)) : Prop :=
  SoundStore P x.1 ∧ A x.2

variable {A : Set (Moment β) → Prop} {x : World β × Set (Moment β)}

theorem quiet_moments (hA : Monotone A) :
    (momentRule P count).Quiet Call.Silent fun x => A x.2 := by
  rintro c ⟨s, M⟩ hc hs ⟨t, N⟩ ⟨-, hN⟩ r ⟨u, N'⟩ ⟨hr, hN'⟩
  obtain rfl : N = M := hN
  obtain rfl : u = t := honest_silent hc hr
  obtain rfl : N' = N ∪ aroundCall c u r u := hN'
  exact ⟨id, hA Set.subset_union_left hs⟩

theorem quiet_soundlyTold (hA : Monotone A) : (momentRule P count).Quiet Call.Silent (SoundlyTold P A) := by
  rintro c ⟨s, M⟩ hc ⟨hs, hM⟩ ⟨t, N⟩ ⟨ht, hN⟩ r ⟨u, N'⟩ ⟨hr, hN'⟩
  obtain rfl : N = M := hN
  obtain rfl : u = t := honest_silent hc hr
  obtain rfl : N' = N ∪ aroundCall c u r u := hN'
  exact ⟨id, ht hs, hA Set.subset_union_left hM⟩

theorem soundlyTold_pre (hx : SoundlyTold P A x) {c : Call β} {Φ : Reply c → World β × Set (Moment β) → Prop}
    (h : ∀ (W : Vault β) r w', W.Sound P → Honest count c (W.toWorld P) r w' →
      ∃ U : Vault β, w' = U.toWorld P ∧ U.Sound P ∧
        ∀ M, A M → Φ r (U.toWorld P, M ∪ {(c, W.toWorld P, U.toWorld P)})) :
    (momentRule P count).pre c x Φ := by
  obtain ⟨s, M⟩ := x
  obtain ⟨hs, hM⟩ := hx
  rintro ⟨t, N⟩ ⟨ht, hN⟩ r ⟨u, N'⟩ ⟨hr, hN'⟩
  obtain rfl : N = M := hN
  obtain ⟨W, rfl, hW⟩ := ht hs
  obtain ⟨U, rfl, hU, hk⟩ := h W r u hW hr
  obtain rfl : N' = N ∪ {(c, W.toWorld P, U.toWorld P)} := hN'
  exact ⟨fun _ => ⟨U, rfl, hU⟩, hk N hM⟩

theorem testifies_of_ends {D : Except Stop α → Set (Moment β) → Prop} {p : Enclave β α}
    (h : (momentRule P count).Ends (fun r x => D r x.2) p (V.toWorld P, M)) :
    Testifies P count (fun r _ M => D r M) p V M := by
  refine h.safe fun r x y hr hxy => ?_
  rw [hxy.2]
  exact hr

omit [DecidableEq β] in
theorem monotone_true : Monotone fun _ : Set (Moment β) => True := fun _ _ _ _ => trivial

end Rules

section Reads

variable [DecidableEq β]

def KeySeen (P : Primitives β) (u key : List β) (M : Set (Moment β)) : Prop :=
  key.length = keySize ∧
    Witnessed P M (.reads .users (some .primaryPreferred)) fun V _ => V.HasAccount u key

omit [DecidableEq β] in
theorem monotone_keySeen : Monotone (KeySeen P u key) :=
  fun _ _ hM ⟨hkey, h⟩ => ⟨hkey, h.grow hM⟩

theorem recordSteps_testifying (hP : P.Ideal) : RecordSteps (momentRule P count) P u
    (SoundlyTold P fun _ => True)
    (fun d cur x => cur.error = none ∧ ∃ b : Account β, d = b.toDoc P ∧ SoundlyTold P (KeySeen P u b.key) x)
    (fun e x => e = .thrown (bsonError "User does not exist" 539) ∧
      Witnessed P x.2 (.reads .users (some .primaryPreferred)) fun V W =>
        u ∉ V.accounts.keys ∧ W = V) where
  quiet_start := quiet_soundlyTold monotone_true
  quiet_read _ _ := .and (.exists fun _ => .and (quiet_soundlyTold monotone_keySeen))
  find := by
    intro x hx
    refine soundlyTold_pre hx ?_
    rintro W ⟨d, cur⟩ w' hW h
    obtain ⟨rfl, herr, ⟨a, ha, rfl, rfl⟩ | ⟨hu, rfl⟩⟩ := honest_findAccount hP h
    · refine ⟨W, rfl, hW, fun M _ => ⟨herr, a, rfl, ⟨W, rfl, hW⟩, hW.keySized.account a ha, ?_⟩⟩
      exact witnessed_here hW hW rfl ⟨a, ha, rfl, rfl⟩
    · exact ⟨W, rfl, hW, fun M _ => ⟨rfl, witnessed_here hW hW rfl ⟨hu, rfl⟩⟩⟩
  stop := by
    rintro _ cur _ e ⟨herr, a, rfl, -⟩ he
    exact absurd he (not_recordStop_toDoc hP herr)

end Reads

section Edits

variable [DecidableEq β] {c : Change β} {A : Set (Moment β) → Prop}

omit [DecidableEq β] in
/-- Read as it is, a reply without matched documents does not count one. -/
theorem matchedCount_zero (hcount : count = .int32 ∨ count = .int64) {v : ℤ}
    (hv : matchedCount (updateReply count 0 : Doc β) = some v) : ¬ 1 ≤ v := by
  rcases hcount with rfl | rfl <;>
  · simp [matchedCount, Iter.initFind, Iter.init, updateReply, Iter.int64] at hv
    omega

def Tried (P : Primitives β) (g : List β) (c : Change β) (r : Except Stop Unit)
    (M : Set (Moment β)) : Prop :=
  match r with
  | .ok () => (Witnessed P M (.updates .groups) fun V W =>
        (∃ G ∈ V.groups, G.name = g ∧ c.Applies G) ∧ ∃ s, W = V.modify g c s) ∨
      Witnessed P M (.reads .groups none) fun V W =>
        W = V ∧ ∀ G ∈ V.groups, G.name = g → ¬ c.Applies G
  | .error e => e = .thrown (c.groupEdit P g).exhausted

theorem monotone_tried {r : Except Stop Unit} : Monotone (Tried P g c r) := by
  intro M M' hM h
  cases r with
  | error e => exact h
  | ok a => exact Or.imp (Witnessed.grow · hM) (Witnessed.grow · hM) h

theorem editSteps_testifying (hP : P.Ideal) (hL : P.LengthRegular)
    (hcount : count = .int32 ∨ count = .int64)
    (hk : ∀ m, c = .join m → m.key.length = keySize) (hA : Monotone A) :
    EditSteps (momentRule P count) P (c.groupEdit P g) (fun _ => SoundlyTold P A)
      (fun _ d x => ∃ G : Group β, (G.Sound P ∧ G.name = g ∧ c.Applies G ∧ d = G.toDoc P) ∧
        SoundlyTold P A x) (fun r x => A x.2 ∧ Tried P g c r x.2) where
  quiet_start _ := quiet_soundlyTold hA
  quiet_read _ _ := .exists fun _ => .and (quiet_soundlyTold hA)
  quiet_done r := quiet_moments (A := fun M => A M ∧ Tried P g c r M)
    fun _ _ hM h => ⟨hA hM h.1, monotone_tried hM h.2⟩
  find := by
    intro _ x hx
    refine soundlyTold_pre hx ?_
    rintro W ⟨d, cur⟩ w' hW h
    obtain ⟨rfl, ⟨G, hG, hg, happ, rfl⟩ | ⟨hno, rfl⟩⟩ := honest_findEdit hP h
    · exact ⟨W, rfl, hW, fun M hM => ⟨G, ⟨hW.group hG, hg, happ, rfl⟩, ⟨W, rfl, hW⟩,
        hA Set.subset_union_left hM⟩⟩
    · exact ⟨W, rfl, hW, fun M hM => ⟨hA Set.subset_union_left hM,
        .inr (witnessed_here hW hW rfl ⟨rfl, hno⟩)⟩⟩
  stop := by
    rintro _ _ _ e ⟨G, ⟨hG, rfl, happ, rfl⟩, -⟩ he
    exact absurd he (not_editStop_toDoc hP hG.signed happ)
  send := by
    rintro n _ x sel upd ⟨G, ⟨hG, rfl, happ, rfl⟩, hx⟩ hedit
    refine soundlyTold_pre hx ?_
    intro W r w hW h
    rcases honest_editOf hP happ hedit h with ⟨rfl, rfl, -⟩ | ⟨rfl, rfl, H, hH, hn, ha, hs⟩
    · refine ⟨W, rfl, hW, fun M hM => ?_⟩
      obtain ⟨v, hv⟩ := exists_matchedCount (β := β) count 0
      refine ⟨fun hnone => ?_, fun v' hv' => ?_⟩
      · cases hnone.symm.trans hv
      · rw [if_neg (matchedCount_zero hcount hv')]
        exact ⟨⟨W, rfl, hW⟩, hA Set.subset_union_left hM⟩
    · have hW' := hW.modify hP hL hG hH hn.symm hs.symm (fun _ => Group.signature_change ha) hk
      rw [hn] at hW'
      refine ⟨_, rfl, hW', fun M hM => answered_updateReply ?_ ?_⟩
      · exact ⟨hA Set.subset_union_left hM,
          .inl (witnessed_here hW hW' rfl ⟨⟨H, hH, hn, ha⟩, _, rfl⟩)⟩
      · exact ⟨⟨_, rfl, hW'⟩, hA Set.subset_union_left hM⟩
  exhausted _ hx := ⟨hx.2, rfl⟩

end Edits

section Requests

variable [DecidableEq β] {q : Request β}

def Warrants (P : Primitives β) (q : Request β) (f : α → Answer β) (r : Except Stop α)
    (M : Set (Moment β)) : Prop := q.Warranted P (r.map f) M

theorem Request.Warranted.grow {r : Except Stop (Answer β)} (h : q.Warranted P r M)
    (hM : M ⊆ M') : q.Warranted P r M' := by
  cases h with
  | registered h => exact .registered (h.grow hM)
  | taken h he => exact .taken (h.grow hM) he
  | unknown hq h => exact .unknown hq (h.grow hM)
  | joined hq hkey h => exact .joined hq (hkey.grow hM) (h.grow hM)
  | needless hq hkey h => exact .needless hq (hkey.grow hM) (h.grow hM)
  | founded hkey h => exact .founded (hkey.grow hM) (h.grow hM)
  | left h => exact .left (h.grow hM)
  | absent h => exact .absent (h.grow hM)
  | gaveUp ho => exact .gaveUp ho
  | keys h => exact .keys (h.grow hM)
  | missing h => exact .missing (h.grow hM)
  | member h => exact .member (h.grow hM)

theorem quiet_warrants {f : α → Answer β} {r : Except Stop α} :
    (momentRule P count).Quiet Call.Silent fun x => Warrants P q f r x.2 :=
  quiet_moments (A := Warrants P q f r) fun _ _ hM h => Request.Warranted.grow h hM

theorem testifies_withKey (hP : P.Ideal) (hV : V.Sound P) (hq : q.Adds g u)
    {k : List β → Enclave β Unit}
    (hk : ∀ key iv x, SoundlyTold P (KeySeen P u key) x → (momentRule P count).Ends
      (fun r x => Warrants P q (fun _ => .done) r x.2) (k (P.encryptAesgcm iv key)) x) :
    Testifies P count (fun r _ M => Warrants P q (fun _ => .done) r M)
      ((reencryptUserKey P u).bind k) V M := by
  apply testifies_of_ends
  refine ((recordSteps_testifying hP).ends ⟨⟨V, rfl, hV⟩, trivial⟩).bind ?_ ?_
  · rintro _ x ⟨d, cur, key, iv, ⟨-, a, rfl, hx⟩, hkey, rfl⟩
    obtain rfl := Option.some.inj ((recordKey_toDoc hP a).symm.trans hkey)
    exact hk a.key iv x hx
  · rintro _ x ⟨rfl, hseen⟩
    exact .unknown hq hseen

theorem ends_joining (hP : P.Ideal) (hL : P.LengthRegular)
    (hcount : count = .int32 ∨ count = .int64) (hq : q.Adds g u) {iv : List β}
    {x : World β × Set (Moment β)} (hx : SoundlyTold P (KeySeen P u key) x) :
    (momentRule P count).Ends (fun r x => Warrants P q (fun _ => .done) r x.2)
      (addUserToGroupWithKey P g u (P.encryptAesgcm iv key)) x := by
  have hk : ∀ m : Member β, Change.join ⟨u, key, iv⟩ = .join m → m.key.length = keySize := by
    rintro _ ⟨⟩
    exact hx.2.1
  apply ((editSteps_testifying hP hL hcount hk monotone_keySeen).ends (n := 10) hx).mono
  rintro (e | ⟨⟩) y ⟨⟨-, hseen⟩, h⟩
  · obtain rfl : e = .thrown (Op.addUserToGroup g u).gaveUp := h
    rcases hq with rfl | rfl
    · exact .gaveUp trivial
    · exact .gaveUp trivial
  · rcases h with hwritten | hidle
    · refine .joined hq hseen (hwritten.mono ?_)
      rintro V W ⟨hG, s, hs⟩
      exact ⟨hG, iv, s, hs⟩
    · refine .needless hq hseen (hidle.mono ?_)
      rintro V W ⟨hW, hall⟩
      exact ⟨hW, fun G hG hg => not_not.mp (hall G hG hg)⟩

theorem testifies_createUser (hP : P.Ideal) (hkey : key.length = keySize) (hV : V.Sound P) :
    Testifies P count (fun r _ M => Warrants P (.op (.createUser u key)) (fun _ => .done) r M)
      (createUser P u key) V M := by
  apply testifies_of_ends
  refine ends_createUser (A := SoundlyTold P fun _ => True) (quiet_soundlyTold monotone_true)
    (fun _ => quiet_warrants) (fun iv x hx => soundlyTold_pre hx ?_) ⟨⟨V, rfl, hV⟩, trivial⟩
  intro W r w' hW h
  rcases honest_insertAccount hP h with ⟨hu, rfl, e, he, rfl⟩ | ⟨hu, rfl, rfl⟩
  · have hcode : e.code ≠ 0 := by rw [he]; decide
    refine ⟨W, rfl, hW, fun M _ => ?_⟩
    rw [statusEnd, if_pos hcode]
    exact .taken (witnessed_here hW hW rfl ⟨hu, rfl⟩) he
  · have hW' : (W.register u key iv).Sound P :=
      ⟨hW.signed.register, hW.keySized.register hu hkey⟩
    exact ⟨_, rfl, hW', fun M _ => .registered (witnessed_here hW hW' rfl ⟨hu, _, rfl⟩)⟩

theorem testifies_createGroup (hP : P.Ideal) (hL : P.LengthRegular)
    (hcount : count = .int32 ∨ count = .int64) (hV : V.Sound P) :
    Testifies P count (fun r _ M => Warrants P (.op (.createGroup g u)) (fun _ => .done) r M)
      (createGroup P g u) V M := by
  have hadds : Request.Adds g u (.op (.createGroup g u)) := .inr rfl
  rw [createGroup_eq]
  refine testifies_withKey hP hV hadds fun key iv x hx => ?_
  refine ends_createGroupWithKey (F := SoundlyTold P (KeySeen P u key)) (quiet_soundlyTold monotone_keySeen)
    (quiet_soundlyTold monotone_keySeen) (fun _ => quiet_warrants) (fun iv' x hx => soundlyTold_pre hx ?_)
    (fun x hx => ends_joining hP hL hcount hadds hx) hx
  intro U r w' hU h
  rcases honest_insertNewGroup (m := ⟨u, key, iv⟩) hP h with
    ⟨hg, rfl, e, he, rfl⟩ | ⟨hg, rfl, rfl⟩
  · refine ⟨U, rfl, hU, fun M hM => ?_⟩
    rw [Inserted, if_pos he]
    exact ⟨⟨U, rfl, hU⟩, monotone_keySeen Set.subset_union_left hM⟩
  · have hU' : (U.establish P g iv' ⟨u, key, iv⟩).Sound P :=
      ⟨hU.signed.establish hg, hU.keySized.establish hg hx.2.1⟩
    exact ⟨_, rfl, hU', fun M hM => .founded (hM.2.grow Set.subset_union_left)
      (witnessed_here hU hU' rfl ⟨hg, iv, iv', rfl⟩)⟩

theorem testifies_removeUserFromGroup (hP : P.Ideal) (hL : P.LengthRegular)
    (hcount : count = .int32 ∨ count = .int64) (hV : V.Sound P) :
    Testifies P count
      (fun r _ M => Warrants P (.op (.removeUserFromGroup g u)) (fun _ => .done) r M)
      (removeUserFromGroup P g u) V M := by
  have hk : ∀ m : Member β, Change.leave u = .join m → m.key.length = keySize := by
    intro m hm
    cases hm
  apply testifies_of_ends
  apply ((editSteps_testifying hP hL hcount hk monotone_true).ends (n := 10)
    ⟨⟨V, rfl, hV⟩, trivial⟩).mono
  rintro (e | ⟨⟩) x ⟨-, h⟩
  · obtain rfl : e = .thrown (Op.removeUserFromGroup g u).gaveUp := h
    exact .gaveUp trivial
  · exact h.elim .left .absent

theorem keysSteps_testifying (hP : P.Ideal) : KeysSteps (momentRule P count) P g
    (SoundlyTold P fun _ => True)
    (fun d x => ∃ ks, KeysOf P d ks ∧ Warrants P (.getKeysOfGroup g) .keys (.ok ks) x.2)
    (fun r x => Warrants P (.getKeysOfGroup g) .keys r x.2) where
  quiet_start := quiet_soundlyTold monotone_true
  quiet_read _ := .exists fun _ => .and quiet_warrants
  quiet_done _ := quiet_warrants
  find := by
    intro x hx
    refine soundlyTold_pre hx ?_
    rintro W ⟨d, cur⟩ w hW h
    obtain ⟨rfl, ⟨G, hG, rfl, rfl⟩ | ⟨hg, rfl⟩⟩ := honest_findKeys hP h
    · obtain ⟨ks, hks, hmap⟩ := keysHeld_toDoc hP (hW.keySized.group G hG)
      have hvalid : validateGroupSignature P (G.toDoc P) = some true := by
        rw [validateGroupSignature_toDoc, decide_eq_true (hW.signed G hG)]
      exact ⟨W, rfl, hW, fun M _ => ⟨ks, ⟨hvalid, hks⟩,
        .keys (witnessed_here hW hW rfl ⟨rfl, G, hG, rfl, hmap⟩)⟩⟩
    · exact ⟨W, rfl, hW, fun M _ => .missing (witnessed_here hW hW rfl ⟨rfl, hg⟩)⟩
  stop := by
    rintro d x e ⟨ks, hks, -⟩ he
    exact absurd hks (he.not_keysOf ks)
  done := by
    rintro d x ks ⟨ks', hks', hx⟩ hks
    obtain rfl := Option.some.inj (hks.2.symm.trans hks'.2)
    exact hx

theorem testifies_getKeysOfGroup (hP : P.Ideal) (hV : V.Sound P) :
    Testifies P count (fun r _ M => Warrants P (.getKeysOfGroup g) .keys r M)
      (getKeysOfGroup P g) V M :=
  testifies_of_ends ((keysSteps_testifying hP).ends ⟨⟨V, rfl, hV⟩, trivial⟩)

theorem testifies_isUserPartOfGroup (hP : P.Ideal) (hV : V.Sound P) :
    Testifies P count (fun r _ M => Warrants P (.isUserPartOfGroup g u) .member r M)
      (isUserPartOfGroup P g u) V M := by
  apply testifies_of_ends
  refine ends_isUserPartOfGroup (A := SoundlyTold P fun _ => True) (B := fun r x => r.2.error = none ∧
    Warrants P (.isUserPartOfGroup g u) .member (.ok r.1.isSome) x.2) (quiet_soundlyTold monotone_true)
    (fun _ => .and quiet_warrants) (fun x hx => soundlyTold_pre hx ?_) ?_ ?_ ⟨⟨V, rfl, hV⟩, trivial⟩
  · intro W r w hW h
    obtain ⟨rfl, herr, hmem⟩ := honest_findMember hP h
    exact ⟨W, rfl, hW, fun M _ => ⟨herr, .member (witnessed_here hW hW rfl ⟨rfl, hmem⟩)⟩⟩
  · rintro r e x ⟨herr, -⟩ he
    cases herr.symm.trans he
  · rintro r x ⟨-, hx⟩ -
    exact hx

theorem testifies_addUserToGroup (hP : P.Ideal) (hL : P.LengthRegular)
    (hcount : count = .int32 ∨ count = .int64) (hV : V.Sound P) :
    Testifies P count (fun r _ M => Warrants P (.op (.addUserToGroup g u)) (fun _ => .done) r M)
      (addUserToGroup P g u) V M := by
  have hadds : Request.Adds g u (.op (.addUserToGroup g u)) := .inl rfl
  exact testifies_withKey hP hV hadds fun key iv x hx => ends_joining hP hL hcount hadds hx

theorem testifies_answer {p : Enclave β α} {f : α → Answer β}
    (h : Testifies P count (fun r _ M => Warrants P q f r M) p V M) :
    Testifies P count (fun r _ M => q.Warranted P r M) (p.bind fun a => .pure (f a)) V M := by
  apply Traced.bind
  apply Traced.mono h
  rintro (e | a) w N h
  · exact h
  · rw [thenTraced, traced_pure_iff]
    exact fun _ _ => h

theorem testifies_request (hP : P.Ideal) (hL : P.LengthRegular)
    (hcount : count = .int32 ∨ count = .int64) (hq : q.KeySized) (hdel : ¬ q.Deletes)
    (hV : V.Sound P) :
    Testifies P count (fun r _ M => q.Warranted P r M) (q.prog P) V M := by
  cases q with
  | op o =>
    cases o with
    | createUser u key => exact testifies_answer (testifies_createUser hP hq hV)
    | deleteUser u => exact absurd trivial hdel
    | deleteAllData => exact absurd trivial hdel
    | addUserToGroup g u => exact testifies_answer (testifies_addUserToGroup hP hL hcount hV)
    | removeUserFromGroup g u =>
      exact testifies_answer (testifies_removeUserFromGroup hP hL hcount hV)
    | createGroup g u => exact testifies_answer (testifies_createGroup hP hL hcount hV)
  | getKeysOfGroup g => exact testifies_answer (testifies_getKeysOfGroup hP hV)
  | isUserPartOfGroup g u => exact testifies_answer (testifies_isUserPartOfGroup hP hV)

/-- Among whatever other calls, deletions included, the answer of a call that deletes nothing is
true of the database at the moments at which it moved. -/
theorem run_warranted {ι : Type} [DecidableEq ι] (hP : P.Ideal) (hL : P.LengthRegular)
    (hcount : count = .int32 ∨ count = .int64) {reqs : ι → Request β}
    (hk : ∀ i, (reqs i).KeySized) {w : World β} (hw : SoundStore P w)
    {ms : List (Move ι (Call β) Reply (World β))}
    {cfg : Config ι (Call β) Reply Stop (Answer β) (World β)}
    (h : History (Honest count) (fun i => (reqs i).prog P) (.start w) ms cfg) {i : ι}
    (hdel : ¬ (reqs i).Deletes) {r : Except Stop (Answer β)}
    (hr : cfg.status i = .finished r) : (reqs i).Warranted P r (momentsOf aroundCall i ms) := by
  have hsafe : ∀ j s, SoundStore P s → Safe (Honest count) (.keeping (SoundStore P))
      (fun _ _ => True) ((reqs j).prog P) s := by
    rintro j _ ⟨V, rfl, hV⟩
    exact safe_sound_request hP hL (hk j) hV
  have htraced := h.traced (i := i) (Q := fun r M => (reqs i).Warranted P r M) hsafe
    (by
      rintro _ ⟨V, rfl, hV⟩
      exact testifies_request hP hL hcount (hk i) hdel hV) hw
  rw [hr] at htraced
  exact htraced

end Requests

section Samples

def deletingAsking : Bool → Request ℕ
  | false => .op (.deleteUser [1])
  | true => .isUserPartOfGroup [5] [1]

theorem exists_answer {V : Vault ℕ} {q : Request ℕ} (hq : q.KeySized)
    (hV : V.Sound Primitives.nat) :
    ∃ r, ∃ W : Vault ℕ, (q.prog Primitives.nat).Evals (Honest .int64) (V.toWorld Primitives.nat) r
      (W.toWorld Primitives.nat) ∧ W.Sound Primitives.nat ∧ W.directory = V.directory.next q ∧
      V.Answers q r := by
  obtain ⟨r, w, hr, hans, W, rfl, hW, hdir⟩ := (wp_request Primitives.nat_ideal
    Primitives.nat_lengthRegular hq hV).exists_evals (honest_total .int64)
  exact ⟨r, W, hr, hW, hdir, hans⟩

end Samples

/-- A user is no longer a member when its deletion is through. -/
theorem run_warranted_sample : ∃ (ms : List (Move Bool (Call ℕ) Reply (World ℕ)))
    (cfg : Config Bool (Call ℕ) Reply Stop (Answer ℕ) (World ℕ)),
    (∃ a, cfg.status false = .finished (.ok a)) ∧
    cfg.status true = .finished (.ok (.member false)) ∧
    (deletingAsking true).Warranted Primitives.nat (.ok (.member false))
      (momentsOf aroundCall true ms) := by
  have hP := Primitives.nat_ideal
  have hL := Primitives.nat_lengthRegular
  have hk : ∀ i, (deletingAsking i).KeySized := by
    rintro (_ | _)
    · trivial
    · trivial
  have hstart : History (Honest .int64) (fun i => (deletingAsking i).prog Primitives.nat)
      (.start (sampleVault.toWorld Primitives.nat)) []
      (.start (sampleVault.toWorld Primitives.nat)) := .nil _
  obtain ⟨r, V, hr, hV, hdir, hok⟩ := exists_answer (hk false) sampleVault_sound
  obtain ⟨ms, hms, -⟩ := hstart.complete rfl hr
  obtain ⟨r', W, hr', -, -, hno⟩ := exists_answer (hk true) hV
  let cfg : Config Bool (Call ℕ) Reply Stop (Answer ℕ) (World ℕ) :=
    (Config.start (sampleVault.toWorld Primitives.nat)).set (V.toWorld Primitives.nat) false
      (.finished r)
  have hidle : cfg.status true = .idle := Config.set_status_of_ne _ _ Bool.noConfusion _
  obtain ⟨ns, hns, -⟩ := hms.complete hidle hr'
  obtain rfl : r' = .ok (.member false) := by
    change r' = .ok (.member (decide ([1] ∈ V.directory.membersOf [5]))) at hno
    rw [hdir] at hno
    exact hno
  let cfg' := cfg.set (W.toWorld Primitives.nat) true (.finished (.ok (.member false)))
  have hdeleted : cfg'.status false = .finished r := by
    rw [Config.set_status_of_ne _ _ Bool.noConfusion, Config.set_status_self]
  have hasked : cfg'.status true = .finished (.ok (.member false)) := Config.set_status_self ..
  cases r with
  | error e => cases hok
  | ok a =>
    exact ⟨_, _, ⟨a, hdeleted⟩, hasked, run_warranted hP hL (.inr rfl) hk
      ⟨sampleVault, rfl, sampleVault_sound⟩ hns id hasked⟩

end MongoSgx
