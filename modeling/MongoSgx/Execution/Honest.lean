import MongoSgx.Execution.Rules

/-! # The calls of the operations on an honest store

What the honest store answers to the reads and writes of the operations, on the
database of a vault. Silent calls disturb nothing there.
-/

namespace MongoSgx

open Bson Interaction

variable {β : Type}

section Answers

variable {count : ℤ → Scalar} {T : Type} {again : T → Prop} {D : Except Stop Unit → T → Prop} {t : T}

/-- Whatever type the number of matched documents has, an attempt returns or goes on. -/
theorem answered_updateReply {n : ℤ} (hok : D (.ok ()) t) (hagain : again t) :
    Answered again D (.ok (updateReply count n : Doc β)) t := by
  obtain ⟨v, hv⟩ := exists_matchedCount (β := β) count n
  refine ⟨fun hnone => ?_, fun v' hv' => ?_⟩
  · cases hnone.symm.trans hv
  · split
    · exact hok
    · exact hagain

theorem answered_int64_zero :
    Answered again D (.ok (updateReply .int64 0 : Doc β)) t ↔ again t := by
  simp [Answered, matchedCount]

theorem answered_int64_one :
    Answered again D (.ok (updateReply .int64 1 : Doc β)) t ↔ D (.ok ()) t := by
  simp [Answered, matchedCount]

end Answers

variable [DecidableEq β] {count : ℤ → Scalar} {P : Primitives β} {V : Vault β}
  {g u : List β} {c : Change β} {w' : World β}

section Silent

theorem honest_silent {c : Call β} (hc : c.Silent) {r : Reply c} {w w' : World β}
    (h : Honest count c w r w') : w' = w := by
  cases c <;> first | exact h | cases hc

theorem honest_of_silent {c : Call β} (hc : c.Silent) (r : Reply c) (w : World β) :
    Honest count c w r w := by
  cases c <;> first | rfl | cases hc

theorem quiet_honest {A : World β → Prop} : (Honest count).rule.Quiet Call.Silent A :=
  fun _ _ hc ha _ _ h => honest_silent hc h ▸ ha

theorem wp_silent {α : Type} {Q : Except Stop α → World β → Prop} {c : Call β} (hc : c.Silent)
    {k : Reply c → Enclave β α} {w : World β} (h : ∀ r, Wp (Honest count) Q (k r) w) :
    Wp (Honest count) Q (.call c k) w :=
  .call fun r _ hr => honest_silent hc hr ▸ h r

end Silent

section Reads

variable {r : Option (Doc β) × Cursor β}

theorem honest_findEdit (hP : P.Ideal)
    (h : Honest count (.cursorNext (findWithOpts .groups (c.groupEdit P g).selector none none))
      (V.toWorld P) r w') :
    w' = V.toWorld P ∧
      ((∃ G ∈ V.groups, G.name = g ∧ c.Applies G ∧ r.1 = some (G.toDoc P)) ∨
        (∀ G ∈ V.groups, G.name = g → ¬ c.Applies G) ∧ r.1 = none) := by
  obtain ⟨rfl, -, ⟨G, hG, hm, hr⟩ | ⟨hno, hr⟩⟩ := honest_findGroup h
  · obtain ⟨hg, hc⟩ := (matches_groupEdit hP).mp hm
    exact ⟨rfl, .inl ⟨G, hG, hg, hc, hr⟩⟩
  · refine ⟨rfl, .inr ⟨fun G hG hg hc => hno G hG ?_, hr⟩⟩
    exact (matches_groupEdit hP).mpr ⟨hg, hc⟩

theorem honest_findKeys (hP : P.Ideal)
    (h : Honest count (.cursorNext (findWithOpts .groups (nameSelector (hashName P g none)) none
      (some .secondaryPreferred))) (V.toWorld P) r w') :
    w' = V.toWorld P ∧ ((∃ G ∈ V.groups, G.name = g ∧ r.1 = some (G.toDoc P)) ∨
      g ∉ V.groups.keys ∧ r.1 = none) := by
  obtain ⟨rfl, -, ⟨G, hG, hm, hr⟩ | ⟨hno, hr⟩⟩ := honest_findGroup h
  · exact ⟨rfl, .inl ⟨G, hG, (matches_nameSelector hP).mp hm, hr⟩⟩
  · refine ⟨rfl, .inr ⟨fun hk => ?_, hr⟩⟩
    obtain ⟨G, hG, hg⟩ := Keyed.mem_keys.mp hk
    exact hno G hG ((matches_nameSelector hP).mpr hg)

theorem honest_findMember (hP : P.Ideal)
    (h : Honest count (.cursorNext (memberCursor P g u)) (V.toWorld P) r w') :
    w' = V.toWorld P ∧ r.2.error = none ∧
      (r.1.isSome = true ↔ ∃ G ∈ V.groups, G.name = g ∧ u ∈ G.users) := by
  have hiff : ∀ G : Group β, ((Change.leave u).groupEdit P g).selector.Matches (G.toDoc P) ↔
      G.name = g ∧ u ∈ G.users := fun G => matches_groupEdit hP
  obtain ⟨rfl, herr, ⟨G, hG, hm, hr⟩ | ⟨hno, hr⟩⟩ := honest_findGroup h
  · refine ⟨rfl, herr, fun _ => ⟨G, hG, (hiff G).mp hm⟩, fun _ => ?_⟩
    rw [hr]
    rfl
  · refine ⟨rfl, herr, fun hs => ?_, fun ⟨G, hG, hu⟩ => absurd ((hiff G).mpr hu) (hno G hG)⟩
    rw [hr] at hs
    cases hs

end Reads

section Writes

theorem honest_insertNewGroup (hP : P.Ideal) {iv : List β} {m : Member β}
    {r : Except BsonError Unit}
    (h : Honest count (.insertOne .groups (newGroupDoc P g m.user (P.encryptAesgcm m.iv m.key) iv))
      (V.toWorld P) r w') :
    (g ∈ V.groups.keys ∧ w' = V.toWorld P ∧
      ∃ e : BsonError, e.code = mongocErrorDuplicateKey ∧ r = .error e) ∨
    (g ∉ V.groups.keys ∧ r = .ok () ∧ w' = (V.establish P g iv m).toWorld P) :=
  honest_insertGroup hP h

theorem honest_editOf (hP : P.Ideal) {G : Group β} (hc : c.Applies G) {sel : Selector β}
    {upd : Update β} (hedit : EditOf P (c.groupEdit P G.name) (G.toDoc P) sel upd)
    {r : Except BsonError (Doc β)} (h : Honest count (.updateOne .groups sel upd) (V.toWorld P) r w') :
    (r = .ok (updateReply count 0) ∧ w' = V.toWorld P ∧
      ∀ H ∈ V.groups, H.name = G.name → c.Applies H → H.signature ≠ G.signature) ∨
    (r = .ok (updateReply count 1) ∧ w' = (V.modify G.name c (G.nextSignature P c)).toWorld P ∧
      ∃ H ∈ V.groups, H.name = G.name ∧ c.Applies H ∧ H.signature = G.signature) := by
  obtain ⟨-, rfl, rfl⟩ := (editOf_toDoc hP hc).mp hedit
  rcases honest_edit hP h with ⟨rfl, rfl, hno⟩ | ⟨rfl, rfl, H, hH, hn, ha, hs⟩
  · exact .inl ⟨rfl, rfl, fun H hH hn ha hs => hno H hH hn ha (congrArg _ hs)⟩
  · exact .inr ⟨rfl, rfl, H, hH, hn, ha, List.Vector.toList_injective hs⟩

end Writes

end MongoSgx
