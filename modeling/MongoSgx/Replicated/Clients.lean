import MongoSgx.Concurrent.Answers
import MongoSgx.Replicated.Revocation

/-! # Many clients of a replica set

What the calls keep among others they keep on a replica set: a read that is answered
from an old state is one between two moves of others. So whatever the secondaries
lag behind, the primary goes through single edits that its clients ask for, and an
answer is true of the primary or of a state that it has had.
-/

namespace MongoSgx

open Bson Interaction

variable {β : Type}

def Replica.Sound (P : Primitives β) (s : Replica β) : Prop := ∀ w ∈ s.states, SoundStore P w

/-- A call shows the states of the primary before and after it, or some state the primary has had if
it may be answered by secondaries: a read with read preferences. -/
def replicaShows : Shows (Call β) Reply (Replica β) (Moment β) :=
  fun c s _ t => {x | x = (c, s.now, t.now) ∨
    (¬ c.Primary ∧ t = s ∧ ∃ w ∈ s.states, x = (c, w, w))}

variable {P : Primitives β} {s t : Replica β} {c : Call β} {r : Reply c} {count : ℤ → Scalar}

theorem Replica.Sound.now (h : s.Sound P) : SoundStore P s.now := h _ Replica.now_mem_states

theorem Replica.Sound.write {w : World β} (h : s.Sound P) (hw : SoundStore P w) :
    (s.write w).Sound P := by
  intro v hv
  rcases List.mem_append.mp hv with hv | hv
  · exact h v hv
  · rwa [List.mem_singleton.mp hv]

variable [DecidableEq β]

theorem Replica.Sound.answered (hs : s.Sound P)
    (h : Replicated count Replica.states c s r t) :
    (¬ c.Primary ∧ t = s ∧ ∃ w ∈ s.states, Honest count c w r w) ∨
      (Honest count c s.now r t.now ∧ (SoundStore P t.now → t.Sound P)) := by
  rcases h.cases with ⟨rfl, w, hw, hr⟩ | ⟨w, hr, rfl⟩
  · by_cases hc : c.Primary
    · exact .inr ⟨h.honest (.inl hc), fun _ => hs⟩
    · refine .inl ⟨hc, rfl, w, ?_, hr⟩
      rcases List.mem_cons.mp hw with rfl | hw
      · exact Replica.now_mem_states
      · exact hw
  · exact .inr ⟨hr, hs.write⟩

section Views

variable {q : Request β}

/-- The primary stays where it is, or a call moves it as its request asks. -/
def Request.MovesPrimary (P : Primitives β) (q : Request β) (s t : Replica β) : Prop :=
  t.now = s.now ∨ q.Moves P s.now t.now

theorem views_replicated : Views (Honest count) (writing P q) (Replicated count Replica.states)
    (.moving (Replica.Sound P) (q.MovesPrimary P)) (fun s w => s.Sound P ∧ SoundStore P w) where
  stable hs hxy := ⟨_, id, hxy hs.1, hs.2⟩
  call := by
    rintro s t w c r ⟨hs, -⟩ h
    rcases hs.answered h with ⟨-, rfl, v, hv, hr⟩ | ⟨hr, ht⟩
    · exact ⟨v, v, fun _ => hs v hv, hr, fun _ => ⟨fun _ => ⟨hs, .inl rfl⟩, hs, hs v hv⟩⟩
    · refine ⟨s.now, t.now, fun _ => hs.now, hr, fun hg => ?_⟩
      obtain ⟨hnow, hmove⟩ := hg hs.now
      exact ⟨fun _ => ⟨ht hnow, .inr hmove⟩, ht hnow, hnow⟩

theorem exists_shown (hs : s.Sound P) (h : Replicated count Replica.states c s r t) :
    ∃ w w', SoundStore P w ∧ Honest count c w r w' ∧
      aroundCall c w r w' ⊆ replicaShows c s r t ∧ (SoundStore P w' → t.Sound P) := by
  rcases hs.answered h with ⟨hc, rfl, v, hv, hr⟩ | ⟨hr, ht⟩
  · refine ⟨v, v, hs v hv, hr, ?_, fun _ => hs⟩
    rintro _ rfl
    exact .inr ⟨hc, rfl, v, hv, rfl⟩
  · refine ⟨s.now, t.now, hs.now, hr, ?_, ht⟩
    rintro _ rfl
    exact .inl rfl

end Views

section Runs

variable {ι : Type} [DecidableEq ι] {reqs : ι → Request β}
  {ms : List (Move ι (Call β) Reply (Replica β))}
  {cfg : Config ι (Call β) Reply Stop (Answer β) (Replica β)} {D : Directory β}

omit [DecidableEq ι] in
theorem safe_replicated (hP : P.Ideal) (hL : P.LengthRegular) (hk : ∀ i, (reqs i).KeySized)
    (i : ι) (hs : s.Sound P) : Safe (Replicated count Replica.states)
      (.moving (Replica.Sound P) ((reqs i).MovesPrimary P)) (fun _ _ => True)
      ((reqs i).prog P) s := by
  obtain ⟨V, hV, hsound⟩ := hs.now
  exact views_replicated.safe (fun _ _ _ _ _ => trivial) (hV ▸ safe_writing hP hL (hk i) hsound)
    ⟨hs, hs.now⟩

/-- However the calls of the whole interface interleave, and from whatever states the secondaries
answer, the directory at the primary changes by single edits, each at a driver call of a client
whose request asks for it. -/
theorem run_replicated (hP : P.Ideal) (hL : P.LengthRegular) (hk : ∀ i, (reqs i).KeySized)
    (hs : s.Sound P) (hD : Carries P D s.now)
    (h : History (Replicated count Replica.states) (fun i => (reqs i).prog P) (.start s) ms cfg) :
    ∃ D', Trail (fun D s => Carries P D s.now) (fun i => (reqs i).Alters) D ms D' ∧
      Carries P D' cfg.world.now := by
  obtain ⟨-, hms⟩ := h.moves (fun i _ => safe_replicated hP hL hk i) hs
  have hall : ∀ m ∈ ms, ∀ D, Carries P D m.before.now →
      Carries P D m.after.now ∨ ∃ D', (reqs m.client).Alters D D' ∧ Carries P D' m.after.now := by
    intro m hm D hD
    have hcases : m.after.now = m.before.now ∨
        (reqs m.client).Moves P m.before.now m.after.now := by
      rcases (hms m hm).2 with heq | hmoves
      · exact .inl (congrArg Replica.now heq)
      · exact hmoves
    rcases hcases with heq | hmoves
    · exact .inl (heq ▸ hD)
    · exact .inr (hmoves.alters hP hD)
  exact h.trail hall hD

/-- On a replica set whose secondaries answer from whatever states the primary has had, and among
whatever other calls, the answer of a call that deletes nothing is true of the primary when it
moved, or of a state the primary had had by the time it read. -/
theorem run_replicated_warranted (hP : P.Ideal) (hL : P.LengthRegular)
    (hcount : count = .int32 ∨ count = .int64) (hk : ∀ i, (reqs i).KeySized) (hs : s.Sound P)
    (h : History (Replicated count Replica.states) (fun i => (reqs i).prog P) (.start s) ms cfg)
    {i : ι} (hdel : ¬ (reqs i).Deletes) {r : Except Stop (Answer β)}
    (hr : cfg.status i = .finished r) :
    (reqs i).Warranted P r (momentsOf replicaShows i ms) := by
  have hsafe : ∀ j s, Replica.Sound P s → Safe (Replicated count Replica.states)
      (.keeping (Replica.Sound P)) (fun _ _ => True) ((reqs j).prog P) s := by
    intro j s hs
    have hmoving : Safe (Replicated count Replica.states) (.moving (Replica.Sound P)
        ((reqs j).MovesPrimary P)) (fun _ _ => True) ((reqs j).prog P) s :=
      safe_replicated hP hL hk j hs
    exact Safe.weaken hmoving (fun _ _ h => h) fun _ _ h hs => (h hs).1
  have htraced : ∀ s, Replica.Sound P s → Traced (Replicated count Replica.states)
      (.keeping (Replica.Sound P)) replicaShows (fun r _ M => (reqs i).Warranted P r M)
      ((reqs i).prog P) s ∅ := by
    intro s hs
    obtain ⟨V, hV, hsound⟩ := hs.now
    exact Traced.viewed (fun _ _ _ _ hs h => exists_shown hs h) (fun _ _ _ hM h => h.grow hM)
      (testifies_request hP hL hcount (hk i) hdel hsound) ⟨V, rfl, hsound⟩ hs
  have hend := h.traced hsafe htraced hs
  rw [hr] at hend
  exact hend

end Runs

section Samples

def sampleReplica : Replica ℕ := ⟨[], sampleVault.toWorld Primitives.nat⟩

theorem sampleReplica_sound : sampleReplica.Sound Primitives.nat := by
  intro w hw
  obtain rfl := List.mem_singleton.mp hw
  exact ⟨sampleVault, rfl, sampleVault_sound⟩

def deletingReading : Bool → Request ℕ
  | false => .op (.deleteUser [1])
  | true => .getKeysOfGroup [5]

theorem deletingReading_keySized : ∀ i, (deletingReading i).KeySized := by
  rintro (_ | _)
  · trivial
  · trivial

/-- The user is deleted at the primary, and the keys still come from the state before. -/
theorem exists_stale_keys : ∃ (ms : List (Move Bool (Call ℕ) Reply (Replica ℕ)))
    (cfg : Config Bool (Call ℕ) Reply Stop (Answer ℕ) (Replica ℕ)) (ks : List (Key ℕ)),
    History (Replicated .int64 Replica.states)
      (fun i => (deletingReading i).prog Primitives.nat) (.start sampleReplica) ms cfg ∧
    (∃ a, cfg.status false = .finished (.ok a)) ∧
    cfg.status true = .finished (.ok (.keys ks)) ∧ ks.length = 1 ∧
    ∃ W : Vault ℕ, cfg.world.now = W.toWorld Primitives.nat ∧
      W.directory.groups.elems = [([5], [])] := by
  have hP := Primitives.nat_ideal
  obtain ⟨r, W, hr, -, hdir, hok⟩ :=
    exists_answer (deletingReading_keySized false) sampleVault_sound
  obtain ⟨t, ht, hnow⟩ : ∃ t, ((deletingReading false).prog Primitives.nat).Evals
      (Replicated .int64 Replica.states) sampleReplica r t ∧ t.now = W.toWorld Primitives.nat :=
    exists_evals_replicated (fun _ => Replica.now_mem_states) hr
  -- the group as it was
  obtain ⟨G, hG, hname, hmembers⟩ : ∃ G ∈ sampleVault.groups, G.name = [5] ∧
      G.members.length = 1 := ⟨_, List.mem_singleton_self _, rfl, rfl⟩
  obtain ⟨_, _, hks, rfl, ks, rfl, hkeys⟩ := (wp_getKeysOfGroup (V := sampleVault) hP hG
    (sampleVault_sound.signed G hG) (sampleVault_sound.keySized.group G hG)).exists_evals
    (honest_total .int64)
  have hold : sampleVault.toWorld Primitives.nat ∈ t.states :=
    states_subset ht _ (List.mem_singleton_self _)
  have hread : ((deletingReading true).prog Primitives.nat).Evals
      (Replicated .int64 Replica.states) t (.ok (.keys ks)) t := by
    rw [hname] at hks
    exact (evals_getKeysOfGroup_view hold rfl hks).bind (Prog.evals_pure_iff.mpr ⟨rfl, rfl⟩)
  have hlen : ks.length = 1 := by
    rw [← hmembers, ← List.length_map, hkeys, List.length_map]
  have hstart : History (Replicated .int64 Replica.states)
      (fun i => (deletingReading i).prog Primitives.nat) (.start sampleReplica) []
      (.start sampleReplica) := .nil _
  obtain ⟨ms, hms, -⟩ := hstart.complete rfl ht
  let cfg : Config Bool (Call ℕ) Reply Stop (Answer ℕ) (Replica ℕ) :=
    (Config.start sampleReplica).set t false (.finished r)
  have hidle : cfg.status true = .idle := Config.set_status_of_ne _ _ Bool.noConfusion _
  obtain ⟨ns, hns, -⟩ := hms.complete hidle hread
  let cfg' := cfg.set t true (.finished (.ok (.keys ks)))
  have hdeleted : cfg'.status false = .finished r := by
    rw [Config.set_status_of_ne _ _ Bool.noConfusion, Config.set_status_self]
  cases r with
  | error e => cases hok
  | ok a =>
    exact ⟨_, cfg', ks, hns, ⟨a, hdeleted⟩, Config.set_status_self .., hlen, W, hnow,
      hdir ▸ rfl⟩

end Samples

/-- The deletion empties the group at the primary, whatever is still read. -/
theorem run_replicated_sample : ∃ (ms : List (Move Bool (Call ℕ) Reply (Replica ℕ)))
    (cfg : Config Bool (Call ℕ) Reply Stop (Answer ℕ) (Replica ℕ)) (D' : Directory ℕ),
    Trail (fun D s => Carries Primitives.nat D s.now) (fun i => (deletingReading i).Alters)
      sampleVault.directory ms D' ∧ Carries Primitives.nat D' cfg.world.now ∧
    sampleVault.directory.groups.elems = [([5], [[1]])] ∧ D'.groups.elems = [([5], [])] := by
  obtain ⟨ms, cfg, ks, hms, -, -, -, W, hW, hgroups⟩ := exists_stale_keys
  obtain ⟨D', htrail, hD'⟩ := run_replicated Primitives.nat_ideal Primitives.nat_lengthRegular
    deletingReading_keySized sampleReplica_sound ⟨sampleVault, rfl, sampleVault_sound, rfl⟩ hms
  have heq : D' = W.directory := by
    rw [hW] at hD'
    exact hD'.eq Primitives.nat_ideal
  exact ⟨ms, cfg, D', htrail, hD', rfl, heq ▸ hgroups⟩

/-- The keys of a member that has been deleted are those of an old state. -/
theorem run_replicated_warranted_sample :
    ∃ (ms : List (Move Bool (Call ℕ) Reply (Replica ℕ)))
      (cfg : Config Bool (Call ℕ) Reply Stop (Answer ℕ) (Replica ℕ)) (ks : List (Key ℕ)),
      (∃ a, cfg.status false = .finished (.ok a)) ∧
      cfg.status true = .finished (.ok (.keys ks)) ∧ ks.length = 1 ∧
      (deletingReading true).Warranted Primitives.nat (.ok (.keys ks))
        (momentsOf replicaShows true ms) := by
  obtain ⟨ms, cfg, ks, hms, hdeleted, hread, hlen, -⟩ := exists_stale_keys
  exact ⟨ms, cfg, ks, hdeleted, hread, hlen, run_replicated_warranted Primitives.nat_ideal
    Primitives.nat_lengthRegular (.inr rfl) deletingReading_keySized sampleReplica_sound hms id
    hread⟩

end MongoSgx
