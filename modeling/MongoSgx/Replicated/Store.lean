import MongoSgx.Concurrent.Cuts
import MongoSgx.Transcript.Calls

/-! # The replicated store

A replica set keeps the states that its primary has had. Writes and reads that
require the primary go to the current state. A read that allows secondaries is
answered from any state in the view that the secondaries offer, and each such read
may come from another one.
-/

namespace MongoSgx

open Bson Interaction

variable {β : Type}

/-- A replica set: the states its primary has had before, from the first one on, and its
current state. -/
structure Replica (β : Type) where
  past : List (World β)
  now : World β

namespace Replica

variable {s : Replica β} {w : World β} {n : ℕ}

/-- The collections have just been created. -/
def start : Replica β := ⟨[], .empty⟩

def states (s : Replica β) : List (World β) := s.past ++ [s.now]

/-- The states the primary has had since it had had `n` of them. -/
def since (n : ℕ) (s : Replica β) : List (World β) := s.states.drop n

def current (s : Replica β) : List (World β) := [s.now]

def write (w : World β) (s : Replica β) : Replica β := ⟨s.states, w⟩

@[simp] theorem states_write : (s.write w).states = s.states ++ [w] := rfl

theorem now_mem_states : s.now ∈ s.states := by simp [states]

theorem since_past : s.since s.past.length = [s.now] := by simp [since, states]

theorem since_write (hn : n ≤ s.past.length) : (s.write w).since n = s.since n ++ [w] := by
  have hlen : n ≤ s.states.length := by simp [states]; omega
  rw [since, states_write, List.drop_append_of_le_length hlen, since]

theorem now_mem_since (hn : n ≤ s.past.length) : s.now ∈ s.since n := by
  rw [since, states, List.drop_append_of_le_length hn]
  simp

end Replica

variable [DecidableEq β]

/-- The answers of a replica set whose secondaries offer a view of its states. -/
def Replicated (count : ℤ → Scalar) (view : Replica β → List (World β)) :
    Env (Call β) Reply (Replica β)
  | .create _, s, _, s' => s' = s
  | .destroy _, s, _, s' => s' = s
  | .randomIv, s, _, s' => s' = s
  | .printf _ _, s, _, s' => s' = s
  | .cursorNext cur, s, r, s' => s' = s ∧
    ∃ w ∈ if cur.readPrefs.isSome then view s else s.current,
      CursorNext (w.docs cur.collection) cur r
  | c, s, r, s' => ∃ w, Honest count c s.now r w ∧ s' = s.write w

variable {count : ℤ → Scalar} {view : Replica β → List (World β)} {s s' t : Replica β}
  {c : Call β} {r : Reply c}

section Calls

theorem Replicated.cases (h : Replicated count view c s r s') :
    (s' = s ∧ ∃ w ∈ s.now :: view s, Honest count c w r w) ∨
      ∃ w, Honest count c s.now r w ∧ s' = s.write w := by
  cases c with
  | create | destroy | randomIv | printf => exact .inl ⟨h, s.now, List.mem_cons_self .., rfl⟩
  | cursorNext cur =>
    obtain ⟨rfl, w, hw, hr⟩ := h
    refine .inl ⟨rfl, w, ?_, rfl, hr⟩
    split at hw
    · exact List.mem_cons_of_mem _ hw
    · exact List.mem_cons.mpr (.inl (List.mem_singleton.mp hw))
  | insertOne | updateOne | bulkUpdateOne | deleteOne | deleteNext => exact .inr h

theorem replicated_silent (hc : c.Silent) : Replicated count view c s r s' ↔ s' = s := by
  cases c <;> first | exact Iff.rfl | cases hc

def Call.Primary : Call β → Prop
  | .cursorNext cur => cur.readPrefs = none
  | _ => True

theorem Replicated.honest (hc : c.Primary ∨ view = Replica.current)
    (h : Replicated count view c s r s') : Honest count c s.now r s'.now := by
  cases c with
  | create | destroy | randomIv | printf => exact congrArg Replica.now h
  | cursorNext cur =>
    obtain ⟨rfl, w, hw, hr⟩ := h
    obtain rfl : w = s'.now := by
      rcases hc with hc | rfl
      · rw [show cur.readPrefs = none from hc] at hw
        exact List.mem_singleton.mp hw
      · rw [ite_self] at hw
        exact List.mem_singleton.mp hw
    exact ⟨rfl, hr⟩
  | insertOne | updateOne | bulkUpdateOne | deleteOne | deleteNext =>
    obtain ⟨w, hw, rfl⟩ := h
    exact hw

theorem replicated_of_honest (hview : ∀ s, s.now ∈ view s) {w : World β}
    (h : Honest count c s.now r w) : ∃ s', Replicated count view c s r s' ∧ s'.now = w := by
  cases c with
  | create | destroy | randomIv | printf => exact ⟨s, rfl, h.symm⟩
  | cursorNext cur =>
    obtain ⟨rfl, hr⟩ := h
    refine ⟨s, ⟨rfl, s.now, ?_, hr⟩, rfl⟩
    split
    · exact hview s
    · exact List.mem_singleton_self _
  | insertOne | updateOne | bulkUpdateOne | deleteOne | deleteNext =>
    exact ⟨s.write w, ⟨w, h, rfl⟩, rfl⟩

end Calls

variable {α : Type} {p q : Enclave β α} {x : Except Stop α}

section Runs

theorem exists_evals_replicated {w : World β} (hview : ∀ s, s.now ∈ view s)
    (h : p.Evals (Honest count) s.now x w) :
    ∃ t, p.Evals (Replicated count view) s x t ∧ t.now = w := by
  have hcall : ∀ (c : Call β) w r w' (s : Replica β), Honest count c w r w' → s.now = w →
      ∃ t, Replicated count view c s r t ∧ t.now = w' := by
    rintro c _ r w s hr rfl
    exact replicated_of_honest hview hr
  exact Prog.Steps.simulate hcall h rfl

theorem evals_honest_of_current (h : p.Evals (Replicated count Replica.current) s x t) :
    p.Evals (Honest count) s.now x t.now := by
  have hcall : ∀ (c : Call β) s r s' w, Replicated count Replica.current c s r s' →
      Replica.now s = w → ∃ w', Honest count c w r w' ∧ s'.now = w' := by
    rintro c s r s' _ hr rfl
    exact ⟨_, hr.honest (.inr rfl), rfl⟩
  obtain ⟨_, hs, rfl⟩ := Prog.Steps.simulate hcall h rfl
  exact hs

theorem steps_honest_of_primary {Q : Except Stop α → Log β → Prop} {log : Log β}
    (hp : Records (fun _ => True) (fun _ x => x.call.Primary) Q p log)
    (h : p.Steps (Replicated count view) s q t) : p.Steps (Honest count) s.now q t.now := by
  induction h generalizing log with
  | refl p s => exact .refl p s.now
  | head hstep _ ih =>
    cases hstep with
    | call hcall =>
      obtain ⟨hprimary, hk⟩ := records_call_iff.mp hp _ trivial
      exact .head (.call (hcall.honest (.inl hprimary))) (ih hk)
    | unroll => exact .head .unroll (ih (safe_loop_iff.mp hp))

/-- What an operation keeps among others, whatever they do to a store with the invariant, it keeps
on a replica set: a read from an old state is one between two moves of others. -/
theorem steps_keep {K : Contract (World β)} {Inv : World β → Prop} {J : Replica β → Prop}
    {Q : Except Stop α → World β → Prop} (hview : ∀ s, ∀ w ∈ view s, w ∈ s.states)
    (hrely : ∀ w w', Inv w → Inv w' → K.rely w w') (hguar : ∀ w w', K.guar w w' → Inv w → Inv w')
    (hJ : ∀ s w, J s → Inv s.now → K.guar s.now w → J (s.write w))
    (h : Safe (Honest count) K Q p s.now) (hs : p.Steps (Replicated count view) s q t)
    (hI : ∀ w ∈ s.states, Inv w) (hJs : J s) : (∀ w ∈ t.states, Inv w) ∧ J t := by
  induction hs with
  | refl p s => exact ⟨hI, hJs⟩
  | @head p p' q s s' t c hstep _ ih =>
    cases hstep with
    | unroll => exact ih (safe_loop_iff.mp h) hI hJs
    | call hcall =>
      have hnow : Inv s.now := hI _ Replica.now_mem_states
      rcases hcall.cases with ⟨rfl, w, hw, hr⟩ | ⟨w, hr, rfl⟩
      · have hw : Inv w := by
          rcases List.mem_cons.mp hw with rfl | hw
          · exact hnow
          · exact hI w (hview _ w hw)
        obtain ⟨-, hk⟩ := safe_call_iff.mp h w (hrely _ _ hnow hw) _ _ hr
        exact ih (hk.stable (hrely _ _ hw hnow)) hI hJs
      · obtain ⟨hg, hk⟩ := safe_call_iff.mp h _ (K.rely_refl _) _ _ hr
        refine ih hk (fun w' hw' => ?_) (hJ _ _ hJs hnow hg)
        rw [Replica.states_write] at hw'
        rcases List.mem_append.mp hw' with hw' | hw'
        · exact hI w' hw'
        · rw [List.mem_singleton.mp hw']
          exact hguar _ _ hg hnow

theorem states_subset (h : p.Steps (Replicated count view) s q t) :
    ∀ w ∈ s.states, w ∈ t.states := by
  induction h with
  | refl => exact fun _ hw => hw
  | head hstep _ ih =>
    cases hstep with
    | unroll => exact ih
    | call hcall =>
      rcases hcall.cases with ⟨rfl, -⟩ | ⟨w', -, rfl⟩
      · exact ih
      · exact fun w hw => ih w (List.mem_append_left _ hw)

end Runs

end MongoSgx
