import MongoSgx.Host.Token
import MongoSgx.Interaction.Total

/-! # A start that nothing disturbs

A start may be killed while it saves the token, and leave a front part of it behind.
The next start with a working file system and a working SDK ends with a token in the
file that the SDK has issued, and with the file closed.
-/

namespace MongoSgx.Host

open Interaction

variable {F : Type} [DecidableEq F] {z : Sizes} {m m' : Machine F} {f : F} {path : List Char}
  {token : List UInt8} {fp : Bool}

/-- The answers when nothing goes wrong: the path names one file, which is read and written in
full, the enclave can be created, and where the SDK is given zeros it issues a token. -/
def Calm (z : Sizes) (f : F) : Env LaunchCall LaunchReply (Machine F)
  | .homeDir, m, r, m' => (∀ dir, r = some dir → nul ∉ dir) ∧ m' = m
  | .fopen _ .rb, m, r, m' => (r = true ∧ ∃ c, m.files f = some c ∧ m' = m.openOn f c) ∨
      (r = false ∧ m.files f = none ∧ m' = m)
  | .fopen _ .wb, m, r, m' => r = true ∧ m' = m.openOn f []
  | .freopen _, m, r, m' => r = true ∧ m' = m.openOn f []
  | .fread count, m, r, m' => m' = m ∧
      ∀ g c, m.stream = some g → m.files g = some c → r = c.take count
  | .fwrite bytes, m, r, m' => r = bytes.length ∧ ∀ g, m.stream = some g → m' = m.openOn g bytes
  | .fclose, m, _, m' => m' = m.restart
  | .createEnclaveEx _ token, m, r, m' => r.status = sgxSuccess ∧
      r.token.length = z.launchToken ∧ (token = z.zeroToken → r.updated ≠ 0) ∧
      m' = if r.updated ≠ 0 then m.issue r.token else m
  | .chdir, m, r, m' => r = true ∧ m' = m
  | .ecallMongoclientSample, m, r, m' => r.1 = sgxSuccess ∧ m' = m
  | .destroyEnclave, m, _, m' | .printf _ _, m, _, m' | .printErrorMessage _, m, _, m' => m' = m

def Machine.Saved (f : F) (m : Machine F) : Prop :=
  m.stream = none ∧ ∃ token, m.files f = some token ∧ token ∈ m.issued

theorem calm_total : (Calm z f).Total := by
  rintro (_ | ⟨path, _ | _⟩ | count | path | bytes | _ | ⟨name, token⟩ | _ | _ | _ | _ | _) m
  · exact ⟨none, m, none_nul, rfl⟩
  · cases hfile : m.files f with
    | none => exact ⟨false, m, .inr ⟨rfl, hfile, rfl⟩⟩
    | some c => exact ⟨true, _, .inl ⟨rfl, c, hfile, rfl⟩⟩
  · exact ⟨true, _, rfl, rfl⟩
  · cases hstream : m.stream with
    | none =>
      refine ⟨[], m, rfl, fun g c hg => ?_⟩
      rw [hstream] at hg
      cases hg
    | some g =>
      refine ⟨((m.files g).getD []).take count, m, rfl, fun g' c hg hc => ?_⟩
      obtain rfl := Option.some.inj (hstream.symm.trans hg)
      rw [hc, Option.getD_some]
  · exact ⟨true, _, rfl, rfl⟩
  · cases hstream : m.stream with
    | none =>
      refine ⟨bytes.length, m, rfl, fun g hg => ?_⟩
      rw [hstream] at hg
      cases hg
    | some g =>
      refine ⟨bytes.length, m.openOn g bytes, rfl, fun g' hg => ?_⟩
      obtain rfl := Option.some.inj (hstream.symm.trans hg)
      rfl
  · exact ⟨(), _, rfl⟩
  · exact ⟨⟨sgxSuccess, 1, z.zeroToken⟩, _, rfl, List.length_replicate .., fun _ => one_ne_zero,
      rfl⟩
  · exact ⟨true, m, rfl, rfl⟩
  · exact ⟨(sgxSuccess, 0), m, rfl, rfl⟩
  · exact ⟨(), m, rfl⟩
  · exact ⟨(), m, rfl⟩
  · exact ⟨(), m, rfl⟩

theorem Calm.hosting {c : LaunchCall} {r : LaunchReply c} (h : Calm z f c m r m') :
    Hosting z c m r m' := by
  cases c with
  | fopen path mode =>
    cases mode with
    | rb =>
      rcases h with ⟨hr, c, hfile, hm⟩ | ⟨hr, -, hm⟩
      · exact .inl ⟨hr, f, c, hfile, hm⟩
      · exact .inr ⟨hr, hm⟩
    | wb => exact .inl ⟨h.1, f, h.2⟩
  | freopen path => exact .inl ⟨h.1, f, h.2⟩
  | fread count =>
    refine ⟨h.1, fun g c hg hc => ?_⟩
    rw [h.2 g c hg hc]
    exact ⟨List.length_take_le .., List.take_prefix ..⟩
  | fwrite bytes => exact fun g hg => ⟨bytes, List.prefix_rfl, h.2 g hg⟩
  | createEnclaveEx name token =>
    obtain ⟨hstatus, hlength, -, rfl⟩ := h
    refine ⟨hlength, ?_⟩
    simp only [hstatus, true_and]
  | chdir => exact h.2
  | ecallMongoclientSample => exact h.2
  | homeDir => exact h
  | fclose => exact h
  | destroyEnclave => exact h
  | printf format arg => exact h
  | printErrorMessage ret => exact h

/-- What is asked of a program under all circumstances is what it does here. -/
theorem wp_of_guards {α : Type} {Q : Except Halt α → Machine F → Prop} {p : Launch α}
    (hguards : Guards Q z p m) (h : Wp (Calm z f) (fun _ _ => True) p m) :
    Wp (Calm z f) Q p m := by
  apply (h.and_evals fun r t hr => ?_).mono fun _ _ h => h.2
  obtain ⟨_, ht, rfl⟩ := Prog.Steps.simulate (fun c s r t s' hc hs =>
    ⟨t, hs ▸ hc.hosting, rfl⟩) hr rfl
  exact hguards.ended r t ht

theorem wp_openToken (hm : m.Sound z) :
    Wp (Calm z f) (fun r m' => r = .ok true ∧ m'.Sound z ∧ ∃ c, m' = m.openOn f c)
      (openToken path) m := by
  simp only [openToken, launch, Prog.bind_eq, Prog.request_bind, Prog.pure_eq]
  apply Wp.call
  rintro _ _ (⟨rfl, c, hc, rfl⟩ | ⟨rfl, -, rfl⟩)
  · exact .pure ⟨rfl, hm.openOn (hm.files f c hc), c, rfl⟩
  simp only [Bool.false_eq_true, ↓reduceIte]
  apply Wp.call
  rintro _ _ ⟨rfl, rfl⟩
  exact .pure ⟨rfl, hm.openOn (.inl rfl), [], rfl⟩

theorem wp_readToken (hm : m.Sound z) (hready : m.Ready fp) :
    Wp (Calm z f) (fun r m' => m' = m ∧ ∃ token, r = .ok token ∧ m.Grants z token)
      (readToken z path fp) m := by
  apply wp_of_guards (guards_readToken hm hready)
  cases fp with
  | false => exact .pure trivial
  | true =>
    simp only [readToken, launch, Prog.bind_eq, Prog.request_bind, Prog.pure_eq, ↓reduceIte]
    apply Wp.call
    intro bytes _ _
    split
    · exact .call fun _ _ _ => .pure trivial
    · exact .pure trivial

theorem wp_saveToken (htoken : token ∈ m.issued) :
    Wp (Calm z f) (fun r m' => r = .ok 0 ∧ m'.Saved f) (saveToken z path token) m := by
  have hsaved : ((m.openOn f []).openOn f token).restart.Saved f :=
    ⟨rfl, token, Machine.openOn_files, htoken⟩
  simp only [saveToken, launch, Prog.bind_eq, Prog.request_bind, Prog.pure_eq]
  apply Wp.call
  rintro _ _ ⟨rfl, rfl⟩
  simp only [↓reduceIte]
  apply Wp.call
  rintro _ _ ⟨rfl, hwrite⟩
  obtain rfl := hwrite f rfl
  split
  · apply Wp.call
    rintro _ _ rfl
    apply Wp.call
    rintro _ _ rfl
    exact .pure ⟨rfl, hsaved⟩
  · apply Wp.call
    rintro _ _ rfl
    exact .pure ⟨rfl, hsaved⟩

theorem wp_initializeEnclave (hm : m.Sound z) :
    Wp (Calm z f) (fun r m' => r = .ok 0 ∧ m'.Saved f) (initializeEnclave z) m := by
  simp only [initializeEnclave, launch, Prog.bind_eq, Prog.request_bind, Prog.pure_eq]
  apply Wp.call
  rintro homeDir _ ⟨hhome, rfl⟩
  obtain ⟨array, harray, -⟩ := exists_tokenPath (z := z) hhome
  rw [harray]
  simp only [defined, Prog.pure_bind]
  apply Wp.bind
  apply (wp_openToken hm).mono
  rintro _ _ ⟨rfl, hm, c, rfl⟩
  apply Wp.call
  rintro _ _ rfl
  apply Wp.bind
  apply (wp_readToken hm Machine.ready_openOn).mono
  rintro _ _ ⟨rfl, token, rfl, hgrants⟩
  apply Wp.call
  rintro created _ ⟨hstatus, -, hzero, rfl⟩
  rw [if_neg (not_not.mpr hstatus)]
  by_cases hupdated : created.updated = 0
  · rw [if_pos (.inl hupdated), if_neg (not_not.mpr hupdated)]
    rcases hgrants with rfl | ⟨g, hstream, hfile, hissued⟩
    · exact absurd hupdated (hzero rfl)
    · obtain rfl := Option.some.inj hstream
      apply Wp.call
      rintro _ _ rfl
      exact .pure ⟨rfl, rfl, token, hfile, hissued⟩
  · rw [if_neg (not_or.mpr ⟨hupdated, Bool.noConfusion⟩), if_pos hupdated]
    exact wp_saveToken (.inl rfl)

theorem wp_main (hm : m.Sound z) :
    Wp (Calm z f) (fun r m' => (∃ v, r = .ok v) ∧ m'.Saved f) (main z) m := by
  simp only [main, launch, Prog.bind_eq, Prog.request_bind, Prog.pure_eq]
  apply Wp.call
  rintro _ _ ⟨rfl, rfl⟩
  simp only [↓reduceIte]
  apply Wp.bind
  apply (wp_initializeEnclave hm).mono
  rintro _ m ⟨rfl, hsaved⟩
  apply Wp.call
  rintro ⟨ret, ecallReturn⟩ _ ⟨hret, rfl⟩
  rw [if_neg (not_not.mpr hret)]
  split
  · apply Wp.call
    rintro _ _ rfl
    apply Wp.call
    rintro _ _ rfl
    exact .pure ⟨⟨_, rfl⟩, hsaved⟩
  · apply Wp.call
    rintro _ _ rfl
    apply Wp.call
    rintro _ _ rfl
    exact .pure ⟨⟨_, rfl⟩, hsaved⟩

/-- Whatever earlier starts have left of the file when they were cut off, a start that nothing
disturbs returns, and leaves a whole token there that the SDK has issued. -/
theorem repaired_token (hm : m.Sound z)
    (h : Restarted (Hosting z) (main z) Machine.restart m m') :
    Wp (Calm z f) (fun r u => (∃ v, r = .ok v) ∧ u.Saved f) (main z) m' :=
  wp_main (sound_restarted hm h)

/-- The first start is killed when one byte of its token has arrived. -/
theorem repaired_token_sample : ∃ m r u,
    Restarted (Hosting .linux) (main .linux) Machine.restart Machine.fresh m ∧
    m.files () = some [1] ∧ (main .linux).Evals (Calm .linux ()) m r u ∧ u.Saved () := by
  have hlength : (List.replicate 1024 (1 : UInt8)).length = Sizes.linux.launchToken :=
    List.length_replicate ..
  have hprefix : [1] <+: List.replicate 1024 (1 : UInt8) := ⟨.replicate 1023 1, rfl⟩
  obtain ⟨q, hfirst⟩ := exists_firstStart hlength hprefix
  let m := ((Machine.fresh.openOn () []).issue (.replicate 1024 1)).openOn () []
  have hfile : (m.openOn () [1]).files () = some [1] := Machine.openOn_files
  have hrestarted : Restarted (Hosting .linux) (main .linux) Machine.restart Machine.fresh
      (m.openOn () [1]).restart := .snoc (.nil _) hfirst
  obtain ⟨r, u, hr, -, hsaved⟩ :=
    (repaired_token (f := ()) Machine.sound_fresh hrestarted).exists_evals calm_total
  exact ⟨_, r, u, hrestarted, hfile, hr, hsaved⟩

end MongoSgx.Host
