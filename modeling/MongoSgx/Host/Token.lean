import MongoSgx.Host.Launch
import MongoSgx.Interaction.Restart

/-! # The launch token across starts

Starts of the application follow each other; each may be cut off anywhere, and reads
and writes may be short. The token that the SDK is given is still never a mixture:
it is all zeros, or the whole contents of the token file and a token that the SDK
has issued.
-/

namespace MongoSgx.Host

open Interaction

/-- The files that paths to the token may name, the stream, and the tokens the SDK has issued. -/
structure Machine (F : Type) where
  files : F → Option (List UInt8)
  stream : Option F
  issued : Set (List UInt8)

variable {F : Type} {z : Sizes} {m m' : Machine F} {f : F} {path : List Char}
  {contents bytes token : List UInt8} {fp : Bool}

namespace Machine

/-- A process that ends takes its stream with it. -/
def restart (m : Machine F) : Machine F := { m with stream := none }

def issue (m : Machine F) (token : List UInt8) : Machine F :=
  { m with issued := insert token m.issued }

/-- What is in a file is the front part of a token that the SDK has issued. -/
structure Sound (z : Sizes) (m : Machine F) : Prop where
  files : ∀ f c, m.files f = some c → c = [] ∨ ∃ t ∈ m.issued, c <+: t
  issued : ∀ t ∈ m.issued, t.length = z.launchToken

/-- The token is all zeros, or the contents of the open file and issued by the SDK. -/
def Grants (z : Sizes) (m : Machine F) (token : List UInt8) : Prop :=
  token = z.zeroToken ∨ ∃ f, m.stream = some f ∧ m.files f = some token ∧ token ∈ m.issued

def Ready (m : Machine F) (fp : Bool) : Prop :=
  fp = true → ∃ f c, m.stream = some f ∧ m.files f = some c

theorem not_ready : m.Ready false := by
  intro h
  cases h

theorem Sound.restart (h : m.Sound z) : m.restart.Sound z := ⟨h.files, h.issued⟩

theorem Sound.issue (h : m.Sound z) (htoken : token.length = z.launchToken) :
    (m.issue token).Sound z where
  files g c hg := by
    rcases h.files g c hg with hc | ⟨t, ht, hc⟩
    · exact .inl hc
    · exact .inr ⟨t, .inr ht, hc⟩
  issued t ht := by
    rcases ht with rfl | ht
    · exact htoken
    · exact h.issued t ht

theorem Sound.read (h : m.Sound z) (hfile : m.files f = some contents) (hbytes : bytes <+: contents)
    (hne : bytes ≠ []) (hlength : bytes.length = z.launchToken) :
    m.files f = some bytes ∧ bytes ∈ m.issued := by
  rcases h.files f contents hfile with rfl | ⟨t, ht, hct⟩
  · exact absurd (List.prefix_nil.mp hbytes) hne
  · have hbt : bytes = t := by
      apply (hbytes.trans hct).eq_of_length
      rw [hlength, h.issued t ht]
    subst hbt
    have hcontents : contents = bytes := hct.eq_of_length_le hbytes.length_le
    exact ⟨hcontents ▸ hfile, ht⟩

variable [DecidableEq F]

def openOn (m : Machine F) (f : F) (contents : List UInt8) : Machine F :=
  { m with files := Function.update m.files f (some contents), stream := some f }

theorem openOn_files : (m.openOn f contents).files f = some contents := Function.update_self ..

theorem ready_openOn : (m.openOn f contents).Ready fp := fun _ => ⟨f, contents, rfl, openOn_files⟩

theorem Sound.openOn (h : m.Sound z) (hc : contents = [] ∨ ∃ t ∈ m.issued, contents <+: t) :
    (m.openOn f contents).Sound z where
  files g c hg := by
    by_cases hgf : g = f
    · subst hgf
      have hcontents : some contents = some c := openOn_files.symm.trans hg
      obtain rfl := Option.some.inj hcontents
      exact hc
    · have hfile : m.files g = some c := (Function.update_of_ne hgf ..).symm.trans hg
      exact h.files g c hfile
  issued := h.issued

end Machine

/-- What the SDK is given. -/
def Permits (z : Sizes) : LaunchCall → Machine F → Prop
  | .createEnclaveEx _ token, m => m.Grants z token
  | _, _ => True

variable [DecidableEq F]

/-- The answers of the system. Opening fails or finds some file, reading stops anywhere, and of
what is written some front part arrives. -/
def Hosting (z : Sizes) : Env LaunchCall LaunchReply (Machine F)
  | .fopen _ .rb, m, r, m' => (r = true ∧ ∃ f c, m.files f = some c ∧ m' = m.openOn f c) ∨
      (r = false ∧ m' = m)
  | .fopen _ .wb, m, r, m' => (r = true ∧ ∃ f, m' = m.openOn f []) ∨ (r = false ∧ m' = m)
  | .freopen _, m, r, m' => (r = true ∧ ∃ f, m' = m.openOn f []) ∨
      (r = false ∧ m' = m.restart)
  | .fread count, m, r, m' => m' = m ∧
      ∀ f c, m.stream = some f → m.files f = some c → r.length ≤ count ∧ r <+: c
  | .fwrite bytes, m, _, m' => ∀ f, m.stream = some f →
      ∃ c, c <+: bytes ∧ m' = m.openOn f c
  | .fclose, m, _, m' => m' = m.restart
  | .createEnclaveEx _ _, m, r, m' => r.token.length = z.launchToken ∧
      m' = if r.status = sgxSuccess ∧ r.updated ≠ 0 then m.issue r.token else m
  | .homeDir, m, r, m' => (∀ dir, r = some dir → nul ∉ dir) ∧ m' = m
  | .chdir, m, _, m' | .ecallMongoclientSample, m, _, m' | .destroyEnclave, m, _, m'
  | .printf _ _, m, _, m' | .printErrorMessage _, m, _, m' => m' = m

section Programs

/-- The program keeps the files sound, and gives the SDK what it may. -/
abbrev Guards {α : Type} (Q : Except Halt α → Machine F → Prop) (z : Sizes) (p : Launch α)
    (m : Machine F) : Prop := Asks (Hosting z) (Machine.Sound z) (Permits z) Q p m

theorem drop_zeroToken (h : bytes.length = z.launchToken) : z.zeroToken.drop bytes.length = [] := by
  rw [h, List.drop_eq_nil_iff]
  exact (List.length_replicate ..).le

theorem evals_readToken (hstream : m.stream = some f) (hfile : m.files f = some token)
    (hlength : token.length = z.launchToken) :
    (readToken z path true).Evals (Hosting z) m (.ok token) m := by
  have hwhole : ¬(token.length ≠ 0 ∧ token.length ≠ z.launchToken) := fun h => h.2 hlength
  have hreply : Hosting z (.fread z.launchToken) m token m := by
    refine ⟨rfl, fun g c hg hc => ?_⟩
    obtain rfl := Option.some.inj (hstream.symm.trans hg)
    obtain rfl := Option.some.inj (hfile.symm.trans hc)
    exact ⟨hlength.le, List.prefix_rfl⟩
  simp only [readToken, launch, Prog.bind_eq, Prog.request_bind, Prog.pure_eq, ↓reduceIte]
  rw [Prog.evals_call_iff]
  refine ⟨token, m, hreply, ?_⟩
  rw [if_neg hwhole, drop_zeroToken hlength, List.append_nil]
  exact .refl _ _

theorem guards_openToken (hm : m.Sound z) :
    Guards (fun r m' => m'.Sound z ∧ ∃ fp, r = .ok fp ∧ m'.Ready fp) z (openToken path) m := by
  simp only [openToken, launch, Prog.bind_eq, Prog.request_bind, Prog.pure_eq]
  refine .call hm trivial ?_
  rintro _ _ (⟨rfl, f, c, hc, rfl⟩ | ⟨rfl, rfl⟩)
  · have hopen : (m.openOn f c).Sound z := hm.openOn (hm.files f c hc)
    exact .pure hopen ⟨hopen, true, rfl, Machine.ready_openOn⟩
  simp only [Bool.false_eq_true, ↓reduceIte]
  refine .call hm trivial ?_
  rintro _ _ (⟨rfl, f, rfl⟩ | ⟨rfl, rfl⟩)
  · have hopen := hm.openOn (f := f) (.inl rfl)
    exact .pure hopen ⟨hopen, true, rfl, Machine.ready_openOn⟩
  · refine .call hm trivial ?_
    rintro _ _ rfl
    exact .pure hm ⟨hm, false, rfl, Machine.not_ready⟩

theorem guards_readToken (hm : m.Sound z) (hready : m.Ready fp) :
    Guards (fun r m' => m' = m ∧ ∃ token, r = .ok token ∧ m.Grants z token) z
      (readToken z path fp) m := by
  cases fp with
  | false => exact .pure hm ⟨rfl, z.zeroToken, rfl, .inl rfl⟩
  | true =>
    obtain ⟨f, c, hstream, hfile⟩ := hready rfl
    simp only [readToken, launch, Prog.bind_eq, Prog.request_bind, Prog.pure_eq, ↓reduceIte]
    refine .call hm trivial ?_
    rintro bytes _ ⟨rfl, hbytes⟩
    obtain ⟨-, hprefix⟩ := hbytes f c hstream hfile
    by_cases hwhole : bytes.length ≠ 0 ∧ bytes.length ≠ z.launchToken
    · rw [if_pos hwhole]
      refine .call hm trivial ?_
      rintro _ _ rfl
      exact .pure hm ⟨rfl, z.zeroToken, rfl, .inl rfl⟩
    · rw [if_neg hwhole]
      refine .pure hm ⟨rfl, _, rfl, ?_⟩
      by_cases hne : bytes = []
      · subst hne
        exact .inl rfl
      · have hlength : bytes.length = z.launchToken := by
          by_contra hlength
          exact hwhole ⟨by rwa [ne_eq, List.length_eq_zero_iff], hlength⟩
        rw [drop_zeroToken hlength, List.append_nil]
        exact .inr ⟨f, hstream, hm.read hfile hprefix hne hlength⟩

theorem guards_closeStream (hm : m.Sound z) :
    Guards (fun r m' => m'.Sound z ∧ r = .ok ()) z (closeStream fp) m := by
  cases fp with
  | false => exact .pure hm ⟨hm, rfl⟩
  | true =>
    refine .call hm trivial ?_
    rintro _ _ rfl
    exact .pure hm.restart ⟨hm.restart, rfl⟩

theorem guards_saveToken (hm : m.Sound z) (htoken : token ∈ m.issued) :
    Guards (fun r m' => m'.Sound z ∧ r = .ok 0) z (saveToken z path token) m := by
  simp only [saveToken, launch, Prog.bind_eq, Prog.request_bind, Prog.pure_eq]
  refine .call hm trivial ?_
  rintro _ _ (⟨rfl, f, rfl⟩ | ⟨rfl, rfl⟩)
  · simp only [↓reduceIte]
    refine .call (hm.openOn (.inl rfl)) trivial ?_
    intro writeNum _ hwrite
    obtain ⟨c, hc, rfl⟩ := hwrite f rfl
    -- what has arrived so far is the front part of a token that is issued
    have hsaved : ((m.openOn f []).openOn f c).Sound z :=
      Machine.Sound.openOn (hm.openOn (.inl rfl)) (.inr ⟨token, htoken, hc⟩)
    split
    · refine .call hsaved trivial ?_
      rintro _ _ rfl
      refine .call hsaved trivial ?_
      rintro _ _ rfl
      exact .pure hsaved.restart ⟨hsaved.restart, rfl⟩
    · refine .call hsaved trivial ?_
      rintro _ _ rfl
      exact .pure hsaved.restart ⟨hsaved.restart, rfl⟩
  · exact .pure hm.restart ⟨hm.restart, rfl⟩

theorem guards_initializeEnclave (hm : m.Sound z) :
    Guards (fun r m' => m'.Sound z ∧ ∃ n, r = .ok n) z (initializeEnclave z) m := by
  simp only [initializeEnclave, launch, Prog.bind_eq, Prog.request_bind, Prog.pure_eq]
  refine .call hm trivial ?_
  rintro homeDir _ ⟨hhome, rfl⟩
  obtain ⟨array, harray, -⟩ := exists_tokenPath (z := z) hhome
  rw [harray]
  simp only [defined, Prog.pure_bind]
  apply Asks.bind
  apply (guards_openToken hm).mono
  rintro _ m ⟨hm, fp, rfl, hready⟩
  refine .call hm trivial ?_
  rintro _ m rfl
  apply Asks.bind
  apply (guards_readToken hm hready).mono
  rintro _ m ⟨rfl, token, rfl, hgrants⟩
  refine .call hm hgrants ?_
  rintro created _ ⟨hlength, rfl⟩
  by_cases hstatus : created.status = sgxSuccess
  · rw [if_neg (not_not.mpr hstatus)]
    by_cases hidle : created.updated = 0 ∨ fp = false
    · rw [if_pos hidle]
      have hm' : Machine.Sound z (if created.status = sgxSuccess ∧ created.updated ≠ 0 then
          m.issue created.token else m) := by
        split
        · exact hm.issue hlength
        · exact hm
      apply Asks.bind
      apply (guards_closeStream hm').mono
      rintro _ _ ⟨hm, rfl⟩
      exact .pure hm ⟨hm, 0, rfl⟩
    · obtain ⟨hupdated, -⟩ := not_or.mp hidle
      rw [if_neg hidle, if_pos ⟨hstatus, hupdated⟩]
      apply (guards_saveToken (hm.issue hlength) (.inl rfl)).mono
      rintro _ _ ⟨hm, rfl⟩
      exact ⟨hm, 0, rfl⟩
  · rw [if_pos hstatus, if_neg fun h => hstatus h.1]
    refine .call hm trivial ?_
    rintro _ _ rfl
    apply Asks.bind
    apply (guards_closeStream hm).mono
    rintro _ _ ⟨hm, rfl⟩
    exact .pure hm ⟨hm, -1, rfl⟩

theorem guards_main (hm : m.Sound z) : Guards (fun _ m' => m'.Sound z) z (main z) m := by
  simp only [main, launch, Prog.bind_eq, Prog.request_bind, Prog.pure_eq]
  refine .call hm trivial ?_
  rintro (_ | _) _ rfl
  · exact .throw hm hm
  simp only [↓reduceIte]
  apply Asks.bind
  apply (guards_initializeEnclave hm).mono
  rintro _ m ⟨hm, n, rfl⟩
  simp only [thenAsks]
  split
  · exact .pure hm hm
  refine .call hm trivial ?_
  rintro ⟨ret, ecallReturn⟩ _ rfl
  split
  · exact .throw hm hm
  split
  · refine .call hm trivial ?_
    rintro _ _ rfl
    refine .call hm trivial ?_
    rintro _ _ rfl
    exact .pure hm hm
  · refine .call hm trivial ?_
    rintro _ _ rfl
    refine .call hm trivial ?_
    rintro _ _ rfl
    exact .pure hm hm

theorem sound_restarted (hm : m.Sound z)
    (h : Restarted (Hosting z) (main z) Machine.restart m m') : m'.Sound z :=
  h.invariant (fun _ hm => guards_main hm) (fun _ hm => hm.restart) hm

/-- After any number of starts, each cut off anywhere, the token that the next start gives to the
SDK is all zeros, or it is the whole contents of the open file and the SDK has issued it. -/
theorem restarted_token {q : Launch ℤ} {u : Machine F} (hm : m.Sound z)
    (h : Restarted (Hosting z) (main z) Machine.restart m m')
    (hs : (main z).Steps (Hosting z) m' q u) :
    u.Sound z ∧ ∀ name token k, q = .call (.createEnclaveEx name token) k → u.Grants z token := by
  have hguards := guards_main (sound_restarted hm h)
  refine ⟨hguards.kept q u hs, ?_⟩
  rintro name token k rfl
  exact hguards.asked _ k u hs

theorem exists_steps {ι : Type*} {g : ι → Launch ℤ} {c : LaunchCall} {k : LaunchReply c → Launch ℤ}
    {u : Machine F} (r : LaunchReply c) (hr : Hosting z c m r m')
    (h : ∃ i, (k r).Steps (Hosting z) m' (g i) u) :
    ∃ i, (Prog.call c k).Steps (Hosting z) m (g i) u := by
  obtain ⟨i, h⟩ := h
  exact ⟨i, .head (.call hr) h⟩

def Machine.fresh : Machine Unit := ⟨fun _ => none, none, ∅⟩

theorem Machine.sound_fresh : Machine.fresh.Sound z := by
  constructor
  · intro f c hc
    cases hc
  · intro t ht
    cases ht

theorem none_nul : ∀ dir, (none : Option (List Char)) = some dir → nul ∉ dir := by
  intro dir h
  cases h

/-- The first start, until a front part of its token has arrived in the file. -/
theorem exists_firstStart (htoken : token.length = z.launchToken) (hc : contents <+: token) :
    ∃ q, (main z).Steps (Hosting z) Machine.fresh q
      ((((Machine.fresh.openOn () []).issue token).openOn () []).openOn () contents) := by
  obtain ⟨array, harray, -⟩ := exists_tokenPath (z := z) none_nul
  have hwrite : Hosting z (.fwrite token) (((Machine.fresh.openOn () []).issue token).openOn () [])
      0 ((((Machine.fresh.openOn () []).issue token).openOn () []).openOn () contents) :=
    fun _ _ => ⟨contents, hc, rfl⟩
  simp only [main, initializeEnclave, launch, Prog.bind_eq, Prog.request_bind]
  refine exists_steps true rfl ?_
  refine exists_steps none ⟨none_nul, rfl⟩ ?_
  beta_reduce
  rw [harray]
  refine exists_steps false (.inr ⟨rfl, rfl⟩) ?_
  refine exists_steps true (.inl ⟨rfl, (), rfl⟩) ?_
  refine exists_steps () rfl ?_
  refine exists_steps [] ⟨rfl, fun _ _ _ _ => ⟨Nat.zero_le _, List.nil_prefix⟩⟩ ?_
  refine exists_steps ⟨sgxSuccess, 1, token⟩ ⟨htoken, (if_pos ⟨rfl, one_ne_zero⟩).symm⟩ ?_
  refine exists_steps true (.inl ⟨rfl, (), rfl⟩) ?_
  refine exists_steps 0 hwrite ?_
  exact ⟨_, .refl _ _⟩

/-- The first start is killed before it closes the file; the second one reads what was saved. -/
theorem restarted_token_sample : ∃ m k u,
    Restarted (Hosting .linux) (main .linux) Machine.restart Machine.fresh m ∧
    (main .linux).Steps (Hosting .linux) m
      (.call (.createEnclaveEx "mongoclient.signed.so" (.replicate 1024 1)) k) u ∧
    u.Grants .linux (.replicate 1024 1) := by
  obtain ⟨array, harray, -⟩ := exists_tokenPath (z := .linux) none_nul
  generalize htoken : List.replicate 1024 (1 : UInt8) = token
  have hlength : token.length = Sizes.linux.launchToken := by
    rw [← htoken, List.length_replicate]
    rfl
  let m := (((Machine.fresh.openOn () []).issue token).openOn () []).openOn () token
  have hsaved : m.files () = some token := Machine.openOn_files
  obtain ⟨q, hfirst⟩ : ∃ q, (main .linux).Steps (Hosting .linux) Machine.fresh q m :=
    exists_firstStart hlength List.prefix_rfl
  obtain ⟨k, hsecond⟩ : ∃ k, (main .linux).Steps (Hosting .linux) m.restart
      (.call (.createEnclaveEx "mongoclient.signed.so" token) k) (m.restart.openOn () token) := by
    simp only [main, initializeEnclave, launch, Prog.bind_eq, Prog.request_bind]
    refine exists_steps true rfl ?_
    refine exists_steps none ⟨none_nul, rfl⟩ ?_
    beta_reduce
    rw [harray]
    refine exists_steps true (.inl ⟨rfl, (), token, hsaved, rfl⟩) ?_
    refine exists_steps () rfl ?_
    exact ⟨_, ((evals_readToken rfl Machine.openOn_files hlength).steps_bind _).bind _⟩
  have hrestarted : Restarted (Hosting .linux) (main .linux) Machine.restart Machine.fresh
      m.restart := .snoc (.nil _) hfirst
  exact ⟨_, k, _, hrestarted, hsecond,
    (restarted_token Machine.sound_fresh hrestarted hsecond).2 _ token k rfl⟩

end Programs

end MongoSgx.Host
