import MongoSgx.Host.Sockets
import MongoSgx.Inet.Printing
import MongoSgx.Ledger.Programs

/-! # The application outside the enclave

`main` creates the enclave, runs the sample in it and destroys it. The SDK is given
the launch token of an earlier start, which is kept in a file below the home
directory; a token that the SDK has updated is saved there.
-/

namespace MongoSgx.Host

open Interaction Ledger

/-- The sizes that come with the platform; the name of the token file has room in a path. -/
structure Sizes where
  maxPath : ℕ
  launchToken : ℕ
  roomy : 14 ≤ maxPath

/-- `FILENAME_MAX` and `sizeof(sgx_launch_token_t)`. -/
def Sizes.linux : Sizes := ⟨4096, 1024, by decide⟩

def Sizes.zeroToken (z : Sizes) : List UInt8 := .replicate z.launchToken 0

def tokenFilename : List Char :=
  ['e', 'n', 'c', 'l', 'a', 'v', 'e', '.', 't', 'o', 'k', 'e', 'n']

section Path

/-- At most `n` characters are appended, and a terminator. -/
def strncat (array chars : List Char) (n : ℕ) : Except Undefined (List Char) := do
  let len ← strlen array
  let tail ← storeChars (array.drop len) ((chars.take n).takeWhile (· ≠ nul) ++ [nul])
  return array.take len ++ tail

def composeTokenPath (z : Sizes) (homeDir : Option (List Char)) : Except Undefined (List Char) :=
  let tokenPath := List.replicate z.maxPath nul
  let sizeofFilename := tokenFilename.length + 1
  match homeDir with
  | some dir =>
    if dir.length + 1 + sizeofFilename + 1 ≤ z.maxPath then do
      let tokenPath ← storeChars tokenPath (strncpy (dir ++ [nul]) dir.length)
      let tokenPath ← strncat tokenPath ['/', nul] 1
      strncat tokenPath (tokenFilename ++ [nul]) (sizeofFilename + 1)
    else storeChars tokenPath (strncpy (tokenFilename ++ [nul]) sizeofFilename)
  | none => storeChars tokenPath (strncpy (tokenFilename ++ [nul]) sizeofFilename)

def tokenPath (z : Sizes) : Option (List Char) → List Char
  | some dir =>
    if dir.length + 16 ≤ z.maxPath then dir ++ '/' :: tokenFilename else tokenFilename
  | none => tokenFilename

variable {z : Sizes} {text chars : List Char} {n k : ℕ}

theorem strncpy_text (h : nul ∉ text) : strncpy (text ++ [nul]) text.length = text := by
  have htext : text.takeWhile (· ≠ nul) = text := by simpa using takeWhile_ne_nul h []
  rw [strncpy, List.take_left, htext, Nat.sub_self, List.replicate_zero, List.append_nil]

theorem storeChars_nuls (h : chars.length ≤ n) :
    storeChars (List.replicate n nul) chars =
      .ok (chars ++ List.replicate (n - chars.length) nul) := by
  rw [storeChars_eq (by rwa [List.length_replicate]), List.drop_replicate]

theorem strncat_text (htext : nul ∉ text) (hchars : nul ∉ chars) (hk : chars.length ≤ k)
    (hn : chars.length < n) :
    strncat (text ++ List.replicate n nul) (chars ++ [nul]) k =
      .ok (text ++ chars ++ List.replicate (n - chars.length) nul) := by
  obtain ⟨n, rfl⟩ := Nat.exists_eq_add_of_lt hn
  have hlen : strlen (text ++ List.replicate (chars.length + n + 1) nul) = .ok text.length := by
    rw [strlen_append htext, if_pos (by simp), List.replicate_succ,
      List.takeWhile_cons_of_neg (by simp), List.append_nil]
  have htake : ((chars ++ [nul]).take k).takeWhile (· ≠ nul) = chars := by
    rw [List.take_append, List.take_of_length_le hk, takeWhile_ne_nul hchars]
    cases k - chars.length with
    | zero => simp
    | succ m => simp
  have hroom : (chars ++ [nul]).length ≤ chars.length + n + 1 := by
    rw [List.length_append, List.length_singleton]
    omega
  have hrest : chars.length + n + 1 - (chars ++ [nul]).length = n := by
    rw [List.length_append, List.length_singleton]
    omega
  have hsub : chars.length + n + 1 - chars.length = n + 1 := by omega
  rw [strncat, hlen]
  change (storeChars ((text ++ _).drop text.length) _).bind (fun tail =>
    .ok ((text ++ _).take text.length ++ tail)) = _
  rw [List.drop_left, List.take_left, htake, storeChars_nuls hroom, hrest, hsub]
  change Except.ok _ = _
  rw [List.replicate_succ]
  simp

theorem nul_notMem_tokenFilename : nul ∉ tokenFilename := by decide

theorem storeChars_tokenFilename (z : Sizes) : ∃ n,
    storeChars (List.replicate z.maxPath nul)
      (strncpy (tokenFilename ++ [nul]) (tokenFilename.length + 1)) =
      .ok (tokenFilename ++ List.replicate (n + 1) nul) := by
  have htext : strncpy (tokenFilename ++ [nul]) (tokenFilename.length + 1) =
      tokenFilename ++ [nul] := by decide
  rw [htext, storeChars_nuls z.roomy]
  exact ⟨z.maxPath - 14, by rw [List.append_assoc]; rfl⟩

theorem composeTokenPath_eq {homeDir : Option (List Char)}
    (h : ∀ dir, homeDir = some dir → nul ∉ dir) : ∃ n,
    composeTokenPath z homeDir = .ok (tokenPath z homeDir ++ List.replicate (n + 1) nul) := by
  cases homeDir with
  | none => exact storeChars_tokenFilename z
  | some dir =>
    have hdir := h dir rfl
    by_cases hfits : dir.length + 16 ≤ z.maxPath
    · have hslash : nul ∉ dir ++ ['/'] := by simpa using ⟨hdir, by decide⟩
      have hcompose : composeTokenPath z (some dir) = (do
          let tokenPath ← storeChars (List.replicate z.maxPath nul)
            (strncpy (dir ++ [nul]) dir.length)
          let tokenPath ← strncat tokenPath ['/', nul] 1
          strncat tokenPath (tokenFilename ++ [nul]) (tokenFilename.length + 1 + 1)) := if_pos hfits
      have hstored : storeChars (List.replicate z.maxPath nul) dir =
          .ok (dir ++ List.replicate (z.maxPath - dir.length) nul) := storeChars_nuls (by omega)
      have hslashed : strncat (dir ++ List.replicate (z.maxPath - dir.length) nul)
          (['/'] ++ [nul]) 1 =
            .ok (dir ++ ['/'] ++ List.replicate (z.maxPath - dir.length - 1) nul) :=
        strncat_text hdir (by decide) le_rfl (by rw [List.length_singleton]; omega)
      have hnamed : strncat (dir ++ ['/'] ++ List.replicate (z.maxPath - dir.length - 1) nul)
          (tokenFilename ++ [nul]) (tokenFilename.length + 1 + 1) =
            .ok (dir ++ ['/'] ++ tokenFilename ++
              List.replicate (z.maxPath - dir.length - 1 - 13) nul) :=
        strncat_text hslash nul_notMem_tokenFilename (by omega) (by change 13 < _; omega)
      have hroom : z.maxPath - dir.length - 1 - 13 = z.maxPath - dir.length - 15 + 1 := by omega
      refine ⟨z.maxPath - dir.length - 15, ?_⟩
      rw [hcompose, strncpy_text hdir, hstored]
      change (strncat _ (['/'] ++ [nul]) 1).bind _ = _
      rw [hslashed]
      change strncat _ _ _ = _
      rw [hnamed, hroom, tokenPath, if_pos hfits, List.append_assoc dir]
      rfl
    · have hcompose : composeTokenPath z (some dir) = storeChars (List.replicate z.maxPath nul)
          (strncpy (tokenFilename ++ [nul]) (tokenFilename.length + 1)) := if_neg hfits
      rw [hcompose, tokenPath, if_neg hfits]
      exact storeChars_tokenFilename z

theorem nul_notMem_tokenPath {homeDir : Option (List Char)}
    (h : ∀ dir, homeDir = some dir → nul ∉ dir) : nul ∉ tokenPath z homeDir := by
  cases homeDir with
  | none => exact nul_notMem_tokenFilename
  | some dir =>
    have hslash : nul ≠ '/' := by decide
    rw [tokenPath]
    split
    · simpa using ⟨h dir rfl, hslash, nul_notMem_tokenFilename⟩
    · exact nul_notMem_tokenFilename

theorem exists_tokenPath {homeDir : Option (List Char)}
    (h : ∀ dir, homeDir = some dir → nul ∉ dir) : ∃ array,
    composeTokenPath z homeDir = .ok array ∧
      array.takeWhile (· ≠ nul) = tokenPath z homeDir := by
  obtain ⟨n, harray⟩ := composeTokenPath_eq (z := z) h
  refine ⟨_, harray, ?_⟩
  rw [takeWhile_ne_nul (nul_notMem_tokenPath h), List.replicate_succ,
    List.takeWhile_cons_of_neg (by simp), List.append_nil]

end Path

section Programs

inductive OpenMode where
  | rb
  | wb

/-- How `sgx_create_enclave_ex` comes back. -/
structure Created where
  status : ℕ
  updated : ℤ
  token : List UInt8

/-- The calls of the application; `homeDir` is the directory that `getpwuid(getuid())` names, and
there is only one stream. -/
inductive LaunchCall where
  | homeDir
  | fopen (path : List Char) (mode : OpenMode)
  | fread (count : ℕ)
  | freopen (path : List Char)
  | fwrite (bytes : List UInt8)
  | fclose
  | createEnclaveEx (fileName : String) (token : List UInt8)
  | chdir
  | ecallMongoclientSample
  | destroyEnclave
  | printf (format : String) (arg : List Char)
  | printErrorMessage (ret : ℕ)

@[reducible] def LaunchReply : LaunchCall → Type
  | .homeDir => Option (List Char)
  | .fopen _ _ | .freopen _ | .chdir => Bool
  | .fread _ => List UInt8
  | .fwrite _ => ℕ
  | .createEnclaveEx _ _ => Created
  | .ecallMongoclientSample => ℕ × ℤ
  | _ => Unit

inductive Halt where
  | abort
  | undefined (u : Undefined)

abbrev Launch (α : Type) := Prog LaunchCall LaunchReply Halt α

def launch (c : LaunchCall) : Launch (LaunchReply c) := Prog.request c

def defined {α : Type} : Except Undefined α → Launch α
  | .ok a => .pure a
  | .error u => .throw (.undefined u)

def openToken (path : List Char) : Launch Bool := do
  if ← launch (.fopen path .rb) then return true
  else if ← launch (.fopen path .wb) then return true
  else
    launch (.printf "Warning: Failed to create/open the launch token file \"%s\".\n" path)
    return false

/-- What is not a whole token is cleared. -/
def readToken (z : Sizes) (path : List Char) (fp : Bool) : Launch (List UInt8) := do
  if fp then
    let bytes ← launch (.fread z.launchToken)
    if bytes.length ≠ 0 ∧ bytes.length ≠ z.launchToken then
      launch (.printf "Warning: Invalid launch token read from \"%s\".\n" path)
      return z.zeroToken
    else return bytes ++ z.zeroToken.drop bytes.length
  else return z.zeroToken

def closeStream (fp : Bool) : Launch Unit := if fp then launch .fclose else return ()

def saveToken (z : Sizes) (path : List Char) (token : List UInt8) : Launch ℤ := do
  if ← launch (.freopen path) then
    let writeNum ← launch (.fwrite token)
    if writeNum ≠ z.launchToken then
      launch (.printf "Warning: Failed to save launch token to \"%s\".\n" path)
      launch .fclose
      return 0
    else
      launch .fclose
      return 0
  else return 0

def initializeEnclave (z : Sizes) : Launch ℤ := do
  -- retrieve the launch token saved by the last transaction
  let homeDir ← launch .homeDir
  let array ← defined (composeTokenPath z homeDir)
  let path := array.takeWhile (· ≠ nul)
  let fp ← openToken path
  launch (.printf "token_path: %s\n" path)
  let token ← readToken z path fp
  let created ← launch (.createEnclaveEx "mongoclient.signed.so" token)
  if created.status ≠ sgxSuccess then
    launch (.printErrorMessage created.status)
    closeStream fp
    return -1
  else if created.updated = 0 ∨ fp = false then
    closeStream fp
    return 0
  else saveToken z path created.token

def main (z : Sizes) : Launch ℤ := do
  if ← launch .chdir then
    if (← initializeEnclave z) < 0 then return -1
    else
      let (ret, ecallReturn) ← launch .ecallMongoclientSample
      if ret ≠ sgxSuccess then Prog.throw .abort
      else
        if ecallReturn = 0 then launch (.printf "Application ran with success\n" [])
        else launch (.printf "Application failed %d \n" (toString ecallReturn).toList)
        launch .destroyEnclave
        return ecallReturn
  else Prog.throw .abort

end Programs

section Resources

inductive HostResource where
  | stream
  | enclave
  deriving DecidableEq

/-- A path that the system names is a string. -/
def NamedHome : Exchange LaunchCall LaunchReply → Prop
  | ⟨.homeDir, homeDir⟩ => ∀ dir, homeDir = some dir → nul ∉ dir
  | _ => True

/-- What a call acquires, uses and releases; `freopen` closes the stream also when it fails. -/
def launchEntries : Exchange LaunchCall LaunchReply → List (Entry HostResource)
  | ⟨.fopen _ _, true⟩ => [.acquire .stream]
  | ⟨.fread _, _⟩ | ⟨.fwrite _, _⟩ => [.use .stream]
  | ⟨.freopen _, true⟩ => [.release .stream, .acquire .stream]
  | ⟨.freopen _, false⟩ => [.release .stream]
  | ⟨.fclose, _⟩ => [.release .stream]
  | ⟨.createEnclaveEx _ _, created⟩ =>
    if created.status = sgxSuccess then [.acquire .enclave] else []
  | ⟨.ecallMongoclientSample, _⟩ => [.use .enclave]
  | ⟨.destroyEnclave, _⟩ => [.release .enclave]
  | _ => []

def opened (fp : Bool) : List HostResource := if fp then [.stream] else []

variable {z : Sizes} {path : List Char} {token : List UInt8} {fp : Bool}

abbrev Tidy {α : Type} (Q : Except Halt α → List HostResource → Prop) (p : Launch α)
    (live : List HostResource) : Prop := Keeps NamedHome launchEntries Q p live

theorem tidy_openToken :
    Tidy (fun r live => ∃ fp, r = .ok fp ∧ live = opened fp) (openToken path) [] := by
  simp only [openToken, launch, Prog.bind_eq, Prog.request_bind]
  apply Keeps.call_reply
  rintro (_ | _) -
  · refine ⟨[], rfl, ?_⟩
    simp only [Bool.false_eq_true, ↓reduceIte]
    apply Keeps.call_reply
    rintro (_ | _) -
    · exact ⟨[], rfl, .call (fun _ _ => rfl) fun _ _ => keeps_pure_iff.mpr ⟨false, rfl, rfl⟩⟩
    · exact ⟨[.stream], rfl, keeps_pure_iff.mpr ⟨true, rfl, rfl⟩⟩
  · exact ⟨[.stream], rfl, keeps_pure_iff.mpr ⟨true, rfl, rfl⟩⟩

theorem tidy_readToken :
    Tidy (fun r live => (∃ token, r = .ok token) ∧ live = opened fp) (readToken z path fp)
      (opened fp) := by
  cases fp with
  | false => exact keeps_pure_iff.mpr ⟨⟨_, rfl⟩, rfl⟩
  | true =>
    simp only [readToken, launch, Prog.bind_eq, Prog.request_bind, Prog.pure_eq, ↓reduceIte]
    apply Keeps.call (fun _ _ => rfl)
    rintro bytes -
    split
    · exact .call (fun _ _ => rfl) fun _ _ => keeps_pure_iff.mpr ⟨⟨_, rfl⟩, rfl⟩
    · exact keeps_pure_iff.mpr ⟨⟨_, rfl⟩, rfl⟩

theorem tidy_closeStream {live : List HostResource} (h : live = [] ∨ live = [.enclave]) :
    Tidy (fun r live' => r = .ok () ∧ live' = live) (closeStream fp) (live ++ opened fp) := by
  cases fp with
  | false => exact keeps_pure_iff.mpr ⟨rfl, List.append_nil _⟩
  | true =>
    rcases h with rfl | rfl
    · exact .call (fun _ _ => rfl) fun _ _ => keeps_pure_iff.mpr ⟨rfl, rfl⟩
    · exact .call (fun _ _ => rfl) fun _ _ => keeps_pure_iff.mpr ⟨rfl, rfl⟩

theorem tidy_saveToken :
    Tidy (fun r live => r = .ok 0 ∧ live = [.enclave]) (saveToken z path token)
      [.enclave, .stream] := by
  simp only [saveToken, launch, Prog.bind_eq, Prog.request_bind, Prog.pure_eq]
  apply Keeps.call_reply
  rintro (_ | _) -
  · exact ⟨[.enclave], rfl, keeps_pure_iff.mpr ⟨rfl, rfl⟩⟩
  · refine ⟨[.stream, .enclave], rfl, ?_⟩
    simp only [↓reduceIte]
    apply Keeps.call (fun _ _ => rfl)
    rintro writeNum -
    split
    · apply Keeps.call (fun _ _ => rfl)
      rintro _ -
      exact .call (fun _ _ => rfl) fun _ _ => keeps_pure_iff.mpr ⟨rfl, rfl⟩
    · exact .call (fun _ _ => rfl) fun _ _ => keeps_pure_iff.mpr ⟨rfl, rfl⟩

theorem tidy_initializeEnclave :
    Tidy (fun r live => r = .ok (-1) ∧ live = [] ∨ r = .ok 0 ∧ live = [.enclave])
      (initializeEnclave z) [] := by
  simp only [initializeEnclave, launch, Prog.bind_eq, Prog.request_bind, Prog.pure_eq]
  apply Keeps.call (fun _ _ => rfl)
  intro homeDir hhome
  obtain ⟨array, harray, -⟩ := exists_tokenPath (z := z) hhome
  rw [harray]
  simp only [defined, Prog.pure_bind]
  apply Keeps.bind
  apply tidy_openToken.mono
  rintro _ _ ⟨fp, rfl, rfl⟩
  apply Keeps.call (fun _ _ => rfl)
  rintro _ -
  apply Keeps.bind
  apply tidy_readToken.mono
  rintro _ _ ⟨⟨token, rfl⟩, rfl⟩
  apply Keeps.call_reply
  rintro created -
  by_cases hstatus : created.status = sgxSuccess
  · have hclose : Tidy (fun r live => r = .ok () ∧ live = [.enclave]) (closeStream fp)
        ([.enclave] ++ opened fp) := tidy_closeStream (.inr rfl)
    refine ⟨.enclave :: opened fp, ?_, ?_⟩
    · cases fp <;> simp [launchEntries, hstatus, run, step, opened]
    · rw [if_neg (not_not.mpr hstatus)]
      by_cases hidle : created.updated = 0 ∨ fp = false
      · rw [if_pos hidle]
        apply Keeps.bind
        apply hclose.mono
        rintro _ _ ⟨rfl, rfl⟩
        exact keeps_pure_iff.mpr (.inr ⟨rfl, rfl⟩)
      · rw [if_neg hidle]
        obtain ⟨-, hfp⟩ := not_or.mp hidle
        obtain rfl : fp = true := Bool.not_eq_false _ ▸ hfp
        exact tidy_saveToken.mono fun _ _ h => .inr h
  · have hclose : Tidy (fun r live => r = .ok () ∧ live = []) (closeStream fp)
        ([] ++ opened fp) := tidy_closeStream (.inl rfl)
    refine ⟨opened fp, ?_, ?_⟩
    · simp [launchEntries, hstatus, run]
    · rw [if_pos hstatus]
      apply Keeps.call (fun _ _ => rfl)
      rintro _ -
      apply Keeps.bind
      apply hclose.mono
      rintro _ _ ⟨rfl, rfl⟩
      exact keeps_pure_iff.mpr (.inl ⟨rfl, rfl⟩)

theorem tidy_main :
    Tidy (fun r live => match r with
      | .ok _ => live = []
      | .error .abort => live = [] ∨ live = [.enclave]
      | .error (.undefined _) => False) (main z) [] := by
  simp only [main, launch, Prog.bind_eq, Prog.request_bind, Prog.pure_eq]
  apply Keeps.call_reply
  rintro (_ | _) -
  · exact ⟨[], rfl, keeps_throw_iff.mpr (.inl rfl)⟩
  refine ⟨[], rfl, ?_⟩
  simp only [↓reduceIte]
  apply Keeps.bind
  apply tidy_initializeEnclave.mono
  rintro _ _ (⟨rfl, rfl⟩ | ⟨rfl, rfl⟩)
  · exact keeps_pure_iff.mpr rfl
  · apply Keeps.call (fun _ _ => rfl)
    rintro ⟨ret, ecallReturn⟩ -
    by_cases hret : ret = sgxSuccess
    · rw [if_neg (not_not.mpr hret)]
      split
      · apply Keeps.call (fun _ _ => rfl)
        rintro _ -
        exact .call (fun _ _ => rfl) fun _ _ => keeps_pure_iff.mpr rfl
      · apply Keeps.call (fun _ _ => rfl)
        rintro _ -
        exact .call (fun _ _ => rfl) fun _ _ => keeps_pure_iff.mpr rfl
    · rw [if_pos hret]
      exact keeps_throw_iff.mpr (.inr rfl)

/-- Whatever the system answers, the stream and the enclave are used, closed and destroyed only
while they are open; the path never overflows; and however `main` ends, the stream is closed, and
the enclave is destroyed unless it aborts. -/
theorem main_orderly {p : Launch ℤ} {es : List (Entry HostResource)}
    (hs : (main z).Steps (Entering NamedHome launchEntries) [] p es) :
    Disciplined es ∧ (∀ u, p ≠ .throw (.undefined u)) ∧
      (∀ v, p = .pure v → ∀ r, es.count (.acquire r) = es.count (.release r)) ∧
      (p = .throw .abort → es.count (.acquire .stream) = es.count (.release .stream)) := by
  have htidy := tidy_main (z := z)
  refine ⟨htidy.disciplined rfl hs, ?_, ?_, ?_⟩
  · rintro u rfl
    have hr : (main z).Evals (Entering NamedHome launchEntries) [] (.error (.undefined u)) es := hs
    obtain ⟨_, -, h⟩ := htidy.of_evals rfl hr
    exact h
  · rintro v rfl r
    have hr : (main z).Evals (Entering NamedHome launchEntries) [] (.ok v) es := hs
    obtain ⟨_, hrun, rfl⟩ := htidy.of_evals rfl hr
    exact (balances_of_run hrun).count r
  · rintro rfl
    have hr : (main z).Evals (Entering NamedHome launchEntries) [] (.error .abort) es := hs
    obtain ⟨live, hrun, hlive⟩ := htidy.of_evals rfl hr
    have hcount := (balances_of_run hrun).count .stream
    have hzero : live.count .stream = 0 := by
      rcases hlive with rfl | rfl
      · rfl
      · rfl
    rwa [hzero, Nat.add_zero] at hcount

/-- The token file is there but empty, and is written anew with the token of the enclave. -/
theorem main_orderly_sample : ∃ es, (main .linux).Evals (Entering NamedHome launchEntries) []
    (.ok 0) es ∧
    es = [.acquire .stream, .use .stream, .acquire .enclave, .release .stream, .acquire .stream,
      .use .stream, .release .stream, .use .enclave, .release .enclave] ∧
    ∀ r, es.count (.acquire r) = es.count (.release r) := by
  have hnamed : ∀ dir, some "/root".toList = some dir → nul ∉ dir := by
    rintro _ ⟨⟩
    decide
  obtain ⟨array, harray, -⟩ : ∃ array, composeTokenPath .linux (some "/root".toList) = .ok array ∧
      array.takeWhile (· ≠ nul) = tokenPath .linux (some "/root".toList) := exists_tokenPath hnamed
  let created : List (Entry HostResource) := [.acquire .stream, .use .stream, .acquire .enclave]
  let saved : List (Entry HostResource) :=
    created ++ [.release .stream, .acquire .stream, .use .stream, .release .stream]
  have hsave : ∀ path token, (saveToken .linux path token).Evals
      (Entering NamedHome launchEntries) created (.ok 0) saved := by
    intro path token
    apply evals_entering true trivial
    apply evals_entering Sizes.linux.launchToken trivial
    apply evals_entering () trivial
    exact .refl _ _
  have hinit : (initializeEnclave .linux).Evals (Entering NamedHome launchEntries) [] (.ok 0)
      saved := by
    simp only [initializeEnclave, launch, Prog.bind_eq, Prog.request_bind]
    apply evals_entering (some "/root".toList) hnamed
    rw [harray]
    apply evals_entering true trivial
    apply evals_entering () trivial
    apply evals_entering [] trivial
    apply evals_entering ⟨sgxSuccess, 1, []⟩ trivial
    exact hsave _ _
  have hmain : (main .linux).Evals (Entering NamedHome launchEntries) [] (.ok 0)
      (saved ++ [.use .enclave, .release .enclave]) := by
    apply evals_entering true trivial
    apply hinit.bind
    apply evals_entering (sgxSuccess, 0) trivial
    apply evals_entering () trivial
    apply evals_entering () trivial
    exact .refl _ _
  exact ⟨_, hmain, rfl, (main_orderly hmain).2.2.1 0 rfl⟩

end Resources

end MongoSgx.Host
