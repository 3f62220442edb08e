import MongoSgx.Memory.Bytes

/-! # Counts and lengths from the host

The wrappers that move bytes over a descriptor return the count that the host
reports, and `getsockopt` takes over the length and the bytes that the host has
left in the native copies. They keep the socket contract exactly where the host
does.
-/

namespace MongoSgx.Host

open Memory

def sgxSuccess : ℕ := 0

/-- There is no result where the ocall fails, since `sgx_exit` does not return. -/
def orExit {α : Type} (status : ℕ) (result : α) : Option α :=
  if status ≠ sgxSuccess then none else some result

theorem orExit_eq_some_iff {α : Type} {status : ℕ} {result a : α} :
    orExit status result = some a ↔ status = sgxSuccess ∧ result = a := by
  unfold orExit
  split <;> simp_all

section Transfers

/-- How an ocall that moves bytes comes back: its status, the count that the host reports and the
bytes that the host leaves for the buffer. -/
structure Transferred where
  status : ℕ
  retval : ℤ
  bytes : ℕ → UInt8

/-- The ocalls of the wrappers. -/
structure Ocalls where
  ocallRecv : ℤ → ℕ → ℤ → Transferred
  ocallSend : ℤ → List UInt8 → ℕ → ℤ → Transferred
  ocallRead : ℤ → ℕ → Transferred
  ocallSgxRead : ℤ → ℤ → Transferred
  ocallSgxWrite : ℤ → List UInt8 → ℤ → Transferred

/-- The bridge fills the whole of an output buffer. -/
def receive (reply : Transferred) (m : Mem) (buffer length : ℕ) : Option (ℤ × Mem) :=
  orExit reply.status (reply.retval, store m buffer ((List.range length).map reply.bytes))

def transmit (reply : Transferred) (m : Mem) : Option (ℤ × Mem) :=
  orExit reply.status (reply.retval, m)

def recv (host : Ocalls) (m : Mem) (socket : ℤ) (buffer length : ℕ) (flags : ℤ) :
    Option (ℤ × Mem) :=
  receive (host.ocallRecv socket length flags) m buffer length

def send (host : Ocalls) (m : Mem) (socket : ℤ) (buffer length : ℕ) (flags : ℤ) :
    Option (ℤ × Mem) :=
  transmit (host.ocallSend socket (load m buffer length) length flags) m

def read (host : Ocalls) (m : Mem) (fildes : ℤ) (buf nbyte : ℕ) : Option (ℤ × Mem) :=
  receive (host.ocallRead fildes nbyte) m buf nbyte

def sgxRead (host : Ocalls) (m : Mem) (fd : ℤ) (buf : ℕ) (n : ℤ) : Option (ℤ × Mem) :=
  receive (host.ocallSgxRead fd n) m buf n.toNat

def sgxWrite (host : Ocalls) (m : Mem) (fd : ℤ) (buf : ℕ) (n : ℤ) : Option (ℤ × Mem) :=
  transmit (host.ocallSgxWrite fd (load m buf n.toNat) n) m

inductive Transfer where
  | recv (socket : ℤ) (buffer length : ℕ) (flags : ℤ)
  | send (socket : ℤ) (buffer length : ℕ) (flags : ℤ)
  | read (fildes : ℤ) (buf nbyte : ℕ)
  | sgxRead (fd : ℤ) (buf : ℕ) (n : ℤ)
  | sgxWrite (fd : ℤ) (buf : ℕ) (n : ℤ)

namespace Transfer

def run (host : Ocalls) (m : Mem) : Transfer → Option (ℤ × Mem)
  | .recv socket buffer length flags => Host.recv host m socket buffer length flags
  | .send socket buffer length flags => Host.send host m socket buffer length flags
  | .read fildes buf nbyte => Host.read host m fildes buf nbyte
  | .sgxRead fd buf n => Host.sgxRead host m fd buf n
  | .sgxWrite fd buf n => Host.sgxWrite host m fd buf n

def length : Transfer → ℤ
  | .recv _ _ length _ | .send _ _ length _ => length
  | .read _ _ nbyte => nbyte
  | .sgxRead _ _ n | .sgxWrite _ _ n => n

def reply (host : Ocalls) (m : Mem) : Transfer → Transferred
  | .recv socket _ length flags => host.ocallRecv socket length flags
  | .send socket buffer length flags => host.ocallSend socket (load m buffer length) length flags
  | .read fildes _ nbyte => host.ocallRead fildes nbyte
  | .sgxRead fd _ n => host.ocallSgxRead fd n
  | .sgxWrite fd buf n => host.ocallSgxWrite fd (load m buf n.toNat) n

end Transfer

/-- A transferred count that the socket contract allows for a request of `length` bytes. -/
def CountWithin (length r : ℤ) : Prop := r = -1 ∨ 0 ≤ r ∧ r ≤ length

instance (length r : ℤ) : Decidable (CountWithin length r) := inferInstanceAs (Decidable (_ ∨ _))

variable {host : Ocalls} {m : Mem}

theorem Transfer.run_eq (t : Transfer) (host : Ocalls) (m : Mem) : ∃ after,
    t.run host m = orExit (t.reply host m).status ((t.reply host m).retval, after) := by
  cases t with
  | recv | send | read | sgxRead | sgxWrite => exact ⟨_, rfl⟩

theorem Transfer.countWithin_iff (t : Transfer) :
    (∀ r m', t.run host m = some (r, m') → CountWithin t.length r) ↔
      (t.reply host m).status ≠ sgxSuccess ∨ CountWithin t.length (t.reply host m).retval := by
  obtain ⟨after, hrun⟩ := t.run_eq host m
  rw [← imp_iff_not_or]
  constructor
  · intro h hstatus
    exact h _ after (hrun.trans (orExit_eq_some_iff.mpr ⟨hstatus, rfl⟩))
  · intro h r m' hr
    obtain ⟨hstatus, hpair⟩ := orExit_eq_some_iff.mp (hrun.symm.trans hr)
    cases hpair
    exact h hstatus

end Transfers

section Sockopt

/-- How `ocall_getsockopt` comes back: its status, the value that the host returns and the memory
that the host leaves behind. -/
structure SockoptReply where
  status : ℕ
  retval : ℤ
  mem : Mem

/-- The sizes of the two native blocks, in the order in which they are obtained. -/
def sockoptSize (m : Mem) (optionLen : ℕ) : ℕ → ℕ
  | 0 => loadNat m optionLen 4
  | _ => 4

def nativeOption (m : Mem) (optionValue optionLen nativeOptionValue nativeOptionLen : ℕ) : Mem :=
  let m := copy m nativeOptionValue optionValue (loadNat m optionLen 4)
  storeNat m nativeOptionLen 4 (loadNat m optionLen 4)

/-- The memory after the native blocks have been copied back. -/
def takeOption (m : Mem) (optionValue optionLen nativeOptionValue nativeOptionLen : ℕ) : Mem :=
  let finalLen := loadNat m optionLen 4
  let m := copy m optionValue nativeOptionValue finalLen
  storeNat m optionLen 4 (loadNat m nativeOptionLen 4)

/-- The host cannot change the bytes of the enclave. -/
def getsockopt (enclave : Region) (ocalloc : ℕ → ℕ → ℕ)
    (ocallGetsockopt : ℤ → ℤ → ℤ → ℕ → ℕ → Mem → SockoptReply) (m : Mem)
    (socket level optionName : ℤ) (optionValue optionLen : ℕ) : Option (ℤ × Mem) :=
  let nativeOptionValue := ocalloc 0 (loadNat m optionLen 4)
  let nativeOptionLen := ocalloc 1 4
  let native := nativeOption m optionValue optionLen nativeOptionValue nativeOptionLen
  let reply := ocallGetsockopt socket level optionName nativeOptionValue nativeOptionLen native
  orExit reply.status (reply.retval, takeOption (enclave.combine native reply.mem)
    optionValue optionLen nativeOptionValue nativeOptionLen)

/-- The number of positions at which two byte strings differ. -/
def changes (before after : List UInt8) : ℕ :=
  (before.zip after).countP fun b => b.1 ≠ b.2

/-- The length has not grown, and no more bytes of the value have changed than it counts. -/
def OptionWithin (m m' : Mem) (optionValue optionLen : ℕ) : Prop :=
  loadNat m' optionLen 4 ≤ loadNat m optionLen 4 ∧
  changes (load m optionValue (loadNat m optionLen 4))
    (load m' optionValue (loadNat m optionLen 4)) ≤ loadNat m' optionLen 4

instance (m m' : Mem) (optionValue optionLen : ℕ) :
    Decidable (OptionWithin m m' optionValue optionLen) := inferInstanceAs (Decidable (_ ∧ _))

def OptionFrame (enclave : Region) (m m' : Mem) (optionValue optionLen : ℕ) : Prop :=
  Set.EqOn m' m (enclave.addresses \
    (block optionValue (loadNat m optionLen 4) ∪ block optionLen 4))

/-- The caller passes two objects of the enclave that do not overlap, as `restrict` asks. -/
structure SockoptCaller (enclave : Region) (m : Mem) (optionValue optionLen : ℕ) : Prop where
  value_inside : block optionValue (loadNat m optionLen 4) ⊆ enclave.addresses
  len_inside : block optionLen 4 ⊆ enclave.addresses
  restrict : Disjoint (block optionValue (loadNat m optionLen 4)) (block optionLen 4)

structure NativeBlocks (enclave : Region) (n value len : ℕ) : Prop where
  value_outside : Disjoint (block value n) enclave.addresses
  len_outside : Disjoint (block len 4) enclave.addresses
  apart : Disjoint (block value n) (block len 4)

variable {enclave : Region} {ocalloc : ℕ → ℕ → ℕ} {m m' native : Mem}
  {optionValue optionLen value len : ℕ}

theorem nativeBlocks_of_fresh
    (h : Fresh enclave.addresses ocalloc (sockoptSize m optionLen) 2) :
    NativeBlocks enclave (loadNat m optionLen 4) (ocalloc 0 (loadNat m optionLen 4))
      (ocalloc 1 4) where
  value_outside := h.unused 0 (by decide)
  len_outside := h.unused 1 (by decide)
  apart := h.apart 0 1 (by decide) (by decide)

theorem nativeOption_len (hcaller : SockoptCaller enclave m optionValue optionLen)
    (hnative : NativeBlocks enclave (loadNat m optionLen 4) value len) :
    loadNat (nativeOption m optionValue optionLen value len) len 4 = loadNat m optionLen 4 := by
  have hdisjoint : Disjoint (block optionLen 4) (block value (loadNat m optionLen 4)) :=
    (hnative.value_outside.mono_right hcaller.len_inside).symm
  have hkept : loadNat (copy m value optionValue (loadNat m optionLen 4)) optionLen 4 =
      loadNat m optionLen 4 := by
    rw [loadNat, load_copy_of_disjoint hdisjoint, ← loadNat]
  rw [nativeOption, hkept]
  exact loadNat_storeNat loadNat_lt

theorem nativeOption_value (hnative : NativeBlocks enclave (loadNat m optionLen 4) value len) :
    load (nativeOption m optionValue optionLen value len) value (loadNat m optionLen 4) =
      load m optionValue (loadNat m optionLen 4) := by
  rw [nativeOption, load_storeNat_of_disjoint hnative.apart, load_copy]

theorem eqOn_nativeOption (hnative : NativeBlocks enclave (loadNat m optionLen 4) value len) :
    Set.EqOn (nativeOption m optionValue optionLen value len) m enclave.addresses := by
  have hcopy : Set.EqOn (copy m value optionValue (loadNat m optionLen 4)) m enclave.addresses :=
    eqOn_copy_of_disjoint (Set.eqOn_refl m _) hnative.value_outside
  exact eqOn_storeNat_of_disjoint hcopy hnative.len_outside

/-- What the caller finds after the copy back is what the host has left in the native blocks. -/
theorem takeOption_loads (after : Mem) (hcaller : SockoptCaller enclave m optionValue optionLen)
    (hnative : NativeBlocks enclave (loadNat m optionLen 4) value len)
    (hkept : Set.EqOn native m enclave.addresses) :
    loadNat (takeOption (enclave.combine native after) optionValue optionLen value len)
        optionLen 4 = loadNat after len 4 ∧
    load (takeOption (enclave.combine native after) optionValue optionLen value len)
        optionValue (loadNat m optionLen 4) = load after value (loadNat m optionLen 4) := by
  have hinside : Set.EqOn (enclave.combine native after) m enclave.addresses :=
    (enclave.eqOn_combine native after).trans hkept
  have houtside := enclave.eqOn_combine_compl native after
  have hfinal : loadNat (enclave.combine native after) optionLen 4 = loadNat m optionLen 4 :=
    loadNat_congr (hinside.mono hcaller.len_inside)
  have hlen : loadNat (enclave.combine native after) len 4 = loadNat after len 4 :=
    loadNat_congr (houtside.mono hnative.len_outside.subset_compl_right)
  have hvalue : load (enclave.combine native after) value (loadNat m optionLen 4) =
      load after value (loadNat m optionLen 4) :=
    load_eq_iff.mpr (houtside.mono hnative.value_outside.subset_compl_right)
  have hapart : Disjoint (block len 4) (block optionValue (loadNat m optionLen 4)) :=
    hnative.len_outside.mono_right hcaller.value_inside
  rw [takeOption, hfinal]
  constructor
  · rw [loadNat_storeNat loadNat_lt, loadNat, load_copy_of_disjoint hapart, ← loadNat, hlen]
  · rw [load_storeNat_of_disjoint hcaller.restrict, load_copy, hvalue]

theorem optionFrame_takeOption {after : Mem}
    (hcaller : SockoptCaller enclave m optionValue optionLen)
    (hkept : Set.EqOn native m enclave.addresses) :
    OptionFrame enclave m
      (takeOption (enclave.combine native after) optionValue optionLen value len)
      optionValue optionLen := by
  have hinside : Set.EqOn (enclave.combine native after) m enclave.addresses :=
    (enclave.eqOn_combine native after).trans hkept
  have hfinal : loadNat (enclave.combine native after) optionLen 4 = loadNat m optionLen 4 :=
    loadNat_congr (hinside.mono hcaller.len_inside)
  rw [takeOption, hfinal]
  rintro a ⟨ha, hnot⟩
  rw [Set.mem_union, not_or] at hnot
  rw [eqOn_storeNat hnot.2, eqOn_copy hnot.1, hinside ha]

theorem optionWithin_takeOption_iff {after : Mem}
    (hcaller : SockoptCaller enclave m optionValue optionLen)
    (hnative : NativeBlocks enclave (loadNat m optionLen 4) value len) :
    OptionWithin m
        (takeOption (enclave.combine (nativeOption m optionValue optionLen value len) after)
          optionValue optionLen value len) optionValue optionLen ↔
      OptionWithin (nativeOption m optionValue optionLen value len) after value len := by
  obtain ⟨hlen, hvalue⟩ := takeOption_loads after hcaller hnative
    (eqOn_nativeOption hnative)
  rw [OptionWithin, OptionWithin, hlen, hvalue, nativeOption_len hcaller hnative,
    nativeOption_value hnative]

end Sockopt

/-- For every host and every request, a wrapper returns only what the socket contract allows if
and only if the ocall fails or the host itself keeps the contract: by the count that it reports,
and for `getsockopt` on the native copies that it was handed. -/
theorem host_lengths_within_iff (host : Ocalls) (m : Mem) (t : Transfer) :
    ((∀ r m', t.run host m = some (r, m') → CountWithin t.length r) ↔
      (t.reply host m).status ≠ sgxSuccess ∨ CountWithin t.length (t.reply host m).retval) ∧
    ∀ (enclave : Region) (ocalloc : ℕ → ℕ → ℕ)
      (ocallGetsockopt : ℤ → ℤ → ℤ → ℕ → ℕ → Mem → SockoptReply)
      (socket level optionName : ℤ) (optionValue optionLen : ℕ),
      SockoptCaller enclave m optionValue optionLen →
      Fresh enclave.addresses ocalloc (sockoptSize m optionLen) 2 →
      ((∀ r m', getsockopt enclave ocalloc ocallGetsockopt m socket level optionName optionValue
          optionLen = some (r, m') →
            OptionWithin m m' optionValue optionLen ∧
              OptionFrame enclave m m' optionValue optionLen) ↔
        let value := ocalloc 0 (loadNat m optionLen 4)
        let len := ocalloc 1 4
        let native := nativeOption m optionValue optionLen value len
        let reply := ocallGetsockopt socket level optionName value len native
        reply.status ≠ sgxSuccess ∨ OptionWithin native reply.mem value len) := by
  constructor
  · exact t.countWithin_iff
  · intro enclave ocalloc ocallGetsockopt socket level optionName optionValue optionLen hcaller
      hfresh
    have hnative := nativeBlocks_of_fresh hfresh
    simp only [getsockopt, orExit_eq_some_iff, Prod.mk.injEq, ← imp_iff_not_or, ne_eq]
    constructor
    · intro h hstatus
      exact (optionWithin_takeOption_iff hcaller hnative).mp (h _ _ ⟨hstatus, rfl, rfl⟩).1
    · rintro h r m' ⟨hstatus, -, rfl⟩
      constructor
      · exact (optionWithin_takeOption_iff hcaller hnative).mpr (h hstatus)
      · exact optionFrame_takeOption hcaller (eqOn_nativeOption hnative)

section Sample

def fourBytes : Mem := storeNat (fun _ => 0) 4200 4 4

def belowEnclave (k _ : ℕ) : ℕ := 256 + 64 * k

theorem belowEnclave_fresh {inUse : Set ℕ} {size : ℕ → ℕ} {n : ℕ} (hn : n ≤ 16)
    (hsize : ∀ k < n, size k ≤ 64) (hinUse : ∀ a ∈ inUse, 4096 ≤ a) :
    Fresh inUse belowEnclave size n where
  pointer k hk := by
    change 256 + 64 * k < 256 ^ 8
    omega
  apart j k hjk hk := by
    have hj := hsize j (hjk.trans hk)
    change Disjoint (block (256 + 64 * j) (size j)) (block (256 + 64 * k) (size k))
    rw [disjoint_block_iff]
    omega
  unused k hk := by
    have hsizek := hsize k hk
    apply Set.disjoint_left.mpr
    intro a ha ha'
    have hbelow : a < 256 + 64 * k + size k := ha.2
    have habove := hinUse a ha'
    omega

theorem fourBytes_caller : SockoptCaller ⟨4096, 4096⟩ fourBytes 4096 4200 where
  value_inside := block_subset (by decide) (by decide)
  len_inside := block_subset (by decide) (by decide)
  restrict := by decide

def oneByteOption (_ _ _ : ℤ) (value len : ℕ) (m : Mem) : SockoptReply :=
  ⟨sgxSuccess, 0, storeNat (storeNat m value 1 7) len 4 1⟩

def oneMore (length : ℤ) : Transferred := ⟨sgxSuccess, length + 1, fun _ => 0⟩

def overlongHost : Ocalls where
  ocallRecv _ length _ := oneMore length
  ocallSend _ _ length _ := oneMore length
  ocallRead _ nbyte := oneMore nbyte
  ocallSgxRead _ n := oneMore n
  ocallSgxWrite _ _ n := oneMore n

theorem host_lengths_within_iff_sample : ∃ m',
    getsockopt ⟨4096, 4096⟩ belowEnclave oneByteOption fourBytes 3 1 4 4096 4200 = some (0, m') ∧
    OptionWithin fourBytes m' 4096 4200 := by
  have hiff := (host_lengths_within_iff overlongHost fourBytes (.recv 3 4096 4 0)).2 ⟨4096, 4096⟩
    belowEnclave oneByteOption 3 1 4 4096 4200 fourBytes_caller
    (belowEnclave_fresh (by decide) (by decide) fun _ ha => ha.1)
  have hwithin := hiff.mpr (Or.inr (by decide))
  exact ⟨_, rfl, (hwithin 0 _ rfl).1⟩

def overlongOption (_ _ _ : ℤ) (_ len : ℕ) (m : Mem) : SockoptReply :=
  ⟨sgxSuccess, 0, storeNat m len 4 16⟩

/-- `recv` and `getsockopt` return what such hosts report. -/
theorem overlong_returned :
    (∃ m', (Transfer.recv 3 4096 4 0).run overlongHost fourBytes = some (5, m') ∧
      ¬ CountWithin (Transfer.recv 3 4096 4 0).length 5) ∧
    ∃ m', getsockopt ⟨4096, 4096⟩ belowEnclave overlongOption fourBytes 3 1 4 4096 4200 =
        some (0, m') ∧ loadNat m' 4200 4 = 16 ∧ ¬ OptionWithin fourBytes m' 4096 4200 := by
  constructor
  · exact ⟨_, rfl, by decide⟩
  · exact ⟨_, rfl, by decide, by decide⟩

end Sample

end MongoSgx.Host
