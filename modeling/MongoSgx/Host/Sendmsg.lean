import MongoSgx.Host.Sockets
import MongoSgx.Memory.Layout
import MongoSgx.Scanner.Vsscanf

/-! # The deep copy of a message

`sendmsg` copies a message header, its control block and its vectors to blocks
outside the enclave. The block for the name is obtained and never filled, so the
copy is faithful exactly when that block happens to hold the name already, and
when the counter of the loop can count the vectors.
-/

namespace MongoSgx.Host

open Memory

inductive Msghdr where
  | msgName
  | msgNamelen
  | msgIov
  | msgIovlen
  | msgControl
  | msgControllen
  | msgFlags
  deriving DecidableEq

def msghdr : Layout Msghdr where
  sizeof := 56
  offset
    | .msgName => 0
    | .msgNamelen => 8
    | .msgIov => 16
    | .msgIovlen => 24
    | .msgControl => 32
    | .msgControllen => 40
    | .msgFlags => 48
  width
    | .msgName | .msgIov | .msgIovlen | .msgControl | .msgControllen => 8
    | .msgNamelen | .msgFlags => 4
  fits f := by cases f <;> decide
  apart f g h := by cases f <;> cases g <;> first | exact absurd rfl h | decide

inductive Iovec where
  | iovBase
  | iovLen
  deriving DecidableEq

def iovec : Layout Iovec where
  sizeof := 16
  offset
    | .iovBase => 0
    | .iovLen => 8
  width _ := 8
  fits f := by cases f <;> decide
  apart f g h := by cases f <;> cases g <;> first | exact absurd rfl h | decide

def iovAt (iov i : ℕ) : ℕ := iov + i * iovec.sizeof

def msgIovAt (m : Mem) (message i : ℕ) : ℕ := iovAt (msghdr.get m message .msgIov) i

/-- The memory while the copy is built, the blocks that `sgx_ocalloc` has handed out so far, and
the two pointers that the function keeps. -/
structure Native where
  mem : Mem
  blocks : List Region
  messageNative : ℕ
  iovArrayNative : Region

section Copy

variable (ocalloc : ℕ → ℕ → ℕ) (message : ℕ)

def copyHeader (m : Mem) : Native :=
  let messageNative := ocalloc 0 msghdr.sizeof
  let m := msghdr.set m messageNative .msgControllen (msghdr.get m message .msgControllen)
  let m := msghdr.set m messageNative .msgFlags (msghdr.get m message .msgFlags)
  let m := msghdr.set m messageNative .msgIovlen (msghdr.get m message .msgIovlen)
  let m := msghdr.set m messageNative .msgNamelen (msghdr.get m message .msgNamelen)
  let controllen := msghdr.get m message .msgControllen
  let msgControlNative := ocalloc 1 controllen
  let m := copy m msgControlNative (msghdr.get m message .msgControl) controllen
  let m := msghdr.set m messageNative .msgControl msgControlNative
  let namelen := msghdr.get m message .msgNamelen
  let msgNameNative := ocalloc 2 namelen
  let m := msghdr.set m messageNative .msgName msgNameNative
  let arraySize := msghdr.get m message .msgIovlen * iovec.sizeof % 2 ^ 64
  let iovArrayNative : Region := ⟨ocalloc 3 arraySize, arraySize⟩
  let m := msghdr.set m messageNative .msgIov iovArrayNative.base
  { mem := m
    blocks := [⟨messageNative, msghdr.sizeof⟩, ⟨msgControlNative, controllen⟩,
      ⟨msgNameNative, namelen⟩, iovArrayNative]
    messageNative := messageNative
    iovArrayNative := iovArrayNative }

/-- The body of the loop, which may not write behind the array. -/
def copyIovec (i : ℕ) (s : Native) : Except Undefined Native :=
  let m := s.mem
  let iovNative := ocalloc s.blocks.length iovec.sizeof
  let len := iovec.get m (msgIovAt m message i) .iovLen
  let m := iovec.set m iovNative .iovLen len
  let iovBaseNative := ocalloc (s.blocks.length + 1) len
  let m := copy m iovBaseNative (iovec.get m (msgIovAt m message i) .iovBase) len
  let m := iovec.set m iovNative .iovBase iovBaseNative
  if (i + 1) * iovec.sizeof ≤ s.iovArrayNative.size then
    .ok { s with
      mem := copy m (iovAt s.iovArrayNative.base i) iovNative iovec.sizeof
      blocks := s.blocks ++ [⟨iovNative, iovec.sizeof⟩, ⟨iovBaseNative, len⟩] }
  else .error .outOfBounds

/-- The loop from counter `i` on, where `room` values of `int` are left to the counter. -/
def copyIovecs : ℕ → ℕ → Native → Except Undefined Native
  | 0, _, _ => .error .overflow
  | room + 1, i, s =>
    if i < msghdr.get s.mem message .msgIovlen then do
      let s ← copyIovec ocalloc message i s
      copyIovecs room (i + 1) s
    else .ok s

/-- What `ocall_sendmsg` is handed; the counter of the loop counts from 0 to `INT_MAX`. -/
def nativeMessage (m : Mem) : Except Undefined Native :=
  copyIovecs ocalloc message (2 ^ 31) 0 (copyHeader ocalloc message m)

end Copy

/-- How `ocall_sendmsg` comes back. -/
structure Sent where
  status : ℕ
  retval : ℤ

def sendmsg (ocalloc : ℕ → ℕ → ℕ) (ocallSendmsg : ℤ → Mem → ℕ → ℤ → Sent) (m : Mem) (socket : ℤ)
    (message : ℕ) (flags : ℤ) : Except Undefined (Option ℤ) := do
  let native ← nativeMessage ocalloc message m
  let sent := ocallSendmsg socket native.mem native.messageNative flags
  return orExit sent.status sent.retval

section Specification

def sendmsgSize (m : Mem) (message : ℕ) : ℕ → ℕ
  | 0 => msghdr.sizeof
  | 1 => msghdr.get m message .msgControllen
  | 2 => msghdr.get m message .msgNamelen
  | 3 => msghdr.get m message .msgIovlen * iovec.sizeof % 2 ^ 64
  | k + 4 => if k % 2 = 0 then iovec.sizeof else iovec.get m (msgIovAt m message (k / 2)) .iovLen

/-- The addresses of a message: its header, its name, its control block, its array of vectors and
what the vectors point to. -/
def footprint (m : Mem) (message : ℕ) : Set ℕ := fun a =>
  a ∈ msghdr.record message ∨
  a ∈ block (msghdr.get m message .msgName) (msghdr.get m message .msgNamelen) ∨
  a ∈ block (msghdr.get m message .msgControl) (msghdr.get m message .msgControllen) ∨
  ∃ i < msghdr.get m message .msgIovlen, a ∈ iovec.record (msgIovAt m message i) ∨
    a ∈ block (iovec.get m (msgIovAt m message i) .iovBase)
      (iovec.get m (msgIovAt m message i) .iovLen)

/-- What the host finds from the native header on. -/
def Native.copies (s : Native) : List Region :=
  ⟨s.messageNative, msghdr.sizeof⟩ ::
  ⟨msghdr.get s.mem s.messageNative .msgControl, msghdr.get s.mem s.messageNative .msgControllen⟩ ::
  ⟨msghdr.get s.mem s.messageNative .msgName, msghdr.get s.mem s.messageNative .msgNamelen⟩ ::
  ⟨msghdr.get s.mem s.messageNative .msgIov,
    msghdr.get s.mem s.messageNative .msgIovlen * iovec.sizeof⟩ ::
  (List.range (msghdr.get s.mem s.messageNative .msgIovlen)).map fun i =>
    ⟨iovec.get s.mem (msgIovAt s.mem s.messageNative i) .iovBase,
      iovec.get s.mem (msgIovAt s.mem s.messageNative i) .iovLen⟩

/-- The native message is a deep copy of the message, in disjoint blocks of this call that lie
outside the enclave, and the message itself is as it was. -/
structure Faithful (enclave : Region) (m : Mem) (message : ℕ) (s : Native) : Prop where
  fields : ∀ f ∈ [Msghdr.msgFlags, .msgNamelen, .msgIovlen, .msgControllen],
    msghdr.get s.mem s.messageNative f = msghdr.get m message f
  name : load s.mem (msghdr.get s.mem s.messageNative .msgName)
      (msghdr.get m message .msgNamelen) =
    load m (msghdr.get m message .msgName) (msghdr.get m message .msgNamelen)
  control : load s.mem (msghdr.get s.mem s.messageNative .msgControl)
      (msghdr.get m message .msgControllen) =
    load m (msghdr.get m message .msgControl) (msghdr.get m message .msgControllen)
  vectors : ∀ i < msghdr.get m message .msgIovlen,
    iovec.get s.mem (msgIovAt s.mem s.messageNative i) .iovLen =
      iovec.get m (msgIovAt m message i) .iovLen ∧
    load s.mem (iovec.get s.mem (msgIovAt s.mem s.messageNative i) .iovBase)
        (iovec.get m (msgIovAt m message i) .iovLen) =
      load m (iovec.get m (msgIovAt m message i) .iovBase)
        (iovec.get m (msgIovAt m message i) .iovLen)
  obtained : ∀ r ∈ s.copies, r ∈ s.blocks
  outside : ∀ r ∈ s.copies, Disjoint r.addresses enclave.addresses
  apart : s.copies.Pairwise fun r t => Disjoint r.addresses t.addresses
  unchanged : Set.EqOn s.mem m (footprint m message)

end Specification

section Invariant

variable (ocalloc : ℕ → ℕ → ℕ) (m : Mem) (message : ℕ)

def sendmsgBlock (k : ℕ) : Region := granted ocalloc (sendmsgSize m message) k

def nativeField : Msghdr → ℕ
  | .msgName => (sendmsgBlock ocalloc m message 2).base
  | .msgIov => (sendmsgBlock ocalloc m message 3).base
  | .msgControl => (sendmsgBlock ocalloc m message 1).base
  | f => msghdr.get m message f

structure VectorCopied (s : Native) (i : ℕ) : Prop where
  base : iovec.get s.mem (iovAt s.iovArrayNative.base i) .iovBase =
    (sendmsgBlock ocalloc m message (2 * i + 5)).base
  len : iovec.get s.mem (iovAt s.iovArrayNative.base i) .iovLen =
    iovec.get m (msgIovAt m message i) .iovLen
  bytes : load s.mem (sendmsgBlock ocalloc m message (2 * i + 5)).base
      (iovec.get m (msgIovAt m message i) .iovLen) =
    load m (iovec.get m (msgIovAt m message i) .iovBase)
      (iovec.get m (msgIovAt m message i) .iovLen)

structure Copied (inUse : Set ℕ) (i : ℕ) (s : Native) : Prop where
  messageNative : s.messageNative = (sendmsgBlock ocalloc m message 0).base
  iovArrayNative : s.iovArrayNative = sendmsgBlock ocalloc m message 3
  blocks : s.blocks = (List.range (2 * i + 4)).map (sendmsgBlock ocalloc m message)
  unchanged : Set.EqOn s.mem m inUse
  name : Set.EqOn s.mem m (sendmsgBlock ocalloc m message 2).addresses
  header : ∀ f, msghdr.get s.mem s.messageNative f = nativeField ocalloc m message f
  control : load s.mem (sendmsgBlock ocalloc m message 1).base
      (msghdr.get m message .msgControllen) =
    load m (msghdr.get m message .msgControl) (msghdr.get m message .msgControllen)
  vectors : ∀ j < i, VectorCopied ocalloc m message s j

end Invariant

section Disjointness

variable {ocalloc : ℕ → ℕ → ℕ} {m : Mem} {message i : ℕ}

theorem header_subset_footprint : msghdr.record message ⊆ footprint m message := fun _ ha =>
  Or.inl ha

theorem control_subset_footprint :
    block (msghdr.get m message .msgControl) (msghdr.get m message .msgControllen) ⊆
      footprint m message := fun _ ha => Or.inr (Or.inr (Or.inl ha))

theorem vector_subset_footprint (hi : i < msghdr.get m message .msgIovlen) :
    iovec.record (msgIovAt m message i) ⊆ footprint m message := fun _ ha =>
  Or.inr (Or.inr (Or.inr ⟨i, hi, Or.inl ha⟩))

theorem bytes_subset_footprint (hi : i < msghdr.get m message .msgIovlen) :
    block (iovec.get m (msgIovAt m message i) .iovBase)
      (iovec.get m (msgIovAt m message i) .iovLen) ⊆ footprint m message := fun _ ha =>
  Or.inr (Or.inr (Or.inr ⟨i, hi, Or.inr ha⟩))

end Disjointness

section Header

variable {ocalloc : ℕ → ℕ → ℕ} {m : Mem} {message : ℕ} {inUse : Set ℕ}

/-- The memory at the start of the loop, in terms of the memory at the start of the call. -/
def headerMem (ocalloc : ℕ → ℕ → ℕ) (m : Mem) (message : ℕ) : Mem :=
  let native := (sendmsgBlock ocalloc m message 0).base
  let fields := msghdr.set (msghdr.set (msghdr.set (msghdr.set m
    native .msgControllen (msghdr.get m message .msgControllen))
    native .msgFlags (msghdr.get m message .msgFlags))
    native .msgIovlen (msghdr.get m message .msgIovlen))
    native .msgNamelen (msghdr.get m message .msgNamelen)
  let control := copy fields (sendmsgBlock ocalloc m message 1).base
    (msghdr.get m message .msgControl) (msghdr.get m message .msgControllen)
  msghdr.set (msghdr.set (msghdr.set control
    native .msgControl (sendmsgBlock ocalloc m message 1).base)
    native .msgName (sendmsgBlock ocalloc m message 2).base)
    native .msgIov (sendmsgBlock ocalloc m message 3).base

theorem copyHeader_eq (hU : footprint m message ⊆ inUse)
    (hfresh : Fresh inUse ocalloc (sendmsgSize m message) 4) :
    copyHeader ocalloc message m =
      { mem := headerMem ocalloc m message
        blocks := (List.range 4).map (sendmsgBlock ocalloc m message)
        messageNative := (sendmsgBlock ocalloc m message 0).base
        iovArrayNative := sendmsgBlock ocalloc m message 3 } := by
  have hmessage : msghdr.record message ⊆ inUse := header_subset_footprint.trans hU
  have hset (m' : Mem) (f g : Msghdr) (v : ℕ) :
      msghdr.get (msghdr.set m' (ocalloc 0 msghdr.sizeof) f v) message g =
        msghdr.get m' message g :=
    Layout.get_set_of_disjoint ((hfresh.unused 0 (by decide)).mono_right hmessage).symm
  have hcopy (m' : Mem) (g : Msghdr) (r : ℕ) :
      msghdr.get (copy m' (ocalloc 1 (msghdr.get m message .msgControllen)) r
        (msghdr.get m message .msgControllen)) message g = msghdr.get m' message g :=
    Layout.get_copy_of_disjoint ((hfresh.unused 1 (by decide)).mono_right hmessage).symm
  simp only [copyHeader, hset, hcopy]
  rfl

theorem eqOn_headerMem {S : Set ℕ}
    (hnative : Disjoint (sendmsgBlock ocalloc m message 0).addresses S)
    (hcontrol : Disjoint (sendmsgBlock ocalloc m message 1).addresses S) :
    Set.EqOn (headerMem ocalloc m message) m S := by
  have hfields {m' : Mem} {f : Msghdr} {v : ℕ} (h : Set.EqOn m' m S) :
      Set.EqOn (msghdr.set m' (sendmsgBlock ocalloc m message 0).base f v) m S :=
    Layout.eqOn_set h hnative
  have hcopy {m' : Mem} {r : ℕ} (h : Set.EqOn m' m S) :
      Set.EqOn (copy m' (sendmsgBlock ocalloc m message 1).base r
        (msghdr.get m message .msgControllen)) m S :=
    eqOn_copy_of_disjoint h hcontrol
  exact hfields (hfields (hfields (hcopy (hfields (hfields (hfields (hfields
    (Set.eqOn_refl m S))))))))

theorem get_headerMem (hfresh : Fresh inUse ocalloc (sendmsgSize m message) 4) (f : Msghdr) :
    msghdr.get (headerMem ocalloc m message) (sendmsgBlock ocalloc m message 0).base f =
      nativeField ocalloc m message f := by
  have hcopy (m' : Mem) (g : Msghdr) (r : ℕ) :
      msghdr.get (copy m' (sendmsgBlock ocalloc m message 1).base r
          (msghdr.get m message .msgControllen)) (sendmsgBlock ocalloc m message 0).base g =
        msghdr.get m' (sendmsgBlock ocalloc m message 0).base g :=
    Layout.get_copy_of_disjoint (hfresh.apart 0 1 (by decide) (by decide))
  have hpointer {k : ℕ} (hk : k < 4) : (sendmsgBlock ocalloc m message k).base < 256 ^ 8 :=
    hfresh.pointer k hk
  cases f with
  | msgIov => exact Layout.get_set (hpointer (by decide))
  | msgName =>
    rw [headerMem, Layout.get_set_of_ne (by decide)]
    exact Layout.get_set (hpointer (by decide))
  | msgControl =>
    rw [headerMem, Layout.get_set_of_ne (by decide), Layout.get_set_of_ne (by decide)]
    exact Layout.get_set (hpointer (by decide))
  | msgNamelen | msgIovlen | msgFlags | msgControllen =>
    simp only [headerMem, Layout.get_set_of_ne, hcopy, ne_eq, reduceCtorEq, not_false_eq_true]
    exact Layout.get_set Layout.get_lt

theorem load_headerMem_control (hU : footprint m message ⊆ inUse)
    (hfresh : Fresh inUse ocalloc (sendmsgSize m message) 4) :
    load (headerMem ocalloc m message) (sendmsgBlock ocalloc m message 1).base
        (msghdr.get m message .msgControllen) =
      load m (msghdr.get m message .msgControl) (msghdr.get m message .msgControllen) := by
  have hnative : Disjoint (block (sendmsgBlock ocalloc m message 1).base
      (msghdr.get m message .msgControllen))
      (msghdr.record (sendmsgBlock ocalloc m message 0).base) :=
    (hfresh.apart 0 1 (by decide) (by decide)).symm
  have hsource : Disjoint (block (msghdr.get m message .msgControl)
      (msghdr.get m message .msgControllen))
      (msghdr.record (sendmsgBlock ocalloc m message 0).base) :=
    ((hfresh.unused 0 (by decide)).mono_right (control_subset_footprint.trans hU)).symm
  simp only [headerMem, Layout.load_set_of_disjoint hnative, load_copy,
    Layout.load_set_of_disjoint hsource]

theorem copied_copyHeader (hU : footprint m message ⊆ inUse)
    (hfresh : Fresh inUse ocalloc (sendmsgSize m message) 4) :
    Copied ocalloc m message inUse 0 (copyHeader ocalloc message m) := by
  rw [copyHeader_eq hU hfresh]
  constructor
  case messageNative => rfl
  case iovArrayNative => rfl
  case blocks => rfl
  case unchanged =>
    exact eqOn_headerMem (hfresh.unused 0 (by decide)) (hfresh.unused 1 (by decide))
  case name =>
    exact eqOn_headerMem (hfresh.apart 0 2 (by decide) (by decide))
      (hfresh.apart 1 2 (by decide) (by decide))
  case header => exact get_headerMem hfresh
  case control => exact load_headerMem_control hU hfresh
  case vectors => exact fun j hj => absurd hj (Nat.not_lt_zero j)

end Header

section Loop

variable {ocalloc : ℕ → ℕ → ℕ} {m : Mem} {message i n : ℕ} {inUse : Set ℕ} {s : Native}

theorem sendmsgBlock_vector : sendmsgBlock ocalloc m message (2 * i + 4) =
    ⟨ocalloc (2 * i + 4) iovec.sizeof, iovec.sizeof⟩ := by
  have hsize : sendmsgSize m message (2 * i + 4) = iovec.sizeof := by
    simp [sendmsgSize]
  rw [sendmsgBlock, granted, hsize]

theorem sendmsgBlock_bytes : sendmsgBlock ocalloc m message (2 * i + 5) =
    ⟨ocalloc (2 * i + 5) (iovec.get m (msgIovAt m message i) .iovLen),
      iovec.get m (msgIovAt m message i) .iovLen⟩ := by
  have hdiv : (2 * i + 1) / 2 = i := by omega
  have hsize : sendmsgSize m message (2 * i + 5) =
      iovec.get m (msgIovAt m message i) .iovLen := by
    change (if (2 * i + 1) % 2 = 0 then iovec.sizeof
      else iovec.get m (msgIovAt m message ((2 * i + 1) / 2)) .iovLen) = _
    rw [if_neg (by omega), hdiv]
  rw [sendmsgBlock, granted, hsize]

/-- The memory after the body of the loop, in terms of the memory `m` at the start of the call. -/
def vectorMem (ocalloc : ℕ → ℕ → ℕ) (m : Mem) (message i : ℕ) (before : Mem) : Mem :=
  let native := (sendmsgBlock ocalloc m message (2 * i + 4)).base
  let bytes := (sendmsgBlock ocalloc m message (2 * i + 5)).base
  let len := iovec.get m (msgIovAt m message i) .iovLen
  let filled := copy (iovec.set before native .iovLen len) bytes
    (iovec.get m (msgIovAt m message i) .iovBase) len
  copy (iovec.set filled native .iovBase bytes)
    (iovAt (sendmsgBlock ocalloc m message 3).base i) native iovec.sizeof

theorem get_vector_congr {m' : Mem} (hU : footprint m message ⊆ inUse) (hm : Set.EqOn m' m inUse)
    (hi : i < msghdr.get m message .msgIovlen) (f : Iovec) :
    iovec.get m' (msgIovAt m' message i) f = iovec.get m (msgIovAt m message i) f := by
  have hiov : msghdr.get m' message .msgIov = msghdr.get m message .msgIov :=
    Layout.get_congr (hm.mono (header_subset_footprint.trans hU))
  rw [msgIovAt, hiov]
  exact Layout.get_congr (hm.mono ((vector_subset_footprint hi).trans hU))

theorem copyIovec_eq (hU : footprint m message ⊆ inUse)
    (hfresh : Fresh inUse ocalloc (sendmsgSize m message) n) (hn : 2 * i + 5 < n)
    (hi : i < msghdr.get m message .msgIovlen) (hs : Copied ocalloc m message inUse i s) :
    copyIovec ocalloc message i s =
      if (i + 1) * iovec.sizeof ≤ (sendmsgBlock ocalloc m message 3).size then
        .ok { s with
          mem := vectorMem ocalloc m message i s.mem
          blocks := s.blocks ++ [sendmsgBlock ocalloc m message (2 * i + 4),
            sendmsgBlock ocalloc m message (2 * i + 5)] }
      else .error .outOfBounds := by
  have hlength : s.blocks.length = 2 * i + 4 := by simp [hs.blocks]
  have hlen := get_vector_congr hU hs.unchanged hi .iovLen
  have hset : Set.EqOn (iovec.set s.mem (ocalloc (2 * i + 4) iovec.sizeof) .iovLen
      (iovec.get m (msgIovAt m message i) .iovLen)) m inUse := by
    have hunused := hfresh.unused (2 * i + 4) (by omega)
    rw [← sendmsgBlock, sendmsgBlock_vector] at hunused
    exact Layout.eqOn_set hs.unchanged hunused
  have hbase := get_vector_congr hU hset hi .iovBase
  simp only [copyIovec, hlength, hlen, hbase, hs.iovArrayNative, vectorMem, sendmsgBlock_vector,
    sendmsgBlock_bytes]

theorem slot_subset
    (hfit : (i + 1) * iovec.sizeof ≤ (sendmsgBlock ocalloc m message 3).size) :
    iovec.record (iovAt (sendmsgBlock ocalloc m message 3).base i) ⊆
      (sendmsgBlock ocalloc m message 3).addresses := by
  rw [Nat.add_one_mul] at hfit
  exact block_subset (Nat.le_add_right _ _) (by unfold iovAt; omega)

theorem slots_apart {j : ℕ} (hj : j < i) (p : ℕ) :
    Disjoint (iovec.record (iovAt p i)) (iovec.record (iovAt p j)) := by
  have hle : (j + 1) * iovec.sizeof ≤ i * iovec.sizeof := Nat.mul_le_mul_right _ hj
  rw [Nat.add_one_mul] at hle
  unfold Layout.record iovAt
  rw [disjoint_block_iff]
  omega

theorem eqOn_vectorMem {S : Set ℕ} {before after : Mem} (hbefore : Set.EqOn before after S)
    (hvector : Disjoint (sendmsgBlock ocalloc m message (2 * i + 4)).addresses S)
    (hbytes : Disjoint (sendmsgBlock ocalloc m message (2 * i + 5)).addresses S)
    (hslot : Disjoint (iovec.record (iovAt (sendmsgBlock ocalloc m message 3).base i)) S) :
    Set.EqOn (vectorMem ocalloc m message i before) after S := by
  rw [sendmsgBlock_vector] at hvector
  rw [sendmsgBlock_bytes] at hbytes
  rw [vectorMem, sendmsgBlock_vector, sendmsgBlock_bytes]
  exact eqOn_copy_of_disjoint (Layout.eqOn_set
    (eqOn_copy_of_disjoint (Layout.eqOn_set hbefore hvector) hbytes) hvector) hslot

theorem vectorCopied_vectorMem (hU : footprint m message ⊆ inUse)
    (hfresh : Fresh inUse ocalloc (sendmsgSize m message) n) (hn : 2 * i + 5 < n)
    (hi : i < msghdr.get m message .msgIovlen)
    (hfit : (i + 1) * iovec.sizeof ≤ (sendmsgBlock ocalloc m message 3).size)
    (hs : Set.EqOn s.mem m inUse) (harray : s.iovArrayNative = sendmsgBlock ocalloc m message 3)
    (bs : List Region) :
    VectorCopied ocalloc m message
      { s with mem := vectorMem ocalloc m message i s.mem, blocks := bs } i := by
  have hvector : Disjoint (block (sendmsgBlock ocalloc m message (2 * i + 5)).base
      (iovec.get m (msgIovAt m message i) .iovLen))
      (iovec.record (sendmsgBlock ocalloc m message (2 * i + 4)).base) := by
    have h := (hfresh.disjoint (j := 2 * i + 5) (k := 2 * i + 4) hn (by omega) (by omega))
    rw [← sendmsgBlock, ← sendmsgBlock, sendmsgBlock_vector, sendmsgBlock_bytes] at h
    rwa [sendmsgBlock_vector, sendmsgBlock_bytes]
  have hslot : Disjoint (block (sendmsgBlock ocalloc m message (2 * i + 5)).base
      (iovec.get m (msgIovAt m message i) .iovLen))
      (iovec.record (iovAt (sendmsgBlock ocalloc m message 3).base i)) := by
    have h := (hfresh.disjoint (j := 2 * i + 5) (k := 3) hn (by omega) (by omega)).mono_right
      (slot_subset hfit)
    rw [← sendmsgBlock, sendmsgBlock_bytes] at h
    rwa [sendmsgBlock_bytes]
  have hsource : load (iovec.set s.mem (sendmsgBlock ocalloc m message (2 * i + 4)).base .iovLen
      (iovec.get m (msgIovAt m message i) .iovLen)) (iovec.get m (msgIovAt m message i) .iovBase)
      (iovec.get m (msgIovAt m message i) .iovLen) =
      load m (iovec.get m (msgIovAt m message i) .iovBase)
        (iovec.get m (msgIovAt m message i) .iovLen) := by
    have hunused := hfresh.unused (2 * i + 4) (by omega)
    rw [← sendmsgBlock, sendmsgBlock_vector] at hunused
    rw [sendmsgBlock_vector]
    exact load_eq_iff.mpr
      ((Layout.eqOn_set hs hunused).mono ((bytes_subset_footprint hi).trans hU))
  constructor
  case base =>
    rw [harray]
    exact (Layout.get_eq_of_load load_copy).trans (Layout.get_set (hfresh.pointer _ hn))
  case len =>
    rw [harray]
    refine (Layout.get_eq_of_load load_copy).trans ?_
    rw [Layout.get_set_of_ne (by decide), Layout.get_copy_of_disjoint hvector.symm]
    exact Layout.get_set Layout.get_lt
  case bytes =>
    change load (vectorMem ocalloc m message i s.mem) _ _ = _
    rw [vectorMem, load_copy_of_disjoint hslot, Layout.load_set_of_disjoint hvector, load_copy,
      hsource]

theorem VectorCopied.vectorMem {j : ℕ} (hj : VectorCopied ocalloc m message s j) (hji : j < i)
    (hfresh : Fresh inUse ocalloc (sendmsgSize m message) n) (hn : 2 * i + 5 < n)
    (hfit : (i + 1) * iovec.sizeof ≤ (sendmsgBlock ocalloc m message 3).size)
    (harray : s.iovArrayNative = sendmsgBlock ocalloc m message 3) (bs : List Region) :
    VectorCopied ocalloc m message
      { s with mem := vectorMem ocalloc m message i s.mem, blocks := bs } j := by
  have hdisjoint {k l : ℕ} (hk : k < n) (hl : l < n) (hne : k ≠ l) :
      Disjoint (sendmsgBlock ocalloc m message k).addresses
        (sendmsgBlock ocalloc m message l).addresses := hfresh.disjoint hk hl hne
  have hjfit : (j + 1) * iovec.sizeof ≤ (sendmsgBlock ocalloc m message 3).size :=
    (Nat.mul_le_mul_right _ (by omega)).trans hfit
  have hslot : Set.EqOn (Host.vectorMem ocalloc m message i s.mem) s.mem
      (iovec.record (iovAt (sendmsgBlock ocalloc m message 3).base j)) := by
    apply eqOn_vectorMem (Set.eqOn_refl _ _)
    · exact (hdisjoint (by omega) (by omega) (by omega)).mono_right (slot_subset hjfit)
    · exact (hdisjoint hn (by omega) (by omega)).mono_right (slot_subset hjfit)
    · exact slots_apart hji _
  have hbytes : Set.EqOn (Host.vectorMem ocalloc m message i s.mem) s.mem
      (sendmsgBlock ocalloc m message (2 * j + 5)).addresses := by
    apply eqOn_vectorMem (Set.eqOn_refl _ _)
    · exact hdisjoint (by omega) (by omega) (by omega)
    · exact hdisjoint hn (by omega) (by omega)
    · exact (hdisjoint (by omega) (by omega) (by omega)).mono_left (slot_subset hfit)
  rw [sendmsgBlock_bytes] at hbytes
  obtain ⟨hbase, hlen, hload⟩ := hj
  rw [harray] at hbase hlen
  constructor
  case base => rw [← hbase, harray, Layout.get_congr hslot]
  case len => rw [← hlen, harray, Layout.get_congr hslot]
  case bytes =>
    rw [← hload, sendmsgBlock_bytes]
    exact load_eq_iff.mpr hbytes

theorem copied_succ (hU : footprint m message ⊆ inUse)
    (hfresh : Fresh inUse ocalloc (sendmsgSize m message) n) (hn : 2 * i + 5 < n)
    (hi : i < msghdr.get m message .msgIovlen)
    (hfit : (i + 1) * iovec.sizeof ≤ (sendmsgBlock ocalloc m message 3).size)
    (hs : Copied ocalloc m message inUse i s) :
    Copied ocalloc m message inUse (i + 1)
      { s with
        mem := vectorMem ocalloc m message i s.mem
        blocks := s.blocks ++ [sendmsgBlock ocalloc m message (2 * i + 4),
          sendmsgBlock ocalloc m message (2 * i + 5)] } := by
  have hdisjoint {k l : ℕ} (hk : k < n) (hl : l < n) (hne : k ≠ l) :
      Disjoint (sendmsgBlock ocalloc m message k).addresses
        (sendmsgBlock ocalloc m message l).addresses := hfresh.disjoint hk hl hne
  have hunused {k : ℕ} (hk : k < n) :
      Disjoint (sendmsgBlock ocalloc m message k).addresses inUse := hfresh.unused k hk
  have hkept {k : ℕ} {after : Mem} (hk : k < 3)
      (h : Set.EqOn s.mem after (sendmsgBlock ocalloc m message k).addresses) :
      Set.EqOn (vectorMem ocalloc m message i s.mem) after
        (sendmsgBlock ocalloc m message k).addresses := by
    apply eqOn_vectorMem h
    · exact hdisjoint (by omega) (by omega) (by omega)
    · exact hdisjoint hn (by omega) (by omega)
    · exact (hdisjoint (by omega) (by omega) (by omega)).mono_left (slot_subset hfit)
  constructor
  case messageNative => exact hs.messageNative
  case iovArrayNative => exact hs.iovArrayNative
  case blocks =>
    have hrange : List.range (2 * (i + 1) + 4) =
        List.range (2 * i + 4) ++ [2 * i + 4, 2 * i + 5] := by
      rw [Nat.mul_succ, Nat.add_right_comm, List.range_add]
      rfl
    rw [hrange, List.map_append, ← hs.blocks]
    rfl
  case unchanged =>
    apply eqOn_vectorMem hs.unchanged
    · exact hunused (by omega)
    · exact hunused hn
    · exact (hunused (by omega)).mono_left (slot_subset hfit)
  case name => exact hkept (by decide) hs.name
  case header =>
    intro f
    have hheader : Set.EqOn (vectorMem ocalloc m message i s.mem) s.mem
        (msghdr.record s.messageNative) := by
      rw [hs.messageNative]
      exact hkept (k := 0) (by decide) (Set.eqOn_refl _ _)
    exact (Layout.get_congr hheader).trans (hs.header f)
  case control =>
    have hcontrol := hkept (k := 1) (by decide) (Set.eqOn_refl s.mem _)
    exact (load_eq_iff.mpr hcontrol).trans hs.control
  case vectors =>
    intro j hj
    rcases Nat.lt_succ_iff_lt_or_eq.mp hj with hlt | rfl
    · exact (hs.vectors j hlt).vectorMem hlt hfresh hn hfit hs.iovArrayNative _
    · exact vectorCopied_vectorMem hU hfresh hn hi hfit hs.unchanged hs.iovArrayNative _

/-- The loop still reads the number of vectors that the message had before the call. -/
theorem Copied.iovlen_eq (hU : footprint m message ⊆ inUse)
    (hs : Copied ocalloc m message inUse i s) :
    msghdr.get s.mem message .msgIovlen = msghdr.get m message .msgIovlen :=
  Layout.get_congr (hs.unchanged.mono (header_subset_footprint.trans hU))

theorem copyIovecs_ok (hU : footprint m message ⊆ inUse)
    (hfresh : Fresh inUse ocalloc (sendmsgSize m message)
      (2 * msghdr.get m message .msgIovlen + 4))
    (hfit : msghdr.get m message .msgIovlen * iovec.sizeof ≤
      (sendmsgBlock ocalloc m message 3).size) (room : ℕ)
    (hroom : msghdr.get m message .msgIovlen < i + room) (hi : i ≤ msghdr.get m message .msgIovlen)
    (hs : Copied ocalloc m message inUse i s) :
    ∃ s', copyIovecs ocalloc message room i s = .ok s' ∧
      Copied ocalloc m message inUse (msghdr.get m message .msgIovlen) s' := by
  induction room generalizing i s with
  | zero => omega
  | succ room ih =>
    have hiovlen := hs.iovlen_eq hU
    rcases Nat.lt_or_eq_of_le hi with hlt | heq
    · have hmul : (i + 1) * iovec.sizeof ≤ msghdr.get m message .msgIovlen * iovec.sizeof :=
        Nat.mul_le_mul_right iovec.sizeof hlt
      have hnext := hmul.trans hfit
      have hbody := copyIovec_eq hU hfresh (by omega) hlt hs
      rw [if_pos hnext] at hbody
      rw [copyIovecs, hiovlen, if_pos hlt, hbody]
      exact ih (by omega) hlt (copied_succ hU hfresh (by omega) hlt hnext hs)
    · rw [copyIovecs, hiovlen, if_neg (by omega)]
      exact ⟨s, rfl, heq ▸ hs⟩

/-- Without room for all the vectors the loop ends in undefined behaviour. -/
theorem copyIovecs_error (hU : footprint m message ⊆ inUse)
    (hfresh : Fresh inUse ocalloc (sendmsgSize m message)
      (2 * msghdr.get m message .msgIovlen + 4)) (room : ℕ)
    (hroom : i + room ≤ msghdr.get m message .msgIovlen)
    (hs : Copied ocalloc m message inUse i s) :
    ∃ e, copyIovecs ocalloc message room i s = .error e := by
  induction room generalizing i s with
  | zero => exact ⟨.overflow, rfl⟩
  | succ room ih =>
    have hiovlen := hs.iovlen_eq hU
    have hlt : i < msghdr.get m message .msgIovlen := by omega
    have hbody := copyIovec_eq hU hfresh (by omega) hlt hs
    rw [copyIovecs, hiovlen, if_pos hlt, hbody]
    split
    case isTrue hnext =>
      exact ih (by omega) (copied_succ hU hfresh (by omega) hlt hnext hs)
    case isFalse => exact ⟨.outOfBounds, rfl⟩

end Loop

section Result

variable {ocalloc : ℕ → ℕ → ℕ} {m : Mem} {message : ℕ} {enclave : Region} {inUse : Set ℕ}
  {s : Native}

def reachedBlocks (n : ℕ) : List ℕ := [0, 1, 2, 3] ++ (List.range n).map (2 * · + 5)

theorem lt_of_mem_reachedBlocks {n k : ℕ} (h : k ∈ reachedBlocks n) : k < 2 * n + 4 := by
  simp only [reachedBlocks, List.mem_append, List.mem_cons, List.not_mem_nil, or_false,
    List.mem_map, List.mem_range] at h
  rcases h with h | ⟨i, hi, rfl⟩
  · omega
  · omega

theorem pairwise_reachedBlocks (n : ℕ) : (reachedBlocks n).Pairwise (· < ·) := by
  have hrange : ((List.range n).map (2 * · + 5)).Pairwise (· < ·) :=
    List.pairwise_map.mpr (List.pairwise_lt_range.imp fun hij => by omega)
  refine List.pairwise_append.mpr ⟨by decide, hrange, ?_⟩
  intro a ha b hb
  obtain ⟨i, -, rfl⟩ := List.mem_map.mp hb
  simp only [List.mem_cons, List.not_mem_nil, or_false] at ha
  omega

theorem Copied.copies_eq
    (hsize : (sendmsgBlock ocalloc m message 3).size =
      msghdr.get m message .msgIovlen * iovec.sizeof)
    (hs : Copied ocalloc m message inUse (msghdr.get m message .msgIovlen) s) :
    s.copies = (reachedBlocks (msghdr.get m message .msgIovlen)).map
      (sendmsgBlock ocalloc m message) := by
  have hvectors : (List.range (msghdr.get m message .msgIovlen)).map (fun i =>
      (⟨iovec.get s.mem (msgIovAt s.mem s.messageNative i) .iovBase,
        iovec.get s.mem (msgIovAt s.mem s.messageNative i) .iovLen⟩ : Region)) =
      ((List.range (msghdr.get m message .msgIovlen)).map (2 * · + 5)).map
        (sendmsgBlock ocalloc m message) := by
    rw [List.map_map]
    apply List.map_congr_left
    intro i hi
    have hvector := hs.vectors i (List.mem_range.mp hi)
    have hat : msgIovAt s.mem s.messageNative i = iovAt s.iovArrayNative.base i := by
      rw [msgIovAt, hs.header, hs.iovArrayNative]
      rfl
    rw [hat, hvector.base, hvector.len, Function.comp_apply, sendmsgBlock_bytes]
  have hiovlen : msghdr.get s.mem s.messageNative .msgIovlen = msghdr.get m message .msgIovlen :=
    hs.header .msgIovlen
  have hheader : (⟨s.messageNative, msghdr.sizeof⟩ : Region) =
      sendmsgBlock ocalloc m message 0 := by
    rw [hs.messageNative]
    rfl
  have hcontrol : (⟨msghdr.get s.mem s.messageNative .msgControl,
      msghdr.get s.mem s.messageNative .msgControllen⟩ : Region) =
      sendmsgBlock ocalloc m message 1 := by
    rw [hs.header, hs.header]
    rfl
  have hname : (⟨msghdr.get s.mem s.messageNative .msgName,
      msghdr.get s.mem s.messageNative .msgNamelen⟩ : Region) =
      sendmsgBlock ocalloc m message 2 := by
    rw [hs.header, hs.header]
    rfl
  have hiov : (⟨msghdr.get s.mem s.messageNative .msgIov,
      msghdr.get s.mem s.messageNative .msgIovlen * iovec.sizeof⟩ : Region) =
      sendmsgBlock ocalloc m message 3 := by
    rw [hs.header, hiovlen, ← hsize]
    rfl
  rw [reachedBlocks, List.map_append, ← hvectors, ← hiovlen]
  simp only [List.map_cons, List.map_nil, List.cons_append, List.nil_append, ← hheader,
    ← hcontrol, ← hname, ← hiov]
  rfl

/-- What the loop leaves is a faithful copy if and only if the block for the name, which is not
written, held the name before the call. -/
theorem Copied.faithful_iff
    (hfresh : Fresh (enclave.addresses ∪ footprint m message) ocalloc (sendmsgSize m message)
      (2 * msghdr.get m message .msgIovlen + 4))
    (hsize : (sendmsgBlock ocalloc m message 3).size =
      msghdr.get m message .msgIovlen * iovec.sizeof)
    (hs : Copied ocalloc m message (enclave.addresses ∪ footprint m message)
      (msghdr.get m message .msgIovlen) s) :
    Faithful enclave m message s ↔
      load m (ocalloc 2 (msghdr.get m message .msgNamelen)) (msghdr.get m message .msgNamelen) =
        load m (msghdr.get m message .msgName) (msghdr.get m message .msgNamelen) := by
  have hname : load s.mem (msghdr.get s.mem s.messageNative .msgName)
      (msghdr.get m message .msgNamelen) =
      load m (ocalloc 2 (msghdr.get m message .msgNamelen)) (msghdr.get m message .msgNamelen) := by
    rw [hs.header]
    exact load_eq_iff.mpr hs.name
  have hcopies := hs.copies_eq hsize
  constructor
  · intro h
    exact hname.symm.trans h.name
  · intro hfilled
    constructor
    case fields =>
      intro f hf
      rw [hs.header]
      simp only [List.mem_cons, List.not_mem_nil, or_false] at hf
      rcases hf with rfl | rfl | rfl | rfl <;> rfl
    case name => exact hname.trans hfilled
    case control =>
      rw [hs.header]
      exact hs.control
    case vectors =>
      intro i hi
      have hvector := hs.vectors i hi
      have hat : msgIovAt s.mem s.messageNative i = iovAt s.iovArrayNative.base i := by
        rw [msgIovAt, hs.header, hs.iovArrayNative]
        rfl
      rw [hat, hvector.base]
      exact ⟨hvector.len, hvector.bytes⟩
    case obtained =>
      rw [hcopies, hs.blocks]
      intro r hr
      obtain ⟨k, hk, rfl⟩ := List.mem_map.mp hr
      exact List.mem_map_of_mem (List.mem_range.mpr (lt_of_mem_reachedBlocks hk))
    case outside =>
      rw [hcopies]
      intro r hr
      obtain ⟨k, hk, rfl⟩ := List.mem_map.mp hr
      exact (hfresh.unused k (lt_of_mem_reachedBlocks hk)).mono_right Set.subset_union_left
    case apart =>
      rw [hcopies]
      apply List.pairwise_map.mpr
      apply (pairwise_reachedBlocks _).imp_of_mem
      intro j k _ hk hjk
      exact hfresh.apart j k hjk (lt_of_mem_reachedBlocks hk)
    case unchanged => exact hs.unchanged.mono Set.subset_union_right

theorem nativeMessage_ok (hU : footprint m message ⊆ inUse)
    (hfresh : Fresh inUse ocalloc (sendmsgSize m message)
      (2 * msghdr.get m message .msgIovlen + 4))
    (hlt : msghdr.get m message .msgIovlen < 2 ^ 31) :
    ∃ s, nativeMessage ocalloc message m = .ok s ∧
      Copied ocalloc m message inUse (msghdr.get m message .msgIovlen) s ∧
      (sendmsgBlock ocalloc m message 3).size =
        msghdr.get m message .msgIovlen * iovec.sizeof := by
  have hstart := copied_copyHeader hU (hfresh.mono (by omega))
  have hwrap : msghdr.get m message .msgIovlen * 16 < 2 ^ 64 := by omega
  have hsize : (sendmsgBlock ocalloc m message 3).size =
      msghdr.get m message .msgIovlen * iovec.sizeof := Nat.mod_eq_of_lt hwrap
  obtain ⟨s, hrun, hs⟩ := copyIovecs_ok hU hfresh hsize.ge (2 ^ 31) (by omega)
    (Nat.zero_le _) hstart
  exact ⟨s, hrun, hs, hsize⟩

theorem nativeMessage_error (hU : footprint m message ⊆ inUse)
    (hfresh : Fresh inUse ocalloc (sendmsgSize m message)
      (2 * msghdr.get m message .msgIovlen + 4))
    (hge : 2 ^ 31 ≤ msghdr.get m message .msgIovlen) :
    ∃ e, nativeMessage ocalloc message m = .error e :=
  copyIovecs_error hU hfresh (2 ^ 31) (by omega) (copied_copyHeader hU (hfresh.mono (by omega)))

/-- For every message, `sendmsg` hands a faithful copy to the host if and only if the counter of
the loop can count the vectors and the block for the name happens to hold the name already. -/
theorem sendmsg_faithful_iff (enclave : Region) (ocalloc : ℕ → ℕ → ℕ) (m : Mem) (message : ℕ)
    (hfresh : Fresh (enclave.addresses ∪ footprint m message) ocalloc (sendmsgSize m message)
      (2 * msghdr.get m message .msgIovlen + 4)) :
    (∃ s, nativeMessage ocalloc message m = .ok s ∧ Faithful enclave m message s) ↔
      msghdr.get m message .msgIovlen < 2 ^ 31 ∧
      load m (ocalloc 2 (msghdr.get m message .msgNamelen)) (msghdr.get m message .msgNamelen) =
        load m (msghdr.get m message .msgName) (msghdr.get m message .msgNamelen) := by
  have hU : footprint m message ⊆ enclave.addresses ∪ footprint m message :=
    Set.subset_union_right
  rcases Nat.lt_or_ge (msghdr.get m message .msgIovlen) (2 ^ 31) with hlt | hge
  · obtain ⟨s, hrun, hs, hsize⟩ := nativeMessage_ok hU hfresh hlt
    have hfaithful := hs.faithful_iff hfresh hsize
    constructor
    · rintro ⟨s', hrun', hs'⟩
      cases hrun.symm.trans hrun'
      exact ⟨hlt, hfaithful.mp hs'⟩
    · rintro ⟨-, hfilled⟩
      exact ⟨s, hrun, hfaithful.mpr hfilled⟩
  · obtain ⟨e, hrun⟩ := nativeMessage_error hU hfresh hge
    constructor
    · rintro ⟨s', hrun', -⟩
      cases hrun.symm.trans hrun'
    · rintro ⟨hlt, -⟩
      omega

end Result

section Sample

def oneVector : Mem :=
  let m := iovec.set (fun _ => 7) 4160 .iovBase 4200
  let m := iovec.set m 4160 .iovLen 3
  let m := msghdr.set m 4096 .msgNamelen 0
  let m := msghdr.set m 4096 .msgControllen 0
  let m := msghdr.set m 4096 .msgIov 4160
  msghdr.set m 4096 .msgIovlen 1

theorem le_of_mem_inUse {m : Mem} {message a : ℕ} (hmessage : 4096 ≤ message)
    (hname : 4096 ≤ msghdr.get m message .msgName ∨ msghdr.get m message .msgNamelen = 0)
    (hcontrol : 4096 ≤ msghdr.get m message .msgControl ∨ msghdr.get m message .msgControllen = 0)
    (hvectors : ∀ i < msghdr.get m message .msgIovlen, 4096 ≤ msgIovAt m message i ∧
      4096 ≤ iovec.get m (msgIovAt m message i) .iovBase)
    (ha : a ∈ (⟨4096, 4096⟩ : Region).addresses ∪ footprint m message) : 4096 ≤ a := by
  rcases ha with ha | ha | ha | ha | ⟨i, hi, ha | ha⟩
  · exact ha.1
  · exact hmessage.trans ha.1
  · simp only [mem_block] at ha
    omega
  · simp only [mem_block] at ha
    omega
  · exact (hvectors i hi).1.trans ha.1
  · exact (hvectors i hi).2.trans ha.1

theorem sendmsg_faithful_iff_sample : ∃ s,
    nativeMessage belowEnclave 4096 oneVector = .ok s ∧
    Faithful ⟨4096, 4096⟩ oneVector 4096 s :=
  (sendmsg_faithful_iff ⟨4096, 4096⟩ belowEnclave oneVector 4096
    (belowEnclave_fresh (by decide) (by decide) fun _ =>
      le_of_mem_inUse (by decide) (by decide) (by decide) (by decide))).mpr
    ⟨by decide, by decide⟩

def oneByteName : Mem :=
  let m := storeNat (fun _ => 0) 4200 1 7
  let m := msghdr.set m 4096 .msgName 4200
  msghdr.set m 4096 .msgNamelen 1

/-- The host finds what its own memory held in place of the name. -/
theorem oneByteName_not_copied :
    Fresh ((⟨4096, 4096⟩ : Region).addresses ∪ footprint oneByteName 4096) belowEnclave
      (sendmsgSize oneByteName 4096) (2 * msghdr.get oneByteName 4096 .msgIovlen + 4) ∧
    load oneByteName (msghdr.get oneByteName 4096 .msgName) 1 = [7] ∧
    ∃ s, nativeMessage belowEnclave 4096 oneByteName = .ok s ∧
      load s.mem (msghdr.get s.mem s.messageNative .msgName) 1 = [0] ∧
      ¬ Faithful ⟨4096, 4096⟩ oneByteName 4096 s := by
  have hfresh : Fresh ((⟨4096, 4096⟩ : Region).addresses ∪ footprint oneByteName 4096)
      belowEnclave (sendmsgSize oneByteName 4096)
      (2 * msghdr.get oneByteName 4096 .msgIovlen + 4) :=
    belowEnclave_fresh (by decide) (by decide) fun _ =>
      le_of_mem_inUse (by decide) (by decide) (by decide) (by decide)
  obtain ⟨s, hrun, hs, hsize⟩ := nativeMessage_ok Set.subset_union_right hfresh (by decide)
  have hname : load s.mem (msghdr.get s.mem s.messageNative .msgName) 1 = [0] := by
    rw [hs.header]
    exact (load_eq_iff.mpr hs.name).trans (by decide)
  constructor
  · exact hfresh
  constructor
  · decide
  · refine ⟨s, hrun, hname, fun hfaithful => ?_⟩
    exact absurd ((hs.faithful_iff hfresh hsize).mp hfaithful) (by decide)

end Sample

end MongoSgx.Host
