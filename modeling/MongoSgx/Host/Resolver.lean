import MongoSgx.Host.Sockets
import MongoSgx.Memory.Layout

/-! # Answers of the resolver

`getaddrinfo` hands a list of records that the host has built to the code in the
enclave. It checks that the first record lies outside the enclave. The list stays
outside exactly when no record that is met on the way holds an address in the
enclave.
-/

namespace MongoSgx.Host

open Memory

def sgxIsOutsideEnclave (enclave : Region) (addr size : ℕ) : Bool :=
  decide (Disjoint (block addr size) enclave.addresses)

inductive Addrinfo where
  | aiFlags
  | aiFamily
  | aiSocktype
  | aiProtocol
  | aiAddrlen
  | aiAddr
  | aiCanonname
  | aiNext
  deriving DecidableEq

def addrinfo : Layout Addrinfo where
  sizeof := 48
  offset
    | .aiFlags => 0
    | .aiFamily => 4
    | .aiSocktype => 8
    | .aiProtocol => 12
    | .aiAddrlen => 16
    | .aiAddr => 24
    | .aiCanonname => 32
    | .aiNext => 40
  width
    | .aiFlags | .aiFamily | .aiSocktype | .aiProtocol | .aiAddrlen => 4
    | .aiAddr | .aiCanonname | .aiNext => 8
  fits f := by cases f <;> decide
  apart f g h := by cases f <;> cases g <;> first | exact absurd rfl h | decide

/-- How `ocall_getaddrinfo` comes back: the status of the call, the value that the resolver
returns, the pointer that it stores and the memory behind it. -/
structure Answer where
  status : ℕ
  retval : ℤ
  res : ℕ
  mem : Mem

/-- What the caller of `getaddrinfo` gets: the returned value and `*res`, with the memory in which
it is read. -/
structure Resolved where
  retval : ℤ
  res : ℕ
  mem : Mem

/-- There is no result where `sgx_exit` is called. -/
def getaddrinfo (enclave : Region) (ocallGetaddrinfo : ℕ → ℕ → ℕ → Answer)
    (node service hints : ℕ) : Option Resolved :=
  let answer := ocallGetaddrinfo node service hints
  if answer.status ≠ sgxSuccess then none
  else if ¬ sgxIsOutsideEnclave enclave answer.res addrinfo.sizeof then none
  else some ⟨answer.retval, answer.res, answer.mem⟩

def RecordOutside (enclave : Region) (p : ℕ) : Prop :=
  Disjoint (block p addrinfo.sizeof) enclave.addresses

def AddressOutside (enclave : Region) (m : Mem) (p : ℕ) : Prop :=
  Disjoint (block (addrinfo.get m p .aiAddr) (addrinfo.get m p .aiAddrlen)) enclave.addresses

/-- No record of the list and no address block of it reaches into the enclave. -/
def Resolved.Outside (enclave : Region) (r : Resolved) : Prop :=
  ∀ p, Reachable r.mem (addrinfo.offset .aiNext) r.res p →
    RecordOutside enclave p ∧ AddressOutside enclave r.mem p

/-- No pointer into the enclave is met on the way through the records that the host can have
written: neither the address block nor the next record reaches into the enclave. -/
def Answer.Clean (enclave : Region) (a : Answer) : Prop :=
  ∀ p, ReachableIn (RecordOutside enclave) a.mem (addrinfo.offset .aiNext) a.res p →
    AddressOutside enclave a.mem p ∧
      (addrinfo.get a.mem p .aiNext ≠ 0 → RecordOutside enclave (addrinfo.get a.mem p .aiNext))

variable {enclave : Region} {ocallGetaddrinfo : ℕ → ℕ → ℕ → Answer} {node service hints : ℕ}

theorem getaddrinfo_eq_some_iff {r : Resolved} :
    getaddrinfo enclave ocallGetaddrinfo node service hints = some r ↔
      (ocallGetaddrinfo node service hints).status = sgxSuccess ∧
      RecordOutside enclave (ocallGetaddrinfo node service hints).res ∧
      r = ⟨(ocallGetaddrinfo node service hints).retval, (ocallGetaddrinfo node service hints).res,
        (ocallGetaddrinfo node service hints).mem⟩ := by
  unfold getaddrinfo
  by_cases hstatus : (ocallGetaddrinfo node service hints).status = sgxSuccess
  · by_cases hhead : RecordOutside enclave (ocallGetaddrinfo node service hints).res
    · have hcheck : sgxIsOutsideEnclave enclave (ocallGetaddrinfo node service hints).res
          addrinfo.sizeof = true := decide_eq_true hhead
      simp [hstatus, hhead, hcheck, eq_comm]
    · have hcheck : sgxIsOutsideEnclave enclave (ocallGetaddrinfo node service hints).res
          addrinfo.sizeof = false := decide_eq_false hhead
      simp [hstatus, hhead, hcheck]
  · simp [hstatus]

theorem outside_iff_clean {a : Answer} (hhead : RecordOutside enclave a.res) :
    Resolved.Outside enclave ⟨a.retval, a.res, a.mem⟩ ↔ a.Clean enclave := by
  constructor
  · intro h p hp
    exact ⟨(h p hp.reachable).2, fun hnext => (h _ (hp.reachable.next hnext)).1⟩
  · intro h
    have hrecords : ∀ p, Reachable a.mem (addrinfo.offset .aiNext) a.res p →
        RecordOutside enclave p :=
      forall_reachable_iff.mpr ⟨fun _ => hhead, fun p hp => (h p hp).2⟩
    intro p hp
    exact ⟨hrecords p hp, (h p ((reachable_iff_reachableIn hrecords).mp hp)).1⟩

/-- For every list that the host may return, the call returns only a list that lies outside the
enclave if and only if it aborts, for the ocall failed or the first record touches the enclave, or
no pointer into the enclave is met on the way through the list. -/
theorem getaddrinfo_outside_iff (enclave : Region) (ocallGetaddrinfo : ℕ → ℕ → ℕ → Answer)
    (node service hints : ℕ) :
    (∀ r, getaddrinfo enclave ocallGetaddrinfo node service hints = some r → r.Outside enclave) ↔
      (ocallGetaddrinfo node service hints).status ≠ sgxSuccess ∨
      ¬ RecordOutside enclave (ocallGetaddrinfo node service hints).res ∨
      (ocallGetaddrinfo node service hints).Clean enclave := by
  by_cases hstatus : (ocallGetaddrinfo node service hints).status = sgxSuccess
  · by_cases hhead : RecordOutside enclave (ocallGetaddrinfo node service hints).res
    · have hclean := outside_iff_clean hhead
      simp only [getaddrinfo_eq_some_iff, hstatus, hhead, true_and, forall_eq, hclean, ne_eq,
        not_true_eq_false, false_or]
    · simp [getaddrinfo_eq_some_iff, hhead]
  · simp [getaddrinfo_eq_some_iff, hstatus]

def linkIntoEnclave : ℕ → ℕ → ℕ → Answer := fun _ _ _ =>
  { status := sgxSuccess
    retval := 0
    res := 256
    mem := addrinfo.set (fun _ => 0) 256 .aiNext 4096 }

/-- The second record of that list is memory of the enclave, and the call returns. -/
theorem linkIntoEnclave_returned : ∃ r,
    getaddrinfo ⟨4096, 4096⟩ linkIntoEnclave 0 0 0 = some r ∧ ¬ r.Outside ⟨4096, 4096⟩ := by
  have hhead : RecordOutside ⟨4096, 4096⟩ 256 := by
    unfold RecordOutside
    decide
  have hbody : ¬ RecordOutside ⟨4096, 4096⟩ 4096 := by
    unfold RecordOutside
    decide
  refine ⟨_, getaddrinfo_eq_some_iff.mpr ⟨rfl, hhead, rfl⟩, fun h => hbody ?_⟩
  have hlink : addrinfo.get (linkIntoEnclave 0 0 0).mem 256 .aiNext = 4096 :=
    Layout.get_set (by decide)
  have hreach : Reachable (linkIntoEnclave 0 0 0).mem (addrinfo.offset .aiNext) 256 4096 :=
    ⟨by decide, .single ⟨hlink, by decide⟩⟩
  exact (h 4096 hreach).1

end MongoSgx.Host
