import Mathlib.Data.Nat.Digits.Defs
import Mathlib.Logic.Relation
import Mathlib.Order.CompletePartialOrder
import Mathlib.Order.Interval.Set.Disjoint

/-! # Bytes in memory

A memory holds a byte at every address, and a block is a range of addresses. A
block that was stored is loaded again, and a store leaves the bytes of every
block that is disjoint from it. Numbers lie in memory with the least byte first,
and a record that holds the address of the next one begins a linked list.
-/

namespace Memory

def block (p n : ℕ) : Set ℕ := Set.Ico p (p + n)

section Block

variable {p n q k a : ℕ}

@[simp] theorem mem_block : a ∈ block p n ↔ p ≤ a ∧ a < p + n := Iff.rfl

theorem block_subset (hp : p ≤ q) (hk : q + k ≤ p + n) : block q k ⊆ block p n := by
  intro a ha
  simp only [mem_block] at ha ⊢
  omega

@[simp] theorem disjoint_block_iff : Disjoint (block p n) (block q k) ↔
    min (p + n) (q + k) ≤ max p q := Set.Ico_disjoint_Ico

instance : Decidable (Disjoint (block p n) (block q k)) :=
  decidable_of_iff _ disjoint_block_iff.symm

end Block

structure Region where
  base : ℕ
  size : ℕ
  deriving DecidableEq

namespace Region

def addresses (r : Region) : Set ℕ := block r.base r.size

instance (p n : ℕ) (r : Region) : Decidable (Disjoint (block p n) r.addresses) :=
  inferInstanceAs (Decidable (Disjoint (block p n) (block r.base r.size)))

instance (r s : Region) : Decidable (Disjoint r.addresses s.addresses) :=
  inferInstanceAs (Decidable (Disjoint (block r.base r.size) (block s.base s.size)))

end Region

/-- The contents of an address space. -/
abbrev Mem := ℕ → UInt8

def load (m : Mem) (p n : ℕ) : List UInt8 := (List.range' p n).map m

def store (m : Mem) (p : ℕ) (bs : List UInt8) : Mem := fun a =>
  if p ≤ a then (bs[a - p]?).getD (m a) else m a

def copy (m : Mem) (target source n : ℕ) : Mem := store m target (load m source n)

section Access

variable {m m' : Mem} {p n q k a : ℕ} {bs : List UInt8}

@[simp] theorem load_length : (load m p n).length = n := by simp [load]

theorem load_eq_iff : load m p n = load m' p n ↔ Set.EqOn m m' (block p n) := by
  simp only [load, List.map_inj_left, List.mem_range'_1]
  rfl

theorem load_eq_load_iff : load m p n = load m' q n ↔ ∀ i < n, m (p + i) = m' (q + i) := by
  simp [load, List.range'_eq_map_range]

theorem store_of_notMem (h : a ∉ block p bs.length) : store m p bs a = m a := by
  unfold store
  split
  case isTrue hp =>
    have hlen : bs.length ≤ a - p := by simp only [mem_block] at h; omega
    rw [List.getElem?_eq_none hlen, Option.getD_none]
  case isFalse => rfl

theorem store_apply {i : ℕ} (h : i < bs.length) : store m p bs (p + i) = bs[i] := by
  simp [store, h]

theorem eqOn_store : Set.EqOn (store m p bs) m (block p bs.length)ᶜ := fun _ ha =>
  store_of_notMem ha

@[simp] theorem load_store : load (store m p bs) p bs.length = bs := by
  apply List.ext_getElem
  · simp
  · intro i hi hi'
    simpa [load] using store_apply hi'

theorem load_store_of_disjoint (h : Disjoint (block q n) (block p bs.length)) :
    load (store m p bs) q n = load m q n :=
  load_eq_iff.mpr fun _ ha => store_of_notMem (Set.disjoint_left.mp h ha)

theorem load_copy : load (copy m p q n) p n = load m q n := by
  have hload : load (store m p (load m q n)) p (load m q n).length = load m q n := load_store
  rwa [load_length] at hload

theorem load_copy_of_disjoint {r : ℕ} (h : Disjoint (block r k) (block p n)) :
    load (copy m p q n) r k = load m r k :=
  load_store_of_disjoint (by rwa [load_length])

theorem eqOn_copy_of_disjoint {S : Set ℕ} (hm : Set.EqOn m m' S) (h : Disjoint (block p n) S) :
    Set.EqOn (copy m p q n) m' S := by
  have hcopy : Set.EqOn (store m p (load m q n)) m S :=
    eqOn_store.mono (by rw [load_length]; exact h.subset_compl_left)
  exact hcopy.trans hm

theorem eqOn_copy : Set.EqOn (copy m p q n) m (block p n)ᶜ := by
  have h : Set.EqOn (store m p (load m q n)) m (block p (load m q n).length)ᶜ := eqOn_store
  rwa [load_length] at h

end Access

/-- The bytes of `inside` in the region and those of `outside` elsewhere. -/
def Region.combine (r : Region) (inside outside : Mem) : Mem := fun a =>
  if r.base ≤ a ∧ a < r.base + r.size then inside a else outside a

theorem Region.eqOn_combine (r : Region) (inside outside : Mem) :
    Set.EqOn (r.combine inside outside) inside r.addresses := fun _ ha => if_pos ha

theorem Region.eqOn_combine_compl (r : Region) (inside outside : Mem) :
    Set.EqOn (r.combine inside outside) outside r.addressesᶜ := fun _ ha => if_neg ha

/-- The block that an allocator hands out in call `k`, which asks for `size k` bytes. -/
def granted (alloc : ℕ → ℕ → ℕ) (size : ℕ → ℕ) (k : ℕ) : Region := ⟨alloc k (size k), size k⟩

/-- The first `n` blocks that are handed out have 64-bit addresses and are disjoint, and no byte
of them is in use. -/
structure Fresh (inUse : Set ℕ) (alloc : ℕ → ℕ → ℕ) (size : ℕ → ℕ) (n : ℕ) : Prop where
  pointer : ∀ k < n, (granted alloc size k).base < 256 ^ 8
  apart : ∀ j k, j < k → k < n →
    Disjoint (granted alloc size j).addresses (granted alloc size k).addresses
  unused : ∀ k < n, Disjoint (granted alloc size k).addresses inUse

theorem Fresh.mono {inUse : Set ℕ} {alloc : ℕ → ℕ → ℕ} {size : ℕ → ℕ} {n k : ℕ}
    (h : Fresh inUse alloc size n) (hk : k ≤ n) : Fresh inUse alloc size k where
  pointer j hj := h.pointer j (hj.trans_le hk)
  apart j l hjl hl := h.apart j l hjl (hl.trans_le hk)
  unused j hj := h.unused j (hj.trans_le hk)

theorem Fresh.disjoint {inUse : Set ℕ} {alloc : ℕ → ℕ → ℕ} {size : ℕ → ℕ} {n j k : ℕ}
    (h : Fresh inUse alloc size n) (hj : j < n) (hk : k < n) (hne : j ≠ k) :
    Disjoint (granted alloc size j).addresses (granted alloc size k).addresses := by
  rcases Nat.lt_or_gt_of_ne hne with hlt | hgt
  · exact h.apart j k hlt hk
  · exact (h.apart k j hgt hj).symm

def decode (bs : List UInt8) : ℕ := Nat.ofDigits 256 (bs.map UInt8.toNat)

def encode : ℕ → ℕ → List UInt8
  | 0, _ => []
  | k + 1, v => UInt8.ofNat v :: encode k (v / 256)

def loadNat (m : Mem) (p k : ℕ) : ℕ := decode (load m p k)

def storeNat (m : Mem) (p k v : ℕ) : Mem := store m p (encode k v)

section Numbers

variable {m m' : Mem} {p n q k v : ℕ}

@[simp] theorem encode_length : (encode k v).length = k := by
  induction k generalizing v with
  | zero => rfl
  | succ k ih => simp [encode, ih]

theorem decode_encode (h : v < 256 ^ k) : decode (encode k v) = v := by
  induction k generalizing v with
  | zero =>
    have hv : v = 0 := by simpa using h
    rw [hv]
    rfl
  | succ k ih =>
    have hq : v / 256 < 256 ^ k := Nat.div_lt_of_lt_mul (by rwa [Nat.pow_succ'] at h)
    have hrest : Nat.ofDigits 256 ((encode k (v / 256)).map UInt8.toNat) = v / 256 := ih hq
    have hbyte : (UInt8.ofNat v).toNat = v % 256 := UInt8.toNat_ofNat'
    rw [decode, encode, List.map_cons, Nat.ofDigits_cons, hrest, hbyte]
    exact Nat.mod_add_div v 256

theorem decode_lt (bs : List UInt8) : decode bs < 256 ^ bs.length := by
  have h := Nat.ofDigits_lt_base_pow_length (b := 256) (l := bs.map UInt8.toNat) (by decide)
    (by
      intro x hx
      obtain ⟨b, -, rfl⟩ := List.mem_map.mp hx
      exact b.toNat_lt)
  rwa [List.length_map] at h

theorem loadNat_lt : loadNat m p k < 256 ^ k := by
  have h := decode_lt (load m p k)
  rwa [load_length] at h

theorem loadNat_congr (h : Set.EqOn m m' (block p k)) : loadNat m p k = loadNat m' p k := by
  rw [loadNat, loadNat, load_eq_iff.mpr h]

theorem loadNat_storeNat (h : v < 256 ^ k) : loadNat (storeNat m p k v) p k = v := by
  have hload : load (store m p (encode k v)) p (encode k v).length = encode k v := load_store
  rw [encode_length] at hload
  rw [loadNat, storeNat, hload, decode_encode h]

theorem load_storeNat_of_disjoint (h : Disjoint (block q n) (block p k)) :
    load (storeNat m p k v) q n = load m q n :=
  load_store_of_disjoint (by rwa [encode_length])

theorem loadNat_storeNat_of_disjoint (h : Disjoint (block q n) (block p k)) :
    loadNat (storeNat m p k v) q n = loadNat m q n := by
  rw [loadNat, loadNat, load_storeNat_of_disjoint h]

theorem eqOn_storeNat_of_disjoint {S : Set ℕ} (hm : Set.EqOn m m' S)
    (h : Disjoint (block p k) S) : Set.EqOn (storeNat m p k v) m' S := by
  have hstore : Set.EqOn (store m p (encode k v)) m S :=
    eqOn_store.mono (by rw [encode_length]; exact h.subset_compl_left)
  exact hstore.trans hm

theorem eqOn_storeNat : Set.EqOn (storeNat m p k v) m (block p k)ᶜ := by
  have h : Set.EqOn (store m p (encode k v)) m (block p (encode k v).length)ᶜ := eqOn_store
  rwa [encode_length] at h

end Numbers

/-- The record at `p` holds, `o` bytes from its beginning, the address `q` of a next record. -/
def Link (m : Mem) (o p q : ℕ) : Prop := loadNat m (p + o) 8 = q ∧ q ≠ 0

/-- The records of the list that begins at `p`. -/
def Reachable (m : Mem) (o p q : ℕ) : Prop := p ≠ 0 ∧ Relation.ReflTransGen (Link m o) p q

/-- The records that are met before the list leaves `S`. -/
def ReachableIn (S : ℕ → Prop) (m : Mem) (o p q : ℕ) : Prop :=
  p ≠ 0 ∧ Relation.ReflTransGen (fun a b => Link m o a b ∧ S b) p q

section Lists

variable {m : Mem} {o p q : ℕ} {S : ℕ → Prop}

theorem ReachableIn.reachable (h : ReachableIn S m o p q) : Reachable m o p q :=
  ⟨h.1, Relation.ReflTransGen.mono (fun _ _ hlink => And.left hlink) _ _ h.2⟩

theorem Reachable.next (h : Reachable m o p q) (hq : loadNat m (q + o) 8 ≠ 0) :
    Reachable m o p (loadNat m (q + o) 8) := ⟨h.1, h.2.tail ⟨rfl, hq⟩⟩

/-- All records of a list lie in `S` if and only if its head does and no record that is met
within `S` links to one outside `S`. -/
theorem forall_reachable_iff : (∀ q, Reachable m o p q → S q) ↔ (p ≠ 0 → S p) ∧
    ∀ q, ReachableIn S m o p q → loadNat m (q + o) 8 ≠ 0 → S (loadNat m (q + o) 8) := by
  constructor
  · intro h
    exact ⟨fun hp => h p ⟨hp, .refl⟩, fun q hq hnext => h _ (hq.reachable.next hnext)⟩
  · rintro ⟨hhead, hnext⟩ q ⟨hp, hq⟩
    have hin : ReachableIn S m o p q ∧ S q := by
      induction hq with
      | refl => exact ⟨⟨hp, .refl⟩, hhead hp⟩
      | tail _ hlink ih =>
        obtain ⟨rfl, hne⟩ := hlink
        have hS := hnext _ ih.1 hne
        exact ⟨⟨hp, ih.1.2.tail ⟨⟨rfl, hne⟩, hS⟩⟩, hS⟩
    exact hin.2

theorem reachable_iff_reachableIn (h : ∀ q, Reachable m o p q → S q) :
    Reachable m o p q ↔ ReachableIn S m o p q := by
  constructor
  · rintro ⟨hp, hq⟩
    induction hq with
    | refl => exact ⟨hp, .refl⟩
    | tail hq hlink ih => exact ⟨hp, ih.2.tail ⟨hlink, h _ ⟨hp, hq.tail hlink⟩⟩⟩
  · exact ReachableIn.reachable

end Lists

end Memory
