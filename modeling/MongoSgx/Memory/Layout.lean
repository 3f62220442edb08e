import MongoSgx.Memory.Bytes

/-! # Records in memory

The layout of a record says at which offset each of its fields lies. The fields do
not overlap, so that a field that was set is read again and the other fields are
as before.
-/

namespace Memory

/-- Where the fields of a record lie, and how many bytes each of them has. -/
structure Layout (φ : Type) where
  sizeof : ℕ
  offset : φ → ℕ
  width : φ → ℕ
  fits : ∀ f, offset f + width f ≤ sizeof
  apart : ∀ f g, f ≠ g → offset f + width f ≤ offset g ∨ offset g + width g ≤ offset f

namespace Layout

variable {φ : Type} (l : Layout φ)

def record (p : ℕ) : Set ℕ := block p l.sizeof

def get (m : Mem) (p : ℕ) (f : φ) : ℕ := loadNat m (p + l.offset f) (l.width f)

def set (m : Mem) (p : ℕ) (f : φ) (v : ℕ) : Mem := storeNat m (p + l.offset f) (l.width f) v

variable {l} {m m' : Mem} {p q v : ℕ} {f g : φ} {S : Set ℕ}

theorem field_subset : block (p + l.offset f) (l.width f) ⊆ l.record p := by
  have h := l.fits f
  exact block_subset (by omega) (by omega)

theorem get_lt : l.get m p f < 256 ^ l.width f := loadNat_lt

theorem get_set (h : v < 256 ^ l.width f) : l.get (l.set m p f v) p f = v := loadNat_storeNat h

theorem get_set_of_ne (h : g ≠ f) : l.get (l.set m p f v) p g = l.get m p g := by
  have hapart := l.apart g f h
  apply loadNat_storeNat_of_disjoint
  rw [disjoint_block_iff]
  omega

theorem get_congr (h : Set.EqOn m m' (l.record p)) : l.get m p f = l.get m' p f :=
  loadNat_congr (h.mono field_subset)

theorem get_eq_of_load (h : load m p l.sizeof = load m' q l.sizeof) :
    l.get m p f = l.get m' q f := by
  have hbytes := load_eq_load_iff.mp h
  have hfits := l.fits f
  have hload : load m (p + l.offset f) (l.width f) = load m' (q + l.offset f) (l.width f) := by
    apply load_eq_load_iff.mpr
    intro i hi
    have hbyte := hbytes (l.offset f + i) (by omega)
    rwa [← Nat.add_assoc, ← Nat.add_assoc] at hbyte
  rw [get, get, loadNat, loadNat, hload]

theorem eqOn_set (hm : Set.EqOn m m' S) (h : Disjoint (l.record p) S) :
    Set.EqOn (l.set m p f v) m' S :=
  eqOn_storeNat_of_disjoint hm (h.mono_left field_subset)

theorem load_set_of_disjoint {n : ℕ} (h : Disjoint (block q n) (l.record p)) :
    load (l.set m p f v) q n = load m q n :=
  load_eq_iff.mpr (eqOn_set (Set.eqOn_refl m _) h.symm)

variable {ψ : Type} {l' : Layout ψ} {f' : ψ}

theorem get_set_of_disjoint (h : Disjoint (l'.record q) (l.record p)) :
    l'.get (l.set m p f v) q f' = l'.get m q f' :=
  get_congr (eqOn_set (Set.eqOn_refl m _) h.symm)

theorem get_copy_of_disjoint {n r : ℕ} (h : Disjoint (l'.record q) (block p n)) :
    l'.get (copy m p r n) q f' = l'.get m q f' :=
  get_congr (eqOn_copy_of_disjoint (Set.eqOn_refl m _) h.symm)

end Layout

end Memory
