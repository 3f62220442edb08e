import Mathlib.Data.Vector.Basic
import Mathlib.Logic.Encodable.Basic
import Mathlib.Logic.Equiv.List

/-! # The cryptographic primitives

HMAC-SHA256 under `hmac_key` and AES-GCM under `aes_key` are parameters. Bytes
are letters of an arbitrary alphabet `β`: no function of all byte strings into
32 letters is injective over a finite alphabet, so the ideal HMAC is assumed
over an alphabet that has one, while every length stays that of the code.
-/

namespace MongoSgx

/-- `HMAC_RESULT_LENGTH`. -/
def hmacResultLength : ℕ := 32

/-- `KEY_SIZE`. -/
def keySize : ℕ := 32

/-- `hashed_t`. -/
abbrev Hashed (β : Type) := List.Vector β hmacResultLength

structure Primitives (β : Type) where
  /-- `sgx_hmac256_*` under `hmac_key`, on the concatenation of the updates. -/
  hmac : List β → Hashed β
  /-- `Crypto::encrypt_aesgcm` under `aes_key`, with the initialisation vector it draws. -/
  encryptAesgcm : List β → List β → List β
  /-- `Crypto::decrypt_aesgcm` under `aes_key`. -/
  decryptAesgcm : List β → Option (List β)

variable {β : Type}

namespace Primitives

/-- HMAC is injective and decryption inverts encryption. -/
structure Ideal (P : Primitives β) : Prop where
  hmac_injective : Function.Injective P.hmac
  decrypt_encrypt : ∀ iv data, P.decryptAesgcm (P.encryptAesgcm iv data) = some data

/-- The length of a ciphertext is a function of the length of the plaintext. -/
def LengthRegular (P : Primitives β) : Prop :=
  ∀ iv iv' data data', data.length = data'.length →
    (P.encryptAesgcm iv data).length = (P.encryptAesgcm iv' data').length

theorem Ideal.hmac_inj {P : Primitives β} (hP : P.Ideal) {x y : List β} :
    P.hmac x = P.hmac y ↔ x = y := hP.hmac_injective.eq_iff

theorem Ideal.hmac_toList_inj {P : Primitives β} (hP : P.Ideal) {x y : List β} :
    (P.hmac x).toList = (P.hmac y).toList ↔ x = y := by
  rw [(List.Vector.toList_injective).eq_iff, hP.hmac_inj]

/-- Ideal primitives over the alphabet `ℕ`: HMAC encodes its input in the first letter, and a
ciphertext is the plaintext between its initialisation vector and a tag over both. -/
def nat : Primitives ℕ where
  hmac x := ⟨Encodable.encode x :: List.replicate 31 0, rfl⟩
  encryptAesgcm iv data :=
    Encodable.encode iv :: data ++ [Encodable.encode (Encodable.encode iv, data)]
  decryptAesgcm
    | [] => none
    | n :: c => if c.getLast? = some (Encodable.encode (n, c.dropLast)) then some c.dropLast else none

theorem nat_ideal : nat.Ideal where
  hmac_injective x y h := by
    have h := congrArg (fun v : Hashed ℕ => v.toList.head?) h
    simpa [nat, List.Vector.toList] using h
  decrypt_encrypt iv data := by simp [nat]

theorem nat_lengthRegular : nat.LengthRegular := by
  intro iv iv' data data' h
  simp [nat, h]

end Primitives

end MongoSgx
