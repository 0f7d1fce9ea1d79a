import JuChain.Core.Types
import JuChain.Lib.BigEndian

/-!
# Hashes and addresses as bytes

`common.Hash` and `common.Address` are arrays of 32 and 20 bytes.  The model keeps them as bit
vectors; these are their bytes.
-/

namespace JuChain

open BigEndian

/-- `Hash.Bytes`. -/
def hashBytes (h : Hash) : Bytes := fixed 32 h.toNat

/-- `common.BytesToHash`: the last 32 bytes, padded with zeros on the left. -/
def bytesToHash (bs : Bytes) : Hash := BitVec.ofNat 256 (value bs)

/-- `Address.Bytes`. -/
def addressBytes (a : Address) : Bytes := fixed 20 a.toNat

/-- `common.BytesToAddress`: the last 20 bytes, padded with zeros on the left. -/
def bytesToAddress (bs : Bytes) : Address := BitVec.ofNat 160 (value bs)

@[simp] theorem length_hashBytes (h : Hash) : (hashBytes h).length = 32 := length_fixed 32 _

@[simp] theorem length_addressBytes (a : Address) : (addressBytes a).length = 20 := length_fixed 20 _

@[simp] theorem bytesToHash_hashBytes (h : Hash) : bytesToHash (hashBytes h) = h := by
  apply BitVec.eq_of_toNat_eq
  rw [bytesToHash, hashBytes, value_fixed, BitVec.toNat_ofNat]
  omega

@[simp] theorem bytesToAddress_addressBytes (a : Address) : bytesToAddress (addressBytes a) = a := by
  apply BitVec.eq_of_toNat_eq
  rw [bytesToAddress, addressBytes, value_fixed, BitVec.toNat_ofNat]
  omega

theorem hashBytes_bytesToHash {bs : Bytes} (h : bs.length = 32) : hashBytes (bytesToHash bs) = bs := by
  have lt : value bs < 2 ^ 256 := by
    have := value_lt bs
    rw [h] at this
    exact this
  rw [hashBytes, bytesToHash, BitVec.toNat_ofNat, Nat.mod_eq_of_lt lt, fixed_value h]

theorem addressBytes_bytesToAddress {bs : Bytes} (h : bs.length = 20) :
    addressBytes (bytesToAddress bs) = bs := by
  have lt : value bs < 2 ^ 160 := by
    have := value_lt bs
    rw [h] at this
    exact this
  rw [addressBytes, bytesToAddress, BitVec.toNat_ofNat, Nat.mod_eq_of_lt lt, fixed_value h]

theorem hashBytes_injective : Function.Injective hashBytes :=
  Function.LeftInverse.injective bytesToHash_hashBytes

theorem addressBytes_injective : Function.Injective addressBytes :=
  Function.LeftInverse.injective bytesToAddress_addressBytes

end JuChain
