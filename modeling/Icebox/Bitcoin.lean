import Icebox.Prim.HashMap

/-!
# The `bitcoin` types the wallet reads

The block source hands the engine parsed values (spec §6); this file keeps of each type the fields
the engine reads:

* `Txid` (32 bytes), `OutPoint`, `Script` (its bytes);
* `ChildNumber` and `DerivationPath`, with the `u32` conversions of `bip32`: the hardened bit
  `1 << 31` is folded into the number (`ChildNumber.toU32`, `ChildNumber.ofU32`);
* `TxOut`, `TxIn`, `Transaction`, `Block`. A transaction carries the value `tx.txid()` returns
  (the hash of its serialization, which includes the fields no scan reads).
-/

namespace Icebox

/-- `bitcoin::Txid`: 32 bytes. -/
structure Txid where
  bytes : List UInt8
  length_eq : bytes.length = 32
deriving DecidableEq

/-- `bitcoin::OutPoint`. -/
structure OutPoint where
  txid : Txid
  vout : UInt32
deriving DecidableEq

/-- `bitcoin::Script`: its bytes. -/
structure Script where
  bytes : List UInt8
deriving DecidableEq

/-- `bip32::ChildNumber`. The index of a well-formed child number is below `2^31`; the type does
    not enforce it, as the Rust enum with public fields does not. -/
inductive ChildNumber
  | normal (index : UInt32)
  | hardened (index : UInt32)
deriving DecidableEq

/-- `u32::from(ChildNumber)`: `index` for a normal child, `index | (1 << 31)` for a hardened one. -/
def ChildNumber.toU32 : ChildNumber → UInt32
  | .normal index => index
  | .hardened index => UInt32.ofNat (index.toNat % 2 ^ 31 + 2 ^ 31)

/-- `ChildNumber::from(u32)`: hardened with `number ^ (1 << 31)` when `number & (1 << 31) != 0`. -/
def ChildNumber.ofU32 (number : UInt32) : ChildNumber :=
  if 2 ^ 31 ≤ number.toNat then .hardened (UInt32.ofNat (number.toNat - 2 ^ 31)) else .normal number

/-- The index a child number carries. -/
def ChildNumber.index : ChildNumber → UInt32
  | .normal index => index
  | .hardened index => index

/-- **Folding the hardened bit in and out is the identity on well-formed child numbers.** -/
theorem ChildNumber.ofU32_toU32 (c : ChildNumber) (h : c.index.toNat < 2 ^ 31) :
    ChildNumber.ofU32 c.toU32 = c := by
  cases c with
  | normal i =>
    simp only [ChildNumber.index] at h
    simp only [ChildNumber.ofU32, ChildNumber.toU32, if_neg (Nat.not_le.mpr h)]
  | hardened i =>
    simp only [ChildNumber.index] at h
    have e : (UInt32.ofNat (i.toNat % 2 ^ 31 + 2 ^ 31)).toNat = i.toNat + 2 ^ 31 := by
      simp only [u32_toNat_ofNat]; omega
    simp only [ChildNumber.ofU32, ChildNumber.toU32, e, Nat.le_add_left, if_true,
      Nat.add_sub_cancel, u32_ofNat_toNat]

/-- `ChildNumber::from(u32)` always yields a well-formed child number. -/
theorem ChildNumber.index_ofU32_lt (n : UInt32) : (ChildNumber.ofU32 n).index.toNat < 2 ^ 31 := by
  have := u32_toNat_lt n
  unfold ChildNumber.ofU32
  split <;> simp [ChildNumber.index] <;> omega

theorem ChildNumber.toU32_ofU32 (n : UInt32) : (ChildNumber.ofU32 n).toU32 = n := by
  have := u32_toNat_lt n
  unfold ChildNumber.ofU32
  split
  · rw [u32_eq_iff]; simp [ChildNumber.toU32]; omega
  · rfl

theorem ChildNumber.map_ofU32_toU32 :
    ∀ cs : List ChildNumber, (∀ c ∈ cs, c.index.toNat < 2 ^ 31) →
      (cs.map ChildNumber.toU32).map ChildNumber.ofU32 = cs
  | [], _ => rfl
  | c :: cs, h => by
    rw [List.map_cons, List.map_cons, ChildNumber.ofU32_toU32 c (h c (List.mem_cons_self c cs)),
      ChildNumber.map_ofU32_toU32 cs fun d hd => h d (List.mem_cons_of_mem c hd)]

/-- `bip32::DerivationPath`. -/
structure DerivationPath where
  childNumbers : List ChildNumber
deriving DecidableEq

/-- `bitcoin::TxOut`. -/
structure TxOut where
  value : UInt64
  scriptPubkey : Script
deriving DecidableEq

/-- `bitcoin::TxIn`: the output it spends. -/
structure TxIn where
  previousOutput : OutPoint
deriving DecidableEq

/-- `bitcoin::Transaction`, with the value `tx.txid()` returns. -/
structure Transaction where
  txid : Txid
  input : List TxIn
  output : List TxOut
deriving DecidableEq

/-- `bitcoin::Block`: its transactions in block order. -/
structure Block where
  txdata : List Transaction
deriving DecidableEq

end Icebox
