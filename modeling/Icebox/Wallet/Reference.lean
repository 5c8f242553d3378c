import Icebox.Wallet.Basic

/-!
# Reference collaborators

A descriptor engine and a dongle to run the wallet on, with the runs of the run theorems built
from them:

* `refDevice` -- a dongle that answers every request, with the same key for the same path (the
  path itself);
* `refMiniscript` -- single-key wildcard descriptors numbered by `Nat`: descriptor `n` at index
  `i` has its key at the path `n/i` (so it derives below `2^31` only), and its script is the low byte of each index of that key's path, so that
  distinct small `(n, i)` give distinct two-byte scripts.
-/

namespace Icebox

/-- A dongle that answers every request, with the path itself as the key. -/
def refDevice : Device DerivationPath := fun _ p => .ok p

/-- The script bytes of a reference key: the low byte of each index of its path. -/
def keyBytes (p : DerivationPath) : List UInt8 :=
  p.childNumbers.map fun c => UInt8.ofNat c.toU32.toNat

/-- Single-key descriptors numbered by `Nat`; they have addresses but no text form (no run prints a
    descriptor). -/
def refMiniscript : Miniscript Nat DerivationPath where
  derivedPaths n i := [⟨[.normal (UInt32.ofNat n), .normal i]⟩]
  hasWildcard _ := true
  scriptPubkey _ _ keys := ⟨keys.flatMap keyBytes⟩
  hasAddress _ := true
  toString _ := ⟨[], rfl⟩
  fromStr _ := none

/-- The empty label text. -/
def RString.empty : RString := ⟨[], rfl⟩

end Icebox
