import Icebox.Bitcoin

/-!
# The wallet codec: errors, readers, and the fixed-width forms

`lib/wallet/serialize.rs` gives every stored type a `Serialize` implementation: `write_to` appends
the value's bytes to a writer and `read_from` takes them from the front of a reader. A writer here
is the byte list a call appends (the wallet writes to memory, where writing never fails, so a call
fails only on its own checks); a reader is a `StateT` over the bytes not yet read, so that
`read_from` applied to the bytes written followed by anything else is
`c.readFrom.run (bs ++ rest)`.

* `IoError` -- the errors the codecs raise: `read_exact` running out of bytes, and the
  `InvalidData` texts of the bound checks and of the parsers;
* `Serialize.RoundTrip c a` -- `a` reads back from whatever `c` writes of it, with any bytes after
  it; `Serialize.Reloads c a` -- moreover `c` writes it; `Serialize.Read c a` -- `c` reads `a`
  from some bytes;
* `run_bind_ok`, `run_bind_error`, `run_bind_inv`, `bind_eq_ok` -- reading and writing in
  sequence, the only facts about the monads later files use;
* `u8`, `u32` (four bytes, least significant first), `u64` (low half first), `txid`, `outPoint`,
  each with the bytes it writes and its round trip.
-/

namespace Icebox

/-! ## 1. Errors, readers, codecs -/

/-- Whether a bound check was made by an encoder or by a decoder: the first word of its message. -/
inductive Op
  | writing
  | reading
deriving DecidableEq

/-- The collection or string a bound check names in its message. -/
inductive Noun
  | vector
  | set
  | string
  | map
  | script
  | descriptor
deriving DecidableEq

/-- The `ErrorKind::InvalidData` errors of the codecs. -/
inductive DataError
  /-- `"{op} {noun} of length {len} exceeded max {max} (type {T})"`, without the `(type …)` for a
      descriptor: `len` is the observed size as `u32`, `max` the bound. The type name is left
      out. -/
  | exceeded (op : Op) (noun : Noun) (len max : UInt32)
  /-- `String::from_utf8` rejected the bytes. -/
  | utf8
  /-- `Descriptor::from_str` rejected the text. -/
  | miniscript
  /-- `PublicKey::from_slice` rejected the bytes. -/
  | publicKey
deriving DecidableEq

/-- `std::io::Error`, as the codecs raise it. -/
inductive IoError
  /-- `read_exact` ran out of bytes (`ErrorKind::UnexpectedEof`). -/
  | unexpectedEof
  | invalidData (e : DataError)
deriving DecidableEq

/-- A reader: the bytes not yet read, taken from the front. -/
abbrev Reader (α : Type) := StateT (List UInt8) (Except IoError) α

/-- `trait Serialize`: the bytes `write_to` appends, and `read_from`. -/
structure Serialize (α : Type) where
  writeTo : α → Except IoError (List UInt8)
  readFrom : Reader α

namespace Serialize

variable {α : Type} (c : Serialize α)

/-- `a` reads back from whatever `c` writes of it, whatever bytes follow, and nothing more is
    consumed. -/
def RoundTrip (a : α) : Prop :=
  ∀ bs, c.writeTo a = .ok bs → ∀ rest, c.readFrom.run (bs ++ rest) = .ok (a, rest)

/-- `c` writes `a`, and `a` reads back from what it writes. -/
def Reloads (a : α) : Prop :=
  (∃ bs, c.writeTo a = .ok bs) ∧ c.RoundTrip a

/-- `c` reads `a` from some bytes. -/
def Read (a : α) : Prop :=
  ∃ bs rest, c.readFrom.run bs = .ok (a, rest)

end Serialize

section Monads

variable {α β ε : Type}

theorem run_bind_ok {x : Reader α} {f : α → Reader β} {bs bs' : List UInt8} {a : α}
    (h : x.run bs = .ok (a, bs')) : (x >>= f).run bs = (f a).run bs' := by
  simp only [StateT.run_bind, h]; rfl

theorem run_bind_error {x : Reader α} {f : α → Reader β} {bs : List UInt8} {e : IoError}
    (h : x.run bs = .error e) : (x >>= f).run bs = .error e := by
  simp only [StateT.run_bind, h]; rfl

@[simp] theorem run_pure (a : α) (bs : List UInt8) : (pure a : Reader α).run bs = .ok (a, bs) := rfl

theorem run_bind_inv {x : Reader α} {f : α → Reader β} {bs rest : List UInt8} {b : β}
    (h : (x >>= f).run bs = .ok (b, rest)) :
    ∃ a bs', x.run bs = .ok (a, bs') ∧ (f a).run bs' = .ok (b, rest) := by
  rw [StateT.run_bind] at h
  rcases hx : x.run bs with e | ⟨a, bs'⟩
  · rw [hx] at h; cases h
  · rw [hx] at h; exact ⟨a, bs', rfl, h⟩

theorem bind_eq_ok {x : Except ε α} {f : α → Except ε β} {b : β} :
    x >>= f = .ok b ↔ ∃ a, x = .ok a ∧ f a = .ok b := by
  cases x <;> simp [bind, Except.bind]

end Monads

/-- `read_exact` into a buffer of `n` bytes. -/
def readExact (n : Nat) : Reader {dat : List UInt8 // dat.length = n} := fun bs =>
  if h : n ≤ bs.length then .ok (⟨bs.take n, by simp [h]⟩, bs.drop n) else .error .unexpectedEof

theorem readExact_append {n : Nat} (l rest : List UInt8) (h : l.length = n) :
    (readExact n).run (l ++ rest) = .ok (⟨l, h⟩, rest) := by
  subst h; simp [readExact, StateT.run]

theorem readExact_inv {n : Nat} {bs rest : List UInt8} {dat : {dat : List UInt8 // dat.length = n}}
    (h : (readExact n).run bs = .ok (dat, rest)) : bs = dat.1 ++ rest := by
  simp only [readExact, StateT.run] at h
  split at h
  · cases h; simp
  · cases h

/-! ## 2. Integers -/

namespace Serialize

/-- `impl Serialize for u8`. -/
def u8 : Serialize UInt8 where
  writeTo b := .ok [b]
  readFrom := do
    let dat ← readExact 1
    pure (dat.1.getD 0 0)

/-- The bytes of a `u32`, least significant first: `*self as u8`, `(*self >> 8) as u8`, … -/
def u32Bytes (x : UInt32) : List UInt8 :=
  [UInt8.ofNat x.toNat, UInt8.ofNat (x.toNat / 2 ^ 8), UInt8.ofNat (x.toNat / 2 ^ 16),
    UInt8.ofNat (x.toNat / 2 ^ 24)]

/-- `impl Serialize for u32`. -/
def u32 : Serialize UInt32 where
  writeTo x := .ok (u32Bytes x)
  readFrom := do
    let dat ← readExact 4
    pure (UInt32.ofNat ((dat.1.getD 0 0).toNat + (dat.1.getD 1 0).toNat * 2 ^ 8 +
      (dat.1.getD 2 0).toNat * 2 ^ 16 + (dat.1.getD 3 0).toNat * 2 ^ 24))

/-- `impl Serialize for u64`: the low half, then the high half. -/
def u64 : Serialize UInt64 where
  writeTo x := do
    let lo ← u32.writeTo (UInt32.ofNat x.toNat)
    let hi ← u32.writeTo (UInt32.ofNat (x.toNat / 2 ^ 32))
    pure (lo ++ hi)
  readFrom := do
    let lo ← u32.readFrom
    let hi ← u32.readFrom
    pure (UInt64.ofNat (lo.toNat + hi.toNat * 2 ^ 32))

theorem u8_readFrom (b : UInt8) (rest : List UInt8) : u8.readFrom.run (b :: rest) = .ok (b, rest) :=
  run_bind_ok (readExact_append [b] rest rfl)

theorem length_u32Bytes (x : UInt32) : (u32Bytes x).length = 4 := rfl

theorem u32_readFrom (x : UInt32) (rest : List UInt8) :
    u32.readFrom.run (u32Bytes x ++ rest) = .ok (x, rest) := by
  rw [u32, run_bind_ok (readExact_append _ rest (length_u32Bytes x))]
  have := u32_toNat_lt x
  simp only [u32Bytes, List.getD_cons_zero, List.getD_cons_succ, u8_toNat_ofNat, run_pure,
    Except.ok.injEq, Prod.mk.injEq, and_true, u32_eq_iff, u32_toNat_ofNat]
  omega

theorem u32_roundTrip (x : UInt32) : u32.RoundTrip x := by
  rintro bs ⟨⟩ rest
  exact u32_readFrom x rest

theorem u64_readFrom (x : UInt64) (rest : List UInt8) :
    u64.readFrom.run (u32Bytes (UInt32.ofNat x.toNat) ++ u32Bytes (UInt32.ofNat (x.toNat / 2 ^ 32)) ++
      rest) = .ok (x, rest) := by
  rw [u64, List.append_assoc, run_bind_ok (u32_readFrom _ _), run_bind_ok (u32_readFrom _ _)]
  have := u64_toNat_lt x
  simp only [run_pure, Except.ok.injEq, Prod.mk.injEq, and_true]
  apply UInt64.toNat.inj
  simp only [u32_toNat_ofNat, u64_toNat_ofNat]
  omega

theorem u64_roundTrip (x : UInt64) : u64.RoundTrip x := by
  rintro bs ⟨⟩ rest
  exact u64_readFrom x rest

/-! ## 3. Transaction ids and outpoints -/

/-- `impl Serialize for Txid`: its 32 bytes. -/
def txid : Serialize Txid where
  writeTo t := .ok t.bytes
  readFrom := do
    let dat ← readExact 32
    pure ⟨dat.1, dat.2⟩

/-- `impl Serialize for OutPoint`: the txid, then `vout`. -/
def outPoint : Serialize OutPoint where
  writeTo o := do
    let t ← txid.writeTo o.txid
    let v ← u32.writeTo o.vout
    pure (t ++ v)
  readFrom := do
    let t ← txid.readFrom
    let vout ← u32.readFrom
    pure ⟨t, vout⟩

theorem txid_readFrom (t : Txid) (rest : List UInt8) :
    txid.readFrom.run (t.bytes ++ rest) = .ok (t, rest) :=
  run_bind_ok (readExact_append t.bytes rest t.length_eq)

theorem outPoint_roundTrip (o : OutPoint) : outPoint.RoundTrip o := by
  rintro bs ⟨⟩ rest
  rw [outPoint, List.append_assoc, run_bind_ok (txid_readFrom _ _), run_bind_ok (u32_readFrom _ _)]
  rfl

theorem outPoint_reloads (o : OutPoint) : outPoint.Reloads o :=
  ⟨⟨_, rfl⟩, outPoint_roundTrip o⟩

end Serialize

end Icebox
