import Icebox.Serialize.Collections
import Icebox.Wallet.Basic

/-!
# Saving and loading a wallet

`Wallet::write_to` writes `block_height`, `descriptors`, `addresses`, `txos` and `key_cache` in
that order, each with its own codec; `Wallet::read_from` reads them back in the same order. A
descriptor is stored as its printed text (`miniscriptDescriptor`), after its length as `u32`.

That codec is the one length-prefixed encoder without its decoder's bound: `read_from` refuses a
text above `MAX_DESCRIPTOR_LEN` bytes, `write_to` writes any (`miniscriptDescriptor_long`). So:

* `wallet_roundTrip` -- a wallet whose descriptors print within the bound, and parse back from
  their text, reads back from what is written of it, whatever bytes follow;
* `wallet_long_descriptor` -- a wallet with a descriptor that prints above the bound is written,
  and what is written does not load: the decoder stops at that descriptor's length;
* `wallet_read` -- what the decoder accepts satisfies every bound an encoder checks (`Decoded`),
  and **`load_save_load`**: a loaded wallet whose descriptors print within the bound is saved and
  loads again, unchanged. The text a descriptor was loaded from may be shorter than the text it
  prints to (`miniscript` prints a checksum), which `load_save_fails` shows.

The codecs of `address.rs` and `txo.rs`, which are not among the sources, and rust-bitcoin's key
format are parameters (`FieldCodecs`).
-/

namespace Icebox

namespace Serialize

/-! ## 1. Descriptors -/

section Descriptors

variable {Desc PublicKey : Type} (ms : Miniscript Desc PublicKey)

/-- `impl Serialize for miniscript::Descriptor<DescriptorPublicKey>`: the printed text. Unlike
    every other length-prefixed encoder, `write_to` checks no bound (`MAX_DESCRIPTOR_LEN` is
    checked by `read_from` only), and writes the length `as u32`. -/
def miniscriptDescriptor : Serialize Desc where
  writeTo d := do
    let string := ms.toString d
    let len ← u32.writeTo (UInt32.ofNat string.len)
    pure (len ++ string.bytes)
  readFrom := do
    let data ← readBytes .descriptor maxDescriptorLen
    match RString.fromUtf8 data with
    | none => throw (.invalidData .utf8)
    | some s =>
      match ms.fromStr s with
      | none => throw (.invalidData .miniscript)
      | some d => pure d

/-- `impl Serialize for wallet::Descriptor`. -/
def descriptor : Serialize (Descriptor Desc) where
  writeTo d := do
    let desc ← (miniscriptDescriptor ms).writeTo d.desc
    let low ← u32.writeTo d.low
    let high ← u32.writeTo d.high
    let nextIdx ← u32.writeTo d.nextIdx
    pure (desc ++ low ++ high ++ nextIdx)
  readFrom := do
    let desc ← (miniscriptDescriptor ms).readFrom
    let low ← u32.readFrom
    let high ← u32.readFrom
    let nextIdx ← u32.readFrom
    pure ⟨desc, low, high, nextIdx⟩

/-- A descriptor prints within `MAX_DESCRIPTOR_LEN` and parses back from its text. -/
def PrintsBack (d : Desc) : Prop :=
  ms.fromStr (ms.toString d) = some d ∧ (ms.toString d).len ≤ maxDescriptorLen.toNat

theorem miniscriptDescriptor_roundTrip {d : Desc} (h : PrintsBack ms d) :
    (miniscriptDescriptor ms).RoundTrip d := by
  rintro bs ⟨⟩ rest
  rw [miniscriptDescriptor, RString.len, List.append_assoc,
    run_bind_ok (readBytes_append h.2 rest), RString.fromUtf8_bytes]
  simp only [h.1]
  rfl

/-- **The descriptor text is written whatever its length, and a text above `MAX_DESCRIPTOR_LEN`
    (and below `2^32`) does not read back**: the decoder fails on its length, naming the length and
    the bound. -/
theorem miniscriptDescriptor_long {d : Desc}
    (hlong : maxDescriptorLen.toNat < (ms.toString d).len) (hlt : (ms.toString d).len < 2 ^ 32)
    (rest : List UInt8) :
    (miniscriptDescriptor ms).writeTo d =
      .ok (u32Bytes (UInt32.ofNat (ms.toString d).len) ++ (ms.toString d).bytes) ∧
    (miniscriptDescriptor ms).readFrom.run
        (u32Bytes (UInt32.ofNat (ms.toString d).len) ++ ((ms.toString d).bytes ++ rest)) =
      .error (.invalidData
        (.exceeded .reading .descriptor (UInt32.ofNat (ms.toString d).len) maxDescriptorLen)) := by
  refine ⟨rfl, ?_⟩
  have hmax : maxDescriptorLen < UInt32.ofNat (ms.toString d).len := by
    rw [u32_lt_iff, u32_toNat_ofNat, Nat.mod_eq_of_lt hlt]; exact hlong
  rw [miniscriptDescriptor, run_bind_error (readBytes_exceeded hmax _)]

theorem descriptor_roundTrip {d : Descriptor Desc} (h : PrintsBack ms d.desc) :
    (descriptor ms).RoundTrip d := by
  rintro bs ⟨⟩ rest
  simp only [List.append_assoc]
  rw [descriptor, ← List.append_assoc (u32Bytes _),
    run_bind_ok (miniscriptDescriptor_roundTrip ms h _ rfl _),
    run_bind_ok (u32_readFrom _ _), run_bind_ok (u32_readFrom _ _), run_bind_ok (u32_readFrom _ _)]
  rfl

theorem descriptor_writeTo (d : Descriptor Desc) :
    (descriptor ms).writeTo d = .ok (u32Bytes (UInt32.ofNat (ms.toString d.desc).len) ++
      (ms.toString d.desc).bytes ++ u32Bytes d.low ++ u32Bytes d.high ++ u32Bytes d.nextIdx) :=
  rfl

theorem descriptor_long {d : Descriptor Desc}
    (hlong : maxDescriptorLen.toNat < (ms.toString d.desc).len)
    (hlt : (ms.toString d.desc).len < 2 ^ 32) (bs : List UInt8)
    (h : (descriptor ms).writeTo d = .ok bs) (rest : List UInt8) :
    (descriptor ms).readFrom.run (bs ++ rest) =
      .error (.invalidData (.exceeded .reading .descriptor
        (UInt32.ofNat (ms.toString d.desc).len) maxDescriptorLen)) := by
  rw [descriptor_writeTo] at h
  cases h
  simp only [List.append_assoc]
  rw [descriptor, run_bind_error (miniscriptDescriptor_long ms hlong hlt _).2]

end Descriptors

/-! ## 2. The wallet -/

/-- The codecs the wallet's codec calls outside `serialize.rs`: those of `Address` and `Txo`
    (`address.rs` and `txo.rs` are not among the sources), and rust-bitcoin's key format. -/
structure FieldCodecs (PublicKey : Type) where
  address : Serialize Address
  txo : Serialize Txo
  key : KeyFormat PublicKey

section Wallet

variable {Desc PublicKey : Type} (ms : Miniscript Desc PublicKey) (fc : FieldCodecs PublicKey)

/-- `impl Serialize for Wallet`. -/
def wallet : Serialize (Wallet Desc PublicKey) where
  writeTo w := do
    let blockHeight ← u64.writeTo w.blockHeight
    let descriptors ← (vec (descriptor ms)).writeTo w.descriptors
    let addresses ← (hashMap script fc.address).writeTo w.addresses
    let txos ← (hashMap outPoint fc.txo).writeTo w.txos
    let keyCache ← (hashMap derivationPath (publicKey fc.key)).writeTo w.keyCache
    pure (blockHeight ++ descriptors ++ addresses ++ txos ++ keyCache)
  readFrom := do
    let blockHeight ← u64.readFrom
    let descriptors ← (vec (descriptor ms)).readFrom
    let addresses ← (hashMap script fc.address).readFrom
    let txos ← (hashMap outPoint fc.txo).readFrom
    let keyCache ← (hashMap derivationPath (publicKey fc.key)).readFrom
    pure ⟨blockHeight, descriptors, addresses, txos, keyCache⟩

variable {ms fc}

/-- The bytes of a wallet, field by field. -/
theorem wallet_writeTo_inv {w : Wallet Desc PublicKey} {bs : List UInt8}
    (h : (wallet ms fc).writeTo w = .ok bs) :
    ∃ b₁ b₂ b₃ b₄, (vec (descriptor ms)).writeTo w.descriptors = .ok b₁ ∧
      (hashMap script fc.address).writeTo w.addresses = .ok b₂ ∧
      (hashMap outPoint fc.txo).writeTo w.txos = .ok b₃ ∧
      (hashMap derivationPath (publicKey fc.key)).writeTo w.keyCache = .ok b₄ ∧
      bs = u32Bytes (UInt32.ofNat w.blockHeight.toNat) ++
        u32Bytes (UInt32.ofNat (w.blockHeight.toNat / 2 ^ 32)) ++ b₁ ++ b₂ ++ b₃ ++ b₄ := by
  obtain ⟨_, ⟨⟩, h⟩ := bind_eq_ok.mp h
  obtain ⟨b₁, h₁, h⟩ := bind_eq_ok.mp h
  obtain ⟨b₂, h₂, h⟩ := bind_eq_ok.mp h
  obtain ⟨b₃, h₃, h⟩ := bind_eq_ok.mp h
  obtain ⟨b₄, h₄, h⟩ := bind_eq_ok.mp h
  cases h
  exact ⟨b₁, b₂, b₃, b₄, h₁, h₂, h₃, h₄, rfl⟩

theorem wallet_writes {w : Wallet Desc PublicKey}
    (h₁ : ∃ b, (vec (descriptor ms)).writeTo w.descriptors = .ok b)
    (h₂ : ∃ b, (hashMap script fc.address).writeTo w.addresses = .ok b)
    (h₃ : ∃ b, (hashMap outPoint fc.txo).writeTo w.txos = .ok b)
    (h₄ : ∃ b, (hashMap derivationPath (publicKey fc.key)).writeTo w.keyCache = .ok b) :
    ∃ bs, (wallet ms fc).writeTo w = .ok bs := by
  rcases h₁, h₂, h₃, h₄ with ⟨⟨b₁, h₁⟩, ⟨b₂, h₂⟩, ⟨b₃, h₃⟩, ⟨b₄, h₄⟩⟩
  exact ⟨_, by simp only [wallet, h₁, h₂, h₃, h₄]; rfl⟩

/-- **A wallet reads back from its bytes** when each field does. -/
theorem wallet_roundTrip_of {w : Wallet Desc PublicKey}
    (h₁ : (vec (descriptor ms)).RoundTrip w.descriptors)
    (h₂ : (hashMap script fc.address).RoundTrip w.addresses)
    (h₃ : (hashMap outPoint fc.txo).RoundTrip w.txos)
    (h₄ : (hashMap derivationPath (publicKey fc.key)).RoundTrip w.keyCache) :
    (wallet ms fc).RoundTrip w := by
  intro bs h rest
  obtain ⟨b₁, b₂, b₃, b₄, e₁, e₂, e₃, e₄, rfl⟩ := wallet_writeTo_inv h
  simp only [List.append_assoc]
  rw [wallet, ← List.append_assoc, run_bind_ok (u64_readFrom _ _), run_bind_ok (h₁ _ e₁ _),
    run_bind_ok (h₂ _ e₂ _), run_bind_ok (h₃ _ e₃ _), run_bind_ok (h₄ _ e₄ _)]
  rfl

/-- **The wallet codec round-trips every wallet whose descriptors print within
    `MAX_DESCRIPTOR_LEN` and parse back from their text**, whose labels and TXOs round-trip under
    their codecs, and whose cached paths have well-formed child numbers: what `write_to` writes,
    followed by any bytes, reads back as the wallet, and exactly what was written is consumed. -/
theorem wallet_roundTrip {w : Wallet Desc PublicKey}
    (hd : ∀ d ∈ w.descriptors, PrintsBack ms d.desc)
    (ha : ∀ e ∈ w.addresses.entries, fc.address.RoundTrip e.2)
    (ht : ∀ e ∈ w.txos.entries, fc.txo.RoundTrip e.2)
    (hk : ∀ e ∈ w.keyCache.entries, ∀ c ∈ e.1.childNumbers, c.index.toNat < 2 ^ 31) :
    (wallet ms fc).RoundTrip w :=
  wallet_roundTrip_of (vec_roundTrip fun d hd' => descriptor_roundTrip ms (hd d hd'))
    (hashMap_roundTrip fun e he => ⟨script_roundTrip _, ha e he⟩)
    (hashMap_roundTrip fun e he => ⟨outPoint_roundTrip _, ht e he⟩)
    (hashMap_roundTrip fun e he => ⟨derivationPath_roundTrip (hk e he), publicKey_roundTrip _ _⟩)

/-- **A wallet with a descriptor that prints above `MAX_DESCRIPTOR_LEN` does not load from what
    it saves**, when the descriptors before it print within the bound and parse back: the decoder
    stops at that descriptor's length, naming it and the bound. -/
theorem wallet_long_descriptor {w : Wallet Desc PublicKey} {pre post : List (Descriptor Desc)}
    {d : Descriptor Desc} (hw : w.descriptors = pre ++ d :: post)
    (hpre : ∀ e ∈ pre, PrintsBack ms e.desc)
    (hlong : maxDescriptorLen.toNat < (ms.toString d.desc).len)
    (hlt : (ms.toString d.desc).len < 2 ^ 32) {bs : List UInt8}
    (h : (wallet ms fc).writeTo w = .ok bs) (rest : List UInt8) :
    (wallet ms fc).readFrom.run (bs ++ rest) =
      .error (.invalidData
        (.exceeded .reading .descriptor (UInt32.ofNat (ms.toString d.desc).len) maxDescriptorLen)) := by
  obtain ⟨b₁, b₂, b₃, b₄, e₁, -, -, -, rfl⟩ := wallet_writeTo_inv h
  rw [hw] at e₁
  have herr : (vec (descriptor ms)).readFrom.run (b₁ ++ (b₂ ++ (b₃ ++ (b₄ ++ rest)))) =
      .error (.invalidData (.exceeded .reading .descriptor
        (UInt32.ofNat (ms.toString d.desc).len) maxDescriptorLen)) :=
    readSeq_writeSeq_error (fun e he => descriptor_roundTrip ms (hpre e he))
      (descriptor_long ms hlong hlt) e₁ _
  simp only [List.append_assoc]
  rw [wallet, ← List.append_assoc (u32Bytes _), run_bind_ok (u64_readFrom _ _),
    run_bind_error herr]

/-- The decoder reads a descriptor through `from_str` only. -/
theorem wallet_readFrom_congr {ms' : Miniscript Desc PublicKey} (h : ms.fromStr = ms'.fromStr) :
    (wallet ms fc).readFrom = (wallet ms' fc).readFrom := by
  unfold wallet descriptor miniscriptDescriptor
  rw [h]
  rfl

theorem descriptors_writes (ds : List (Descriptor Desc)) (h : ds.length ≤ maxVecElems.toNat) :
    ∃ b, (vec (descriptor ms)).writeTo ds = .ok b :=
  writeSeq_ok h fun d _ => ⟨_, descriptor_writeTo ms d⟩

/-- What the wallet decoder guarantees of a wallet it accepts: every bound an encoder checks, and
    labels and TXOs their own decoders accept. -/
structure Decoded (fc : FieldCodecs PublicKey) (w : Wallet Desc PublicKey) : Prop where
  descriptors : w.descriptors.length ≤ maxVecElems.toNat
  addresses : w.addresses.len ≤ maxVecElems.toNat ∧ ∀ e ∈ w.addresses.entries,
    e.1.bytes.length ≤ maxScriptpubkeySize.toNat ∧ fc.address.Read e.2
  txos : w.txos.len ≤ maxVecElems.toNat ∧ ∀ e ∈ w.txos.entries, fc.txo.Read e.2
  keyCache : w.keyCache.len ≤ maxVecElems.toNat ∧ ∀ e ∈ w.keyCache.entries,
    e.1.childNumbers.length ≤ maxVecElems.toNat ∧ ∀ c ∈ e.1.childNumbers, c.index.toNat < 2 ^ 31

/-- **What the wallet decoder accepts is `Decoded`**, from any bytes: maps that repeat a key
    included. -/
theorem wallet_read {w : Wallet Desc PublicKey} (h : (wallet ms fc).Read w) : Decoded fc w := by
  obtain ⟨_, _, h⟩ := h
  obtain ⟨_, _, -, h⟩ := run_bind_inv h
  obtain ⟨_, _, hds, h⟩ := run_bind_inv h
  obtain ⟨_, _, has, h⟩ := run_bind_inv h
  obtain ⟨_, _, hts, h⟩ := run_bind_inv h
  obtain ⟨_, _, hks, h⟩ := run_bind_inv h
  cases h
  obtain ⟨hal, ha⟩ := hashMap_read ⟨_, _, has⟩
  obtain ⟨htl, ht⟩ := hashMap_read ⟨_, _, hts⟩
  obtain ⟨hkl, hk⟩ := hashMap_read ⟨_, _, hks⟩
  exact ⟨(vec_read ⟨_, _, hds⟩).1, ⟨hal, fun e he => ⟨script_read (ha e he).1, (ha e he).2⟩⟩,
    ⟨htl, fun e he => (ht e he).2⟩, ⟨hkl, fun e he => derivationPath_read (hk e he).1⟩⟩

/-- A decoded wallet whose descriptors print back is saved and reloads, when the `Address` and
    `Txo` codecs save and reload whatever they decode. -/
theorem Decoded.reloads {w : Wallet Desc PublicKey} (hw : Decoded fc w)
    (hd : ∀ d ∈ w.descriptors, PrintsBack ms d.desc)
    (ha : ∀ a, fc.address.Read a → fc.address.Reloads a)
    (ht : ∀ t, fc.txo.Read t → fc.txo.Reloads t) : (wallet ms fc).Reloads w := by
  have h₁ : (vec (descriptor ms)).Reloads w.descriptors :=
    vec_reloads hw.descriptors fun d hd' => ⟨⟨_, rfl⟩, descriptor_roundTrip ms (hd d hd')⟩
  have h₂ : (hashMap script fc.address).Reloads w.addresses :=
    hashMap_reloads hw.addresses.1 fun e he =>
      ⟨script_reloads (hw.addresses.2 e he).1, ha _ (hw.addresses.2 e he).2⟩
  have h₃ : (hashMap outPoint fc.txo).Reloads w.txos :=
    hashMap_reloads hw.txos.1 fun e he => ⟨outPoint_reloads _, ht _ (hw.txos.2 e he)⟩
  have h₄ : (hashMap derivationPath (publicKey fc.key)).Reloads w.keyCache :=
    hashMap_reloads hw.keyCache.1 fun e he =>
      ⟨derivationPath_reloads (hw.keyCache.2 e he).1 (hw.keyCache.2 e he).2, publicKey_reloads _ _⟩
  exact ⟨wallet_writes h₁.1 h₂.1 h₃.1 h₄.1, wallet_roundTrip_of h₁.2 h₂.2 h₃.2 h₄.2⟩

/-- **Load, save, load.** A wallet that `Wallet::read_from` accepts from any bytes, maps that
    repeat a key included, and whose descriptors print within `MAX_DESCRIPTOR_LEN` and parse back
    from their text, is written by `Wallet::write_to`; and `Wallet::read_from` applied to what is
    written, followed by any bytes, returns the same wallet and consumes exactly what was written.
    This holds when the `Address` and `Txo` codecs save and reload whatever they decode. -/
theorem load_save_load {b rest : List UInt8} {w : Wallet Desc PublicKey}
    (hb : (wallet ms fc).readFrom.run b = .ok (w, rest))
    (hd : ∀ d ∈ w.descriptors, PrintsBack ms d.desc)
    (ha : ∀ a, fc.address.Read a → fc.address.Reloads a)
    (ht : ∀ t, fc.txo.Read t → fc.txo.Reloads t) :
    ∃ bs, (wallet ms fc).writeTo w = .ok bs ∧
      ∀ rest', (wallet ms fc).readFrom.run (bs ++ rest') = .ok (w, rest') := by
  obtain ⟨⟨bs, hbs⟩, hrt⟩ := (wallet_read ⟨b, rest, hb⟩).reloads hd ha ht
  exact ⟨bs, hbs, hrt bs hbs⟩

end Wallet

/-! ## 3. Reference codecs -/

/-- Modelled from the spec (`address.rs` is not among the sources): an `Address` is written as
    `descriptor_idx`, `wildcard_idx`, `time` and `notes`. -/
def address : Serialize Address where
  writeTo a := do
    let descriptorIdx ← u32.writeTo a.descriptorIdx
    let wildcardIdx ← u32.writeTo a.wildcardIdx
    let time ← string.writeTo a.createTime
    let notes ← string.writeTo a.notes
    pure (descriptorIdx ++ wildcardIdx ++ time ++ notes)
  readFrom := do
    let descriptorIdx ← u32.readFrom
    let wildcardIdx ← u32.readFrom
    let time ← string.readFrom
    let notes ← string.readFrom
    pure ⟨descriptorIdx, wildcardIdx, time, notes⟩

theorem address_roundTrip (a : Address) : address.RoundTrip a := by
  intro bs h rest
  obtain ⟨_, ⟨⟩, h⟩ := bind_eq_ok.mp h
  obtain ⟨_, ⟨⟩, h⟩ := bind_eq_ok.mp h
  obtain ⟨bt, ht, h⟩ := bind_eq_ok.mp h
  obtain ⟨bn, hn, h⟩ := bind_eq_ok.mp h
  cases h
  simp only [List.append_assoc]
  rw [address, run_bind_ok (u32_readFrom _ _), run_bind_ok (u32_readFrom _ _),
    run_bind_ok (string_roundTrip _ _ ht _), run_bind_ok (string_roundTrip _ _ hn _)]
  rfl

/-- The spec's `Address` codec saves and reloads whatever it decodes. -/
theorem address_reloads_of_read {a : Address} (h : address.Read a) : address.Reloads a := by
  obtain ⟨_, _, h⟩ := h
  obtain ⟨_, _, -, h⟩ := run_bind_inv h
  obtain ⟨_, _, -, h⟩ := run_bind_inv h
  obtain ⟨_, _, ht, h⟩ := run_bind_inv h
  obtain ⟨_, _, hn, h⟩ := run_bind_inv h
  cases h
  obtain ⟨bt, hbt⟩ := (string_reloads (string_read ⟨_, _, ht⟩)).1
  obtain ⟨bn, hbn⟩ := (string_reloads (string_read ⟨_, _, hn⟩)).1
  exact ⟨⟨_, by simp only [address, hbt, hbn]; rfl⟩, address_roundTrip _⟩

/-- A codec that refuses every value. `txo.rs` is not among the sources and the spec does not give
    the layout of a spent TXO; the sample wallet tracks no TXO, so it takes this codec for `Txo`. -/
def refuse {α : Type} : Serialize α where
  writeTo _ := .error .unexpectedEof
  readFrom := throw .unexpectedEof

theorem refuse_read {α : Type} (a : α) : ¬ refuse.Read a := by
  rintro ⟨_, _, ⟨⟩⟩

/-- Keys numbered by `u8`: key `k` is the compressed form `02 00 … 00 k`. -/
def refKeyFormat : KeyFormat UInt8 where
  toBytes k := 2 :: (List.replicate 31 0 ++ [k])
  fromSlice bs := if bs.length = 33 then bs.getLast? else none
  toBytes_form _ := ⟨2, _, rfl, .inl ⟨by decide, by simp⟩⟩
  fromSlice_toBytes _ := by simp

/-- The spec's `Address` codec, the refusing `Txo` codec, and `u8` keys. -/
def refFieldCodecs : FieldCodecs UInt8 := ⟨address, refuse, refKeyFormat⟩

/-! ## 4. Descriptors that print with a checksum -/

/-- The text `a` repeated `n` times. -/
def aText (n : Nat) : List UInt8 := List.replicate n 0x61

/-- `#00000000`: a checksum, as `miniscript` prints one after a descriptor. -/
def checksumBytes : List UInt8 := [0x23, 0x30, 0x30, 0x30, 0x30, 0x30, 0x30, 0x30, 0x30]

theorem ascii_aText (n : Nat) : ∀ b ∈ aText n, b.toNat < 0x80 := fun b hb => by
  rw [List.eq_of_mem_replicate hb]; decide

theorem utf8Valid_aText_append (n : Nat) {l : List UInt8} (hl : ∀ b ∈ l, b.toNat < 0x80) :
    utf8Valid (aText n ++ l) = true :=
  utf8Valid_of_ascii _ fun b hb => (List.mem_append.mp hb).elim (ascii_aText n b) (hl b)

/-- Descriptors numbered by `Nat`, descriptor `n` being the text `a` repeated `n` times, that print
    with a checksum and parse with or without one, as `miniscript`'s do. -/
def checksumMiniscript : Miniscript Nat UInt8 where
  derivedPaths _ _ := []
  hasWildcard _ := false
  scriptPubkey _ _ _ := ⟨[]⟩
  hasAddress _ := true
  toString n := ⟨aText n ++ checksumBytes, utf8Valid_aText_append n (by decide)⟩
  fromStr s :=
    if s.bytes = aText s.len then some s.len
    else if s.bytes = aText (s.len - 9) ++ checksumBytes then some (s.len - 9) else none

/-- The same descriptors, printed without a checksum. -/
def plainMiniscript : Miniscript Nat UInt8 :=
  { checksumMiniscript with toString := fun n => ⟨aText n, utf8Valid_of_ascii _ (ascii_aText n)⟩ }

theorem plainMiniscript_printsBack {n : Nat} (h : n ≤ maxDescriptorLen.toNat) :
    PrintsBack plainMiniscript n := by
  refine ⟨?_, by simpa [plainMiniscript, RString.len, aText] using h⟩
  simp [plainMiniscript, checksumMiniscript, RString.len, aText]

theorem len_checksumMiniscript_toString (n : Nat) :
    (checksumMiniscript.toString n).len = n + 9 := by
  simp [checksumMiniscript, RString.len, aText, checksumBytes]

/-- A wallet whose one descriptor, `a` repeated 65,528 times, prints with its checksum to 65,537
    bytes. -/
def longWallet : Wallet Nat UInt8 := ⟨0, [⟨65528, 0, 0, 0⟩], .empty, .empty, .empty⟩

/-- **`longWallet` is saved, and what is saved does not load**, whatever the codecs of labels,
    TXOs and keys: the decoder stops at the descriptor's length, 65,537. -/
theorem longWallet_unloadable (fc : FieldCodecs UInt8) :
    ∃ bs, (wallet checksumMiniscript fc).writeTo longWallet = .ok bs ∧
      ∀ rest, (wallet checksumMiniscript fc).readFrom.run (bs ++ rest) =
        .error (.invalidData (.exceeded .reading .descriptor 65537 maxDescriptorLen)) := by
  obtain ⟨bs, hbs⟩ : ∃ bs, (wallet checksumMiniscript fc).writeTo longWallet = .ok bs :=
    wallet_writes (descriptors_writes _ (by decide)) ⟨_, rfl⟩ ⟨_, rfl⟩ ⟨_, rfl⟩
  refine ⟨bs, hbs, fun rest => ?_⟩
  have h := @wallet_long_descriptor _ _ checksumMiniscript fc longWallet [] [] _ rfl
    (fun _ h => absurd h (List.not_mem_nil _))
    (by simp only [len_checksumMiniscript_toString]; decide)
    (by simp only [len_checksumMiniscript_toString]; decide) bs hbs rest
  simp only [len_checksumMiniscript_toString] at h
  exact h

/-- A wallet whose one descriptor is `a` repeated 65,536 times: `MAX_DESCRIPTOR_LEN` bytes without
    its checksum, 65,545 with it. -/
def checksumWallet : Wallet Nat UInt8 := ⟨0, [⟨65536, 0, 0, 0⟩], .empty, .empty, .empty⟩

/-- Loaded from its text without the checksum, `checksumWallet` is saved with it, and what is
    saved does not load, whatever the codecs of labels, TXOs and keys. -/
theorem checksumWallet_reload_fails (fc : FieldCodecs UInt8) :
    ∃ b, (wallet checksumMiniscript fc).readFrom.run b = .ok (checksumWallet, []) ∧
      ∃ bs, (wallet checksumMiniscript fc).writeTo checksumWallet = .ok bs ∧
        (wallet checksumMiniscript fc).readFrom.run bs =
          .error (.invalidData (.exceeded .reading .descriptor 65545 maxDescriptorLen)) := by
  obtain ⟨b, hb⟩ : ∃ b, (wallet plainMiniscript fc).writeTo checksumWallet = .ok b :=
    wallet_writes (descriptors_writes _ (by decide)) ⟨_, rfl⟩ ⟨_, rfl⟩ ⟨_, rfl⟩
  obtain ⟨bs, hbs⟩ : ∃ bs, (wallet checksumMiniscript fc).writeTo checksumWallet = .ok bs :=
    wallet_writes (descriptors_writes _ (by decide)) ⟨_, rfl⟩ ⟨_, rfl⟩ ⟨_, rfl⟩
  have hload := wallet_roundTrip
    (fun d hd => (List.mem_singleton.mp hd) ▸ plainMiniscript_printsBack (by decide))
    (fun e he => absurd he (List.not_mem_nil e)) (fun e he => absurd he (List.not_mem_nil e))
    (fun e he => absurd he (List.not_mem_nil e)) b hb []
  rw [List.append_nil, wallet_readFrom_congr
    (show plainMiniscript.fromStr = checksumMiniscript.fromStr from rfl)] at hload
  have hfail := @wallet_long_descriptor _ _ checksumMiniscript fc checksumWallet [] [] _ rfl
    (fun _ h => absurd h (List.not_mem_nil _))
    (by simp only [len_checksumMiniscript_toString]; decide)
    (by simp only [len_checksumMiniscript_toString]; decide) bs hbs []
  simp only [List.append_nil, len_checksumMiniscript_toString] at hfail
  exact ⟨b, hload, bs, hbs, hfail⟩

theorem load_save_fails :
    ∃ b, (wallet checksumMiniscript refFieldCodecs).readFrom.run b = .ok (checksumWallet, []) ∧
      ∃ bs, (wallet checksumMiniscript refFieldCodecs).writeTo checksumWallet = .ok bs ∧
        (wallet checksumMiniscript refFieldCodecs).readFrom.run bs =
          .error (.invalidData (.exceeded .reading .descriptor 65545 maxDescriptorLen)) :=
  checksumWallet_reload_fails refFieldCodecs

/-! ## 5. A wallet that reloads -/

/-- A saved wallet at height 5: descriptor `1` over `[0, 2)`, stored as its text `a` without a
    checksum; no label and no TXO; a key cache that repeats the empty path, with key `1` and then
    key `2`. -/
def sampleBytes : List UInt8 :=
  u32Bytes 5 ++ u32Bytes 0 ++
  u32Bytes 1 ++ (u32Bytes 1 ++ aText 1 ++ u32Bytes 0 ++ u32Bytes 2 ++ u32Bytes 0) ++
  u32Bytes 0 ++ u32Bytes 0 ++
  u32Bytes 2 ++ (u32Bytes 0 ++ refKeyFormat.toBytes 1) ++ (u32Bytes 0 ++ refKeyFormat.toBytes 2)

/-- The wallet `sampleBytes` holds: the later key of the repeated path is kept. -/
def sampleWallet : Wallet Nat UInt8 :=
  ⟨5, [⟨1, 0, 2, 0⟩], .empty, .empty, HashMap.empty.insert ⟨[]⟩ 2⟩

theorem load_save_load_sample :
    (wallet checksumMiniscript refFieldCodecs).readFrom.run sampleBytes = .ok (sampleWallet, []) ∧
    (∀ d ∈ sampleWallet.descriptors, PrintsBack checksumMiniscript d.desc) ∧
    (∀ a, refFieldCodecs.address.Read a → refFieldCodecs.address.Reloads a) ∧
    (∀ t, refFieldCodecs.txo.Read t → refFieldCodecs.txo.Reloads t) ∧
    ∃ bs, (wallet checksumMiniscript refFieldCodecs).writeTo sampleWallet = .ok bs ∧
      ∀ rest', (wallet checksumMiniscript refFieldCodecs).readFrom.run (bs ++ rest') =
        .ok (sampleWallet, rest') :=
  have hb : (wallet checksumMiniscript refFieldCodecs).readFrom.run sampleBytes =
      .ok (sampleWallet, []) := rfl
  have hd : ∀ d ∈ sampleWallet.descriptors, PrintsBack checksumMiniscript d.desc :=
    fun d hd => (List.mem_singleton.mp hd) ▸ ⟨rfl, by decide⟩
  have ha : ∀ a, refFieldCodecs.address.Read a → refFieldCodecs.address.Reloads a :=
    fun _ h => address_reloads_of_read h
  have ht : ∀ t, refFieldCodecs.txo.Read t → refFieldCodecs.txo.Reloads t :=
    fun t h => absurd h (refuse_read t)
  ⟨hb, hd, ha, ht, load_save_load hb hd ha ht⟩

end Serialize

end Icebox
