import Icebox.Icboc.Read
import Icebox.Bitcoin

/-!
# The ICBOC 1D wallet: `EncryptedWallet`

`wallet.rs` keeps an audit log of addresses: a list of 352-byte entries, entry `i` encrypted with
AES-256-CTR under the chaincode of the Ledger key at `bip32_path(network, account, AesKey, i)`
behind a random 16-byte IV. This file is the wallet and its operations:

* `Ledger`, `Primitives` -- what the code takes from the Ledger and from crates outside `src/`:
  keys, random IVs and signatures; AES-CTR (`aesCtr`, which undoes itself under one key and IV),
  the signature check, address parsing;
* `encrypt`, `decrypt`, `decryptAndVerify`, `signAndEncrypt`, `lookupEntry` -- the helpers, as the
  source runs them; `decrypt_encrypt`: an entry decrypts to what was encrypted into it;
* `extend`, `update`, `receive`, `markSpent`, `rerandomize` -- the operations that write, each a
  function of the session (the wallet and the Ledger's count of random draws) returning the
  outcome and the session it leaves, a failed call included;
* `nextUnusedIndex`, `getBalance`, `search` -- the scans that only read.

Arithmetic on `u64` is taken as Rust computes it with overflow checks on, as a debug build does
(`u64Checked`): a sum that passes `u64::MAX` panics. A release build wraps instead.
-/

namespace Icebox

namespace Icboc

/-! ## 1. Paths, the Ledger and the primitives -/

/-- `bitcoin::network::constants::Network`. -/
inductive Network
  | bitcoin
  | testnet
  | regtest
deriving DecidableEq

/-- `KeyPurpose`: the purposes the wallet uses BIP32 keys for. -/
inductive KeyPurpose
  /-- A Bitcoin address. -/
  | address
  /-- The chaincode is an AES key. -/
  | aesKey
deriving DecidableEq

/-- `bip32_path`. -/
def bip32Path (network : Network) (account : UInt32) (purpose : KeyPurpose) (index : UInt32) :
    List UInt32 :=
  let ppIndex : UInt32 := match purpose with
    | .address => 2
    | .aesKey => 3
  let coinType : UInt32 := match network with
    | .bitcoin => 0x80000000
    | .testnet => 0x80000001
    | .regtest => 0x80000001
  [0x8000002c, coinType, 0x80000000 ||| account, 0x80000000 ||| ppIndex, 0x80000000 ||| index]

/-- What `get_public_key` answers. -/
structure KeyInfo (PublicKey : Type) where
  publicKey : PublicKey
  chaincode : Bytes 32
  b58Address : RString

/-- The Ledger, as the legacy code asks it: an answer, or the code of the error it reports. Every
    answer is a function of the request, except that `get_random` answers its `n`th call with
    `getRandom n`. -/
structure Ledger (PublicKey : Type) where
  /-- `set_network`. -/
  setNetwork : Network → Except Nat Unit
  /-- `get_public_key(path, _)`. -/
  getPublicKey : List UInt32 → Except Nat (KeyInfo PublicKey)
  /-- `get_random(16)`. -/
  getRandom : Nat → Except Nat (Bytes 16)
  /-- `sign_message(msg, path)`. -/
  signMessage : List UInt8 → List UInt32 → Except Nat (Bytes 64)
  /-- `get_trusted_input(tx, vout)`. -/
  getTrustedInput : Transaction → UInt32 → Except Nat (Bytes 56)

/-- What the legacy code takes from crates that are not under `src/`. -/
structure Primitives (PublicKey Addr : Type) where
  /-- `aes::ctr(KeySize256, key, iv).process(input, output)`: the input XORed with the key
      stream. -/
  aesCtr : Bytes 32 → Bytes 16 → List UInt8 → List UInt8
  aesCtr_aesCtr : ∀ key iv data, aesCtr key iv (aesCtr key iv data) = data
  aesCtr_length : ∀ key iv data, (aesCtr key iv data).length = data.length
  /-- `convert_compact_to_secp(sig)` (`none` when the bytes do not parse), then
      `secp.verify(msg, sig, key).is_ok()` on the signed-message hash of the bytes. -/
  verify : Bytes 64 → List UInt8 → PublicKey → Option Bool
  /-- `Address::from_str`. -/
  addressFromStr : RString → Option Addr
  /-- `Address::script_pubkey`. -/
  scriptPubkey : Addr → Script
  /-- `Display for Sha256dHash`: the text `format!("{}", hash)` writes. -/
  displayTxid : Txid → RString

/-- `ENCRYPTED_ENTRY_SIZE`. -/
def encryptedEntrySize : Nat := 352

/-- `MAX_USER_ID_BYTES` and `MAX_NOTE_BYTES`: `constants.rs` is not under `src/`; these are the
    widths of the User ID and Note fields in the entry layout of `wallet.rs`. -/
def maxUserIdBytes : Nat := 32

def maxNoteBytes : Nat := 80

/-- `Entry`, all of it: the state, path, address and index `decrypt_and_verify` adds to the fields
    `sign_and_encrypt` writes. -/
structure FullEntry (Addr : Type) where
  state : EntryState
  bip32Path : List UInt32
  address : Addr
  index : Nat
  fields : Entry

/-- `EncryptedWallet`. -/
structure EncryptedWallet where
  network : Network
  account : UInt32
  entries : List (Bytes encryptedEntrySize)

/-- The wallet and the number of `get_random` calls the Ledger has answered. -/
structure LegacySession where
  wallet : EncryptedWallet
  draws : Nat

/-- `self.entries[i] = block`: panics past the end. -/
def EncryptedWallet.setEntry (w : EncryptedWallet) (i : Nat) (block : Bytes encryptedEntrySize) :
    Except LegacyError EncryptedWallet :=
  if i < w.entries.length then .ok { w with entries := w.entries.set i block } else .error .panic

/-- A `u64` result as Rust computes it with overflow checks on: the number, or a panic where it
    passes `u64::MAX`. -/
def u64Checked (n : Nat) : Except LegacyError Nat :=
  if n < 2 ^ 64 then .ok n else .error .panic

theorem u64Checked_eq_ok {n m : Nat} : u64Checked n = .ok m ↔ n = m ∧ n < 2 ^ 64 := by
  unfold u64Checked
  split
  · rename_i h
    exact ⟨fun he => ⟨Except.ok.inj he, h⟩, fun ⟨he, _⟩ => he ▸ rfl⟩
  · rename_i h
    exact ⟨fun he => (by cases he), fun ⟨_, hn⟩ => absurd hn h⟩

theorem u64Checked_of_lt {n : Nat} (h : n < 2 ^ 64) : u64Checked n = .ok n := if_pos h

theorem u64Checked_of_le {n : Nat} (h : 2 ^ 64 ≤ n) : u64Checked n = .error .panic :=
  if_neg (Nat.not_lt_of_le h)

theorem copyFromSlice_length {dst out : List UInt8} {lo hi : Nat} {src : List UInt8}
    (h : copyFromSlice dst lo hi src = some out) : out.length = dst.length := by
  unfold copyFromSlice at h
  split at h
  · rename_i hc
    cases h
    simp only [List.length_append, List.length_take, List.length_drop]
    omega
  · cases h

theorem signAndEncryptInput_length {e : Entry} {sig : Bytes 64} {out : List UInt8}
    (h : e.signAndEncryptInput sig = some out) : out.length = decryptedEntrySize := by
  simp only [Entry.signAndEncryptInput, Option.bind_eq_bind, Option.bind_eq_some] at h
  obtain ⟨a1, h1, a2, h2, a3, h3, a4, h4, a5, h5, a6, h6, a7, h7, a8, h8, a9, h9, h10⟩ := h
  rw [copyFromSlice_length h10, copyFromSlice_length h9, copyFromSlice_length h8,
    copyFromSlice_length h7, copyFromSlice_length h6, copyFromSlice_length h5,
    copyFromSlice_length h4, copyFromSlice_length h3, copyFromSlice_length h2,
    copyFromSlice_length h1, List.length_replicate]

/-- The bytes of the text `"change of "`. -/
def changeOfBytes : List UInt8 := [99, 104, 97, 110, 103, 101, 32, 111, 102, 32]

/-- `format!("change of {}", hash)`, with the text the hash displays as. -/
def changeNote (hash : RString) : RString :=
  ⟨changeOfBytes ++ hash.bytes, utf8Valid_append _ hash.valid _ (by decide)⟩

theorem changeNote_len (hash : RString) : (changeNote hash).len = 10 + hash.len := by
  simp only [changeNote, RString.len, List.length_append]
  rfl

section Ops

variable {PublicKey Addr : Type} (L : Ledger PublicKey) (P : Primitives PublicKey Addr)

/-! ## 2. Encryption and the entry codec -/

/-- `encrypt`: the IV, then the input encrypted under the AES key of entry `index`. -/
def encrypt (network : Network) (account : UInt32) (index : Nat)
    (input : Bytes decryptedEntrySize) (draws : Nat) :
    Except LegacyError (Bytes encryptedEntrySize) × Nat :=
  match L.getPublicKey (bip32Path network account .aesKey (UInt32.ofNat index)) with
  | .error e => (.error (.dongle e), draws)
  | .ok key =>
    match L.getRandom draws with
    | .error e => (.error (.dongle e), draws + 1)
    | .ok iv =>
      (.ok ⟨iv.1 ++ P.aesCtr key.chaincode iv input.1, by
        rw [List.length_append, P.aesCtr_length, iv.2, input.2]; rfl⟩, draws + 1)

/-- `decrypt`: the bytes after the IV, decrypted under the AES key of entry `index`. -/
def decrypt (network : Network) (account : UInt32) (index : Nat)
    (input : Bytes encryptedEntrySize) : Except LegacyError (Bytes decryptedEntrySize) :=
  match L.getPublicKey (bip32Path network account .aesKey (UInt32.ofNat index)) with
  | .error e => .error (.dongle e)
  | .ok key =>
    .ok ⟨P.aesCtr key.chaincode (subBytes input 0 16 (by decide)) (input.1.drop 16), by
      rw [P.aesCtr_length, List.length_drop, input.2]; rfl⟩

/-- `Entry::decrypt_and_verify`. -/
def decryptAndVerify (network : Network) (account : UInt32) (index : Nat)
    (input : Bytes encryptedEntrySize) : Except LegacyError (FullEntry Addr) :=
  match decrypt L P network account index input with
  | .error e => .error e
  | .ok data =>
    let path := bip32Path network account .address (UInt32.ofNat index)
    match L.getPublicKey path with
    | .error e => .error (.dongle e)
    | .ok key =>
      if ((data.1.drop 164).take 24).all (· == 0) then
        match P.addressFromStr key.b58Address with
        | none => .error .address
        | some address => .ok ⟨.unused, path, address, index, blankEntry⟩
      else
        match P.verify (subBytes data 0 64 (by decide)) (data.1.drop 64) key.publicKey with
        | none => .error .secp
        | some verified =>
          match P.addressFromStr key.b58Address with
          | none => .error .address
          | some address =>
            match readEntry data verified with
            | .error e => .error e
            | .ok (state, fields) => .ok ⟨state, path, address, index, fields⟩

/-- The 64 zero bytes `sign_and_encrypt` starts from where the signature goes. -/
def zeroSig : Bytes 64 := ⟨List.replicate 64 0, List.length_replicate _ _⟩

/-- `Entry::sign_and_encrypt`: the fields laid out over zeros, bytes 64 to 336 signed by the key of
    the entry's address, the signature written in front, and the whole encrypted. -/
def signAndEncrypt (network : Network) (account : UInt32) (e : Entry) (index : Nat)
    (draws : Nat) : Except LegacyError (Bytes encryptedEntrySize) × Nat :=
  match h : e.signAndEncryptInput zeroSig with
  | none => (.error .panic, draws)
  | some input =>
    match L.signMessage (input.drop 64) (bip32Path network account .address (UInt32.ofNat index))
    with
    | .error err => (.error (.dongle err), draws)
    | .ok sig =>
      encrypt L P network account index ⟨sig.1 ++ input.drop 64, by
        rw [List.length_append, List.length_drop, signAndEncryptInput_length h, sig.2]; rfl⟩ draws

/-- `EncryptedWallet::lookup`. -/
def lookupEntry (w : EncryptedWallet) (index : Nat) : Except LegacyError (FullEntry Addr) :=
  if h : index + 1 > w.entries.length then .error (.entryOutOfRange index)
  else decryptAndVerify L P w.network w.account index (w.entries.get ⟨index, by omega⟩)

/-! ## 3. The operations that write -/

/-- The loop of `EncryptedWallet::extend` and `EncryptedWallet::new`: `k` encrypted blocks of
    zeros pushed at entries `i`, `i + 1`, …, up to the first failure of `encrypt`. It returns the
    outcome with the entries as they stand: the blocks pushed before a failure stay. -/
def pushZeros (network : Network) (account : UInt32) :
    Nat → Nat → List (Bytes encryptedEntrySize) → Nat →
      Except LegacyError Unit × List (Bytes encryptedEntrySize) × Nat
  | _, 0, entries, draws => (.ok (), entries, draws)
  | i, k + 1, entries, draws =>
    match encrypt L P network account i
        ⟨List.replicate decryptedEntrySize 0, List.length_replicate _ _⟩ draws with
    | (.error e, d) => (.error e, entries, d)
    | (.ok block, d) => pushZeros network account (i + 1) k (entries ++ [block]) d

/-- `EncryptedWallet::extend`: up to `n` entries. A failing `encrypt` returns its error from a
    wallet that keeps the blocks pushed before it. -/
def extend (n : Nat) (s : LegacySession) : Except LegacyError Unit × LegacySession :=
  let w := s.wallet
  if n ≤ w.entries.length then (.ok (), s)
  else
    let r := pushZeros L P w.network w.account w.entries.length (n - w.entries.length) w.entries
      s.draws
    (r.1, ⟨{ w with entries := r.2.1 }, r.2.2⟩)

/-- `Update`: what `update` is told about the entry. -/
inductive Update
  /-- The entry is labelled but has not yet received any coins. -/
  | unused (note : RString)
  /-- The entry is created as change, so is immediately used. -/
  | change (tx : Transaction) (vout : UInt32)

/-- The `match data` of `EncryptedWallet::update`: the state, note, trusted input, txid, vout and
    amount the entry gets. -/
def updateFields : Update →
    Except LegacyError (EntryState × RString × Bytes 56 × Bytes 32 × UInt32 × UInt64)
  | .unused note =>
    if note.len > maxNoteBytes then .error (.noteTooLong note.len maxNoteBytes)
    else .ok (.valid, note, ⟨List.replicate 56 0, List.length_replicate _ _⟩,
      ⟨List.replicate 32 0, List.length_replicate _ _⟩, 0, 0)
  | .change tx vout =>
    match L.getTrustedInput tx vout with
    | .error e => .error (.dongle e)
    | .ok trustedInput =>
      match tx.output[vout.toNat]? with
      | none => .error .panic
      | some out => .ok (.received, changeNote (P.displayTxid tx.txid), trustedInput,
          ⟨tx.txid.bytes, tx.txid.length_eq⟩, vout, out.value)

/-- `EncryptedWallet::update`, at the time `timestr` (the 24 bytes of
    `time::strftime("%F %T%z", &time::now())`). -/
def update (index : Nat) (user : RString) (blockhash : Bytes 32) (data : Update)
    (timestr : Bytes 24) (s : LegacySession) : Except LegacyError (FullEntry Addr) × LegacySession :=
  let w := s.wallet
  if user.len > maxUserIdBytes then (.error (.userIdTooLong user.len maxUserIdBytes), s)
  else
    let path := bip32Path w.network w.account .address (UInt32.ofNat index)
    match L.getPublicKey path with
    | .error e => (.error (.dongle e), s)
    | .ok key =>
      match updateFields L P data with
      | .error e => (.error e, s)
      | .ok (state, note, trustedInput, txid, vout, amount) =>
        match P.addressFromStr key.b58Address with
        | none => (.error .address, s)
        | some address =>
          let entry : FullEntry Addr := ⟨state, path, address, index,
            ⟨false, trustedInput, txid, vout, amount, timestr, blockhash, user, note⟩⟩
          match signAndEncrypt L P w.network w.account entry.fields index s.draws with
          | (.error e, d) => (.error e, { s with draws := d })
          | (.ok block, d) =>
            match w.setEntry index block with
            | .error e => (.error e, { s with draws := d })
            | .ok w' => (.ok entry, ⟨w', d⟩)

/-- The `EntryState::Valid` arm of `EncryptedWallet::receive`: entry `i` records output `vout` of
    `tx` and is signed, encrypted and written back. -/
def recordOutput (tx : Transaction) (i vout : Nat) (out : TxOut) (entry : FullEntry Addr)
    (s : LegacySession) : Except LegacyError (FullEntry Addr) × LegacySession :=
  match L.getTrustedInput tx (UInt32.ofNat vout) with
  | .error e => (.error (.dongle e), s)
  | .ok trustedInput =>
    let entry' : FullEntry Addr := { entry with
      state := .received
      fields := { entry.fields with
        trustedInput := trustedInput, txid := ⟨tx.txid.bytes, tx.txid.length_eq⟩
        vout := UInt32.ofNat vout, amount := out.value } }
    match signAndEncrypt L P s.wallet.network s.wallet.account entry'.fields i s.draws with
    | (.error e, d) => (.error e, { s with draws := d })
    | (.ok block, d) =>
      match s.wallet.setEntry i block with
      | .error e => (.error e, { s with draws := d })
      | .ok w' => (.ok entry', ⟨w', d⟩)

/-- The output loop of `EncryptedWallet::receive` for entry `i`, from output `vout` on, with the
    entry as it stands. -/
def receiveOutputs (tx : Transaction) (i : Nat) :
    Nat → List TxOut → FullEntry Addr → LegacySession → Except LegacyError Unit × LegacySession
  | _, [], _, s => (.ok (), s)
  | vout, out :: outs, entry, s =>
    if out.scriptPubkey.bytes = (P.scriptPubkey entry.address).bytes then
      match entry.state with
      | .unused => (.error .panic, s)
      | .invalid => (.error .badSignature, s)
      | .received =>
        if entry.fields.txid.1 == tx.txid.bytes && entry.fields.vout == UInt32.ofNat vout then
          receiveOutputs tx i (vout + 1) outs entry s
        else (.error .doubleReceive, s)
      | .valid =>
        match recordOutput L P tx i vout out entry s with
        | (.error e, s') => (.error e, s')
        | (.ok entry', s') => receiveOutputs tx i (vout + 1) outs entry' s'
    else receiveOutputs tx i (vout + 1) outs entry s

/-- The entry loop of `EncryptedWallet::receive`, over the `k` entries from `i` on. -/
def receiveFrom (tx : Transaction) : Nat → Nat → LegacySession → Except LegacyError Unit × LegacySession
  | _, 0, s => (.ok (), s)
  | i, k + 1, s =>
    match lookupEntry L P s.wallet i with
    | .error e => (.error e, s)
    | .ok entry =>
      if entry.state = .unused then receiveFrom tx (i + 1) k s
      else
        match receiveOutputs L P tx i 0 tx.output entry s with
        | (.error e, s') => (.error e, s')
        | (.ok (), s') => receiveFrom tx (i + 1) k s'

/-- `EncryptedWallet::receive`. -/
def receive (tx : Transaction) (s : LegacySession) : Except LegacyError Unit × LegacySession :=
  receiveFrom L P tx 0 s.wallet.entries.length s

/-- `EncryptedWallet::mark_spent`. -/
def markSpent (index : Nat) (s : LegacySession) : Except LegacyError Unit × LegacySession :=
  match lookupEntry L P s.wallet index with
  | .error e => (.error e, s)
  | .ok entry =>
    match signAndEncrypt L P s.wallet.network s.wallet.account
        { entry.fields with spent := true } index s.draws with
    | (.error e, d) => (.error e, { s with draws := d })
    | (.ok block, d) =>
      match s.wallet.setEntry index block with
      | .error e => (.error e, { s with draws := d })
      | .ok w' => (.ok (), ⟨w', d⟩)

/-- The loop of `EncryptedWallet::rerandomize`, over the `k` entries from `i` on. -/
def rerandomizeFrom : Nat → Nat → LegacySession → Except LegacyError Unit × LegacySession
  | _, 0, s => (.ok (), s)
  | i, k + 1, s =>
    match s.wallet.entries[i]? with
    | none => (.error .panic, s)
    | some block =>
      match decrypt L P s.wallet.network s.wallet.account i block with
      | .error e => (.error e, s)
      | .ok tmp =>
        match encrypt L P s.wallet.network s.wallet.account i tmp s.draws with
        | (.error e, d) => (.error e, { s with draws := d })
        | (.ok block', d) =>
          rerandomizeFrom (i + 1) k ⟨{ s.wallet with entries := s.wallet.entries.set i block' }, d⟩

/-- `EncryptedWallet::rerandomize`. -/
def rerandomize (s : LegacySession) : Except LegacyError Unit × LegacySession :=
  rerandomizeFrom L P 0 s.wallet.entries.length s

/-- `EncryptedWallet::new`: the network set on the Ledger, then `n_entries` encrypted blocks of
    zeros. -/
def new (network : Network) (account : UInt32) (nEntries draws : Nat) :
    Except LegacyError EncryptedWallet × Nat :=
  match L.setNetwork network with
  | .error e => (.error (.dongle e), draws)
  | .ok () =>
    match pushZeros L P network account 0 nEntries [] draws with
    | (.error e, _, d) => (.error e, d)
    | (.ok (), entries, d) => (.ok ⟨network, account, entries⟩, d)

/-! ## 4. The scans -/

/-- The loop of `EncryptedWallet::next_unused_index`, over the `k` entries from `i` on. -/
def nextUnusedFrom (w : EncryptedWallet) : Nat → Nat → Except LegacyError Nat
  | _, 0 => .error .walletFull
  | i, k + 1 =>
    match lookupEntry L P w i with
    | .error e => .error e
    | .ok entry => if entry.state = .unused then .ok entry.index else nextUnusedFrom w (i + 1) k

/-- `EncryptedWallet::next_unused_index`. -/
def nextUnusedIndex (w : EncryptedWallet) : Except LegacyError Nat :=
  nextUnusedFrom L P w 0 w.entries.length

/-- The loop of `EncryptedWallet::get_balance`, over the `k` entries from `i` on, with
    `balance += entry.amount` on `u64`. -/
def balanceFrom (w : EncryptedWallet) : Nat → Nat → Nat → Except LegacyError Nat
  | _, 0, balance => .ok balance
  | i, k + 1, balance =>
    match lookupEntry L P w i with
    | .error e => .error e
    | .ok entry =>
      if entry.fields.spent then balanceFrom w (i + 1) k balance
      else
        match u64Checked (balance + entry.fields.amount.toNat) with
        | .error e => .error e
        | .ok balance => balanceFrom w (i + 1) k balance

/-- `EncryptedWallet::get_balance`. -/
def getBalance (w : EncryptedWallet) : Except LegacyError Nat :=
  balanceFrom L P w 0 w.entries.length 0

/-- The loop of `EncryptedWallet::search`, over the blocks from entry `i` on. -/
def searchFrom (w : EncryptedWallet) (address : RString) :
    Nat → List (Bytes encryptedEntrySize) → Except LegacyError (FullEntry Addr)
  | _, [] => .error .addressNotFound
  | i, block :: rest =>
    match L.getPublicKey (bip32Path w.network w.account .address (UInt32.ofNat i)) with
    | .error e => .error (.dongle e)
    | .ok key =>
      if key.b58Address.bytes = address.bytes then
        decryptAndVerify L P w.network w.account i block
      else searchFrom w address (i + 1) rest

/-- `EncryptedWallet::search`. -/
def search (w : EncryptedWallet) (address : RString) : Except LegacyError (FullEntry Addr) :=
  searchFrom L P w address 0 w.entries

/-! ## 5. Encryption undone -/

theorem encrypt_eq_ok {network : Network} {account : UInt32} {index : Nat}
    {input : Bytes decryptedEntrySize} {draws draws' : Nat} {block : Bytes encryptedEntrySize}
    (h : encrypt L P network account index input draws = (.ok block, draws')) :
    ∃ key iv, L.getPublicKey (bip32Path network account .aesKey (UInt32.ofNat index)) = .ok key ∧
      L.getRandom draws = .ok iv ∧ block.1 = iv.1 ++ P.aesCtr key.chaincode iv input.1 ∧
      draws' = draws + 1 := by
  unfold encrypt at h
  split at h
  · cases h
  · split at h
    · cases h
    · cases h
      exact ⟨_, _, ‹_›, ‹_›, rfl, rfl⟩

/-- **An encrypted entry decrypts to what was encrypted**: the AES key of an entry is a function
    of its path, and the IV travels in front of the ciphertext. -/
theorem decrypt_encrypt {network : Network} {account : UInt32} {index : Nat}
    {input : Bytes decryptedEntrySize} {draws draws' : Nat} {block : Bytes encryptedEntrySize}
    (h : encrypt L P network account index input draws = (.ok block, draws')) :
    decrypt L P network account index block = .ok input := by
  obtain ⟨key, iv, hk, -, hb, -⟩ := encrypt_eq_ok L P h
  have hiv : subBytes block 0 16 (by decide) = iv :=
    Subtype.ext (by simp only [subBytes, hb, List.drop_zero, List.take_left' iv.2])
  have hc : block.1.drop 16 = P.aesCtr key.chaincode iv input.1 := by
    rw [hb]; exact List.drop_left' iv.2
  simp only [decrypt, hk, hiv, hc, P.aesCtr_aesCtr]

/-- The layout is the signature followed by the signed bytes, which do not depend on it. -/
theorem layout_eq_append (e : Entry) (sig : Bytes 64) :
    e.layout sig = sig.1 ++ (e.layout zeroSig).drop 64 := by
  simp only [Entry.layout, List.append_assoc]
  rw [List.drop_left' zeroSig.2]

/-- **What `sign_and_encrypt` encrypts**: for an entry whose user and note fit their fields, the
    layout of the entry under the signature the Ledger gave for its bytes 64 to 336, with the key
    of the entry's address. -/
theorem signAndEncrypt_eq_ok {network : Network} {account : UInt32} {e : Entry} {index : Nat}
    {draws draws' : Nat} {block : Bytes encryptedEntrySize} (huser : e.user.len ≤ 32)
    (hnote : e.note.len ≤ 80)
    (h : signAndEncrypt L P network account e index draws = (.ok block, draws')) :
    ∃ sig, L.signMessage ((e.layout zeroSig).drop 64)
        (bip32Path network account .address (UInt32.ofNat index)) = .ok sig ∧
      decrypt L P network account index block = .ok ⟨e.layout sig, length_layout e sig huser hnote⟩ := by
  unfold signAndEncrypt at h
  split at h
  · cases h
  · rename_i input hin
    rw [signAndEncryptInput_eq e zeroSig huser hnote, Option.some.injEq] at hin
    subst hin
    split at h
    · cases h
    · rename_i sig hsig
      exact ⟨sig, hsig, (decrypt_encrypt L P h).trans
        (congrArg Except.ok (Subtype.ext (layout_eq_append e sig).symm))⟩

/-! ## 6. Reading an entry -/

/-- **What a lookup returns**: the state and fields `readEntry` reads from the plaintext, for the
    outcome of the signature check (the blank entry, whatever it is, when the date is all zeros),
    with the path and the address of the entry's key. -/
theorem decryptAndVerify_eq_ok {network : Network} {account : UInt32} {index : Nat}
    {input : Bytes encryptedEntrySize} {fe : FullEntry Addr}
    (h : decryptAndVerify L P network account index input = .ok fe) :
    ∃ data v key, decrypt L P network account index input = .ok data ∧
      L.getPublicKey (bip32Path network account .address (UInt32.ofNat index)) = .ok key ∧
      P.addressFromStr key.b58Address = some fe.address ∧
      readEntry data v = .ok (fe.state, fe.fields) ∧
      fe.bip32Path = bip32Path network account .address (UInt32.ofNat index) ∧ fe.index = index := by
  unfold decryptAndVerify at h
  split at h
  · cases h
  rename_i data hd
  dsimp only at h
  split at h
  · cases h
  rename_i key hk
  split at h
  · rename_i hz
    split at h
    · cases h
    · rename_i a ha
      cases h
      exact ⟨data, false, key, hd, hk, ha, by rw [readEntry, if_pos hz], rfl, rfl⟩
  · split at h
    · cases h
    · rename_i v hv
      split at h
      · cases h
      · rename_i a ha
        split at h
        · cases h
        · rename_i st f hr
          cases h
          exact ⟨data, v, key, hd, hk, ha, hr, rfl, rfl⟩

theorem decrypt_error {network : Network} {account : UInt32} {index : Nat}
    {input : Bytes encryptedEntrySize} {e : LegacyError}
    (h : decrypt L P network account index input = .error e) : ∃ c, e = .dongle c := by
  unfold decrypt at h
  split at h
  · cases h
    exact ⟨_, rfl⟩
  · cases h

/-- **The ways a lookup fails**: an index out of range, the Ledger, signature bytes that do not
    parse, an address that does not parse, or a user or a note that is not UTF-8. -/
theorem lookupEntry_error {w : EncryptedWallet} {index : Nat} {e : LegacyError}
    (h : lookupEntry L P w index = .error e) :
    e = .entryOutOfRange index ∨ (∃ c, e = .dongle c) ∨ e = .secp ∨ e = .address ∨
      ∃ bs, e = .utf8 bs := by
  unfold lookupEntry at h
  split at h
  · cases h
    exact .inl rfl
  unfold decryptAndVerify at h
  split at h
  · rename_i hd
    cases h
    exact .inr (.inl (decrypt_error L P hd))
  dsimp only at h
  split at h
  · cases h
    exact .inr (.inl ⟨_, rfl⟩)
  split at h
  · split at h
    · cases h
      exact .inr (.inr (.inr (.inl rfl)))
    · cases h
  · split at h
    · cases h
      exact .inr (.inr (.inl rfl))
    · split at h
      · cases h
        exact .inr (.inr (.inr (.inl rfl)))
      · split at h
        · rename_i hr
          cases h
          exact .inr (.inr (.inr (.inr (readEntry_error hr))))
        · cases h

theorem decryptAndVerify_eq {network : Network} {account : UInt32} {index : Nat}
    {input : Bytes encryptedEntrySize} {data : Bytes decryptedEntrySize} {key : KeyInfo PublicKey}
    {v : Bool} {a : Addr} (hd : decrypt L P network account index input = .ok data)
    (hk : L.getPublicKey (bip32Path network account .address (UInt32.ofNat index)) = .ok key)
    (hv : P.verify (subBytes data 0 64 (by decide)) (data.1.drop 64) key.publicKey = some v)
    (ha : P.addressFromStr key.b58Address = some a) :
    decryptAndVerify L P network account index input = (readEntry data v).map fun r =>
      ⟨r.1, bip32Path network account .address (UInt32.ofNat index), a, index, r.2⟩ := by
  simp only [decryptAndVerify, hd, hk, hv, ha]
  split
  · rename_i hz
    rw [readEntry, if_pos hz]
    rfl
  · cases readEntry data v <;> rfl

end Ops

/-! ## 7. A Ledger to run the model on -/

/-- A Ledger that grants every request, with zero keys, chaincodes, IVs, signatures and trusted
    inputs. -/
def zeroLedger : Ledger Unit where
  setNetwork _ := .ok ()
  getPublicKey _ := .ok ⟨(), ⟨List.replicate 32 0, rfl⟩, ⟨[], rfl⟩⟩
  getRandom _ := .ok ⟨List.replicate 16 0, rfl⟩
  signMessage _ _ := .ok ⟨List.replicate 64 0, rfl⟩
  getTrustedInput _ _ := .ok ⟨List.replicate 56 0, rfl⟩

/-- Primitives with a zero key stream, signatures that all verify and one address, paid by the
    empty script. -/
def plainPrimitives : Primitives Unit Unit where
  aesCtr _ _ data := data
  aesCtr_aesCtr _ _ _ := rfl
  aesCtr_length _ _ _ := rfl
  verify _ _ _ := some true
  addressFromStr _ := some ()
  scriptPubkey _ := ⟨[]⟩
  displayTxid _ := ⟨[], rfl⟩

/-- A mainnet wallet of account 0 with one blank entry. -/
def blankSession : LegacySession :=
  ⟨⟨.bitcoin, 0, [⟨List.replicate encryptedEntrySize 0, List.length_replicate _ _⟩]⟩, 0⟩

/-- The session `update` leaves after labelling entry 0 of `blankSession` with an empty user and
    note at the time `"111111111111111111111111"`. -/
def labelledSession : LegacySession :=
  (update zeroLedger plainPrimitives 0 ⟨[], rfl⟩ ⟨List.replicate 32 0, rfl⟩ (.unused ⟨[], rfl⟩)
    ⟨List.replicate 24 0x31, rfl⟩ blankSession).2

/-- A transaction paying 5000 to the empty script, which `plainPrimitives`' address pays to. -/
def paidOnce : Transaction :=
  ⟨⟨List.replicate 32 0, List.length_replicate _ _⟩, [], [⟨5000, ⟨[]⟩⟩]⟩

/-- `zeroLedger`, but with trusted inputs of ones, so that an entry that records a receive reads
    `Received`. -/
def fundingLedger : Ledger Unit :=
  { zeroLedger with getTrustedInput := fun _ _ => .ok ⟨List.replicate 56 1, rfl⟩ }

/-- `labelledSession` after `receive` of `paidOnce`: entry 0 reads `Received`, 5000, not spent. -/
def fundedSession : LegacySession :=
  (receive fundingLedger plainPrimitives paidOnce labelledSession).2

end Icboc

end Icebox
