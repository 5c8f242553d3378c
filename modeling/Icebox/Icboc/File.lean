import Icebox.Icboc.Legacy

/-!
# The ICBOC 1D wallet file, and how the importer reads it

`EncryptedWallet::save` writes a 12-byte header, the magic word of the wallet's network and the
account, followed by the encrypted entries; `EncryptedWallet::load` checks the size and the magic
word and reads them back. `ImportIcboc::execute` reads the same file with checks of its own (the
mainnet magic bytes, account 0) and decrypts entry `i` under the chaincode of the key at
`44h/0h/0h/3h/ih`. This file models the file as both readers open it and the bytes they read:

* `DiskFile` -- whether `fs::metadata` and `fs::File::open` succeed, and the file's bytes; a read
  of an opened file fails only at its end (the I/O errors a disk can give a read are left out);
* `readExact`, `readBlocks` -- the reads, one definition for both readers, with the error each
  reports at the end of the file;
* `save`, `load` -- `load_save`: a saved wallet loads back with its account and entries, on the
  network its magic word names, and `save_load`: every file `load` accepts is what `save` writes
  of the wallet it returns; `load_error`: the size check leaves no read that can fail, so `load`
  fails only on the file system, the size, the magic word or the Ledger;
* `readIcboc` -- the importer's reader; `readIcboc_save`: on a saved wallet it accepts exactly the
  non-testnet wallets of account 0, and returns their entries; `readIcboc_error`: no read fails;
* `importKeyPath`, `importDecrypt` -- `importDecrypt_eq_decrypt`: the importer decrypts entry `i`
  as a mainnet wallet of account 0 does.
-/

namespace Icebox

namespace Icboc

/-! ## 1. Reads -/

/-- The file at a path as the legacy code opens it: whether `fs::metadata` and `fs::File::open`
    succeed on it, and its bytes, whose number `metadata` reports. -/
structure DiskFile where
  metadata : Bool
  opens : Bool
  bytes : List UInt8

/-- A file that exists and opens, with these bytes. -/
def DiskFile.ofBytes (bytes : List UInt8) : DiskFile := ⟨true, true, bytes⟩

/-- `read_exact(&mut buf[..n])`: the next `n` bytes and what follows them, or `err` where the file
    ends first. -/
def readExact {ε : Type} (err : ε) (n : Nat) (bs : List UInt8) :
    Except ε (List UInt8 × List UInt8) :=
  if n ≤ bs.length then .ok (bs.take n, bs.drop n) else .error err

/-- `n` entries of `ENCRYPTED_ENTRY_SIZE` bytes read one after another, the first of them entry
    `i`, with `err j` where the file ends inside entry `j`. -/
def readBlocks {ε : Type} (err : Nat → ε) : Nat → Nat → List UInt8 →
    Except ε (List (Bytes encryptedEntrySize))
  | _, 0, _ => .ok []
  | i, n + 1, bs =>
    if h : encryptedEntrySize ≤ bs.length then
      match readBlocks err (i + 1) n (bs.drop encryptedEntrySize) with
      | .error e => .error e
      | .ok blocks =>
        .ok (⟨bs.take encryptedEntrySize, by rw [List.length_take, Nat.min_eq_left h]⟩ :: blocks)
    else .error (err i)

section Reads

variable {ε : Type}

theorem readExact_append (err : ε) (a rest : List UInt8) :
    readExact err a.length (a ++ rest) = .ok (a, rest) := by
  rw [readExact, if_pos (by simp), List.take_left, List.drop_left]

theorem readExact_eq_ok {err : ε} {n : Nat} {bs a rest : List UInt8}
    (h : readExact err n bs = .ok (a, rest)) : a.length = n ∧ a ++ rest = bs := by
  unfold readExact at h
  split at h
  · rename_i hn
    cases h
    exact ⟨by rw [List.length_take, Nat.min_eq_left hn], List.take_append_drop n bs⟩
  · cases h

theorem readExact_of_le (err : ε) {n : Nat} {bs : List UInt8} (h : n ≤ bs.length) :
    readExact err n bs = .ok (bs.take n, bs.drop n) :=
  if_pos h

theorem readExact_beBytes (err : ε) (n x : Nat) (rest : List UInt8) :
    readExact err n (beBytes n x ++ rest) = .ok (beBytes n x, rest) := by
  simpa only [length_beBytes] using readExact_append err (beBytes n x) rest

/-- The entries written one after another read back, whatever follows them. -/
theorem readBlocks_flatten (err : Nat → ε) (rest : List UInt8) :
    ∀ (blocks : List (Bytes encryptedEntrySize)) (i : Nat),
    readBlocks err i blocks.length ((blocks.map Subtype.val).flatten ++ rest) = .ok blocks
  | [], _ => rfl
  | b :: blocks, i => by
    have hb : b.1.length = encryptedEntrySize := b.2
    simp only [List.map_cons, List.flatten_cons, List.append_assoc, List.length_cons]
    rw [readBlocks, dif_pos (by rw [List.length_append, hb]; omega), List.drop_left' hb,
      readBlocks_flatten err rest blocks (i + 1)]
    simp only [List.take_left' hb]

theorem readBlocks_eq_ok {err : Nat → ε} :
    ∀ {n i : Nat} {bs : List UInt8} {blocks : List (Bytes encryptedEntrySize)},
    readBlocks err i n bs = .ok blocks →
      blocks.length = n ∧ (blocks.map Subtype.val).flatten ++ bs.drop (encryptedEntrySize * n) = bs
  | 0, _, bs, blocks, h => by cases h; exact ⟨rfl, rfl⟩
  | n + 1, i, bs, blocks, h => by
    unfold readBlocks at h
    split at h
    · rename_i hle
      rcases hr : readBlocks err (i + 1) n (bs.drop encryptedEntrySize) with _ | blocks'
      · simp only [hr] at h; cases h
      · simp only [hr] at h
        cases h
        obtain ⟨hlen, hcat⟩ := readBlocks_eq_ok hr
        refine ⟨by rw [List.length_cons, hlen], ?_⟩
        rw [List.map_cons, List.flatten_cons, List.append_assoc, Nat.mul_succ, Nat.add_comm,
          ← List.drop_drop, hcat, List.take_append_drop]
    · cases h

/-- With room for `n` entries no read fails. -/
theorem readBlocks_ok_of_le (err : Nat → ε) :
    ∀ (n i : Nat) (bs : List UInt8), encryptedEntrySize * n ≤ bs.length →
    ∃ blocks, readBlocks err i n bs = .ok blocks
  | 0, _, _, _ => ⟨[], rfl⟩
  | n + 1, i, bs, h => by
    have hle : encryptedEntrySize ≤ bs.length := by
      rw [Nat.mul_succ] at h
      omega
    obtain ⟨blocks, hb⟩ := readBlocks_ok_of_le err n (i + 1) (bs.drop encryptedEntrySize)
      (by rw [List.length_drop, Nat.mul_succ] at *; omega)
    exact ⟨_, by rw [readBlocks, dif_pos hle, hb]⟩

end Reads

/-! ## 2. `save` and `load` -/

/-- `MAGIC` and `MAGIC_TESTNET` of `constants::wallet`, the words a mainnet and a testnet file
    begin with. `constants.rs` is not under `src/`: the words are parameters, distinct as the
    `match` of `load` needs them to be. -/
structure Magics where
  magic : UInt64
  magicTestnet : UInt64
  distinct : magic ≠ magicTestnet

/-- `EncryptedWallet::save`: what it writes to the file, `MAGIC_TESTNET` for a testnet wallet and
    `MAGIC` for any other, big-endian, then the account, big-endian, then the entries in order. -/
def save (M : Magics) (w : EncryptedWallet) : List UInt8 :=
  beBytes 8 (if w.network = .testnet then M.magicTestnet else M.magic).toNat ++
    beBytes 4 w.account.toNat ++ (w.entries.map Subtype.val).flatten

/-- `MAGIC` as the importer's magic bytes spell it, and a testnet word other than it. -/
def sampleMagics : Magics := ⟨0x3160f90daae50001, 0x3160f90daae50002, by decide⟩

/-- The `match magic` of `EncryptedWallet::load`. -/
def Magics.network (M : Magics) (magic : UInt64) : Except LegacyError Network :=
  if magic = M.magic then .ok .bitcoin
  else if magic = M.magicTestnet then .ok .testnet
  else .error (.walletWrongMagic magic)

/-- The network a wallet is saved and loaded back on: Testnet, or Bitcoin for every other. -/
def savedNetwork (network : Network) : Network :=
  if network = .testnet then .testnet else .bitcoin

section Load

variable {PublicKey : Type} (L : Ledger PublicKey)

/-- `EncryptedWallet::load`. The vector is allocated with capacity `size / ENCRYPTED_ENTRY_SIZE`
    and the loop reads `capacity()` entries, that many; a failing `fs::metadata` or
    `fs::File::open` is `Error::Io`, passed on by `?`. -/
def load (M : Magics) (file : DiskFile) : Except LegacyError EncryptedWallet :=
  let size := file.bytes.length
  if !file.metadata then .error .io
  else if size % encryptedEntrySize ≠ 12 then .error (.walletWrongSize size)
  else if !file.opens then .error .io
  else
    match readExact .io 8 file.bytes with
    | .error e => .error e
    | .ok (magic, rest) =>
      match M.network (UInt64.ofNat (beRead magic)) with
      | .error e => .error e
      | .ok network =>
        match readExact .io 4 rest with
        | .error e => .error e
        | .ok (account, rest) =>
          match readBlocks (fun _ => .io) 0 (size / encryptedEntrySize) rest with
          | .error e => .error e
          | .ok entries =>
            match L.setNetwork network with
            | .error e => .error (.dongle e)
            | .ok () => .ok ⟨network, UInt32.ofNat (beRead account), entries⟩

theorem Magics.network_word (M : Magics) (network : Network) :
    M.network (if network = .testnet then M.magicTestnet else M.magic) = .ok (savedNetwork network) := by
  unfold Magics.network savedNetwork
  by_cases h : network = .testnet
  · rw [if_pos h, if_neg M.distinct.symm, if_pos rfl, if_pos h]
  · rw [if_neg h, if_pos rfl, if_neg h]

theorem Magics.network_eq_ok {M : Magics} {magic : UInt64} {network : Network}
    (h : M.network magic = .ok network) :
    magic = (if network = .testnet then M.magicTestnet else M.magic) ∧ savedNetwork network = network := by
  unfold Magics.network at h
  split at h
  · cases h; exact ⟨by assumption, rfl⟩
  · split at h
    · cases h; exact ⟨by assumption, rfl⟩
    · cases h

theorem length_save (M : Magics) (w : EncryptedWallet) :
    (save M w).length = 12 + encryptedEntrySize * w.entries.length := by
  have hflat : ∀ blocks : List (Bytes encryptedEntrySize),
      (blocks.map Subtype.val).flatten.length = encryptedEntrySize * blocks.length := by
    intro blocks
    induction blocks with
    | nil => rfl
    | cons b blocks ih =>
      rw [List.map_cons, List.flatten_cons, List.length_append, ih, b.2, List.length_cons,
        Nat.mul_succ, Nat.add_comm]
  rw [save, List.length_append, List.length_append, length_beBytes, length_beBytes, hflat]

theorem save_size (M : Magics) (w : EncryptedWallet) :
    (save M w).length % encryptedEntrySize = 12 ∧
      (save M w).length / encryptedEntrySize = w.entries.length := by
  rw [length_save]
  unfold encryptedEntrySize
  omega

/-- A file that passes the size check holds the header and `size / ENCRYPTED_ENTRY_SIZE` entries. -/
theorem length_of_mod {n : Nat} (h : ¬n % encryptedEntrySize ≠ 12) :
    n = 12 + encryptedEntrySize * (n / encryptedEntrySize) := by
  have := Nat.div_add_mod n encryptedEntrySize
  omega

theorem beRead_u64 (x : UInt64) : UInt64.ofNat (beRead (beBytes 8 x.toNat)) = x := by
  rw [beRead_beBytes, Nat.mod_eq_of_lt ((u64_toNat_lt x).trans_eq (by norm_num)), u64_ofNat_toNat]

theorem beRead_u32 (x : UInt32) : UInt32.ofNat (beRead (beBytes 4 x.toNat)) = x := by
  rw [beRead_beBytes, Nat.mod_eq_of_lt ((u32_toNat_lt x).trans_eq (by norm_num)), u32_ofNat_toNat]

/-- **A saved wallet loads back**, with its account and its entries, on the network its magic word
    names: a Regtest wallet comes back as a Bitcoin one. Loading fails only where the Ledger
    refuses that network. -/
theorem load_save (M : Magics) (w : EncryptedWallet) :
    load L M (.ofBytes (save M w)) = match L.setNetwork (savedNetwork w.network) with
      | .error e => .error (.dongle e)
      | .ok () => .ok { w with network := savedNetwork w.network } := by
  obtain ⟨hmod, hdiv⟩ := save_size M w
  have hblocks := readBlocks_flatten (fun _ => LegacyError.io) [] w.entries 0
  rw [List.append_nil] at hblocks
  unfold load
  dsimp only [DiskFile.ofBytes]
  rw [if_neg (by decide), if_neg (by rw [hmod]; exact fun h => h rfl), if_neg (by decide), hdiv, save,
    List.append_assoc, readExact_beBytes]
  dsimp only
  rw [beRead_u64, Magics.network_word]
  dsimp only
  rw [readExact_beBytes]
  dsimp only
  rw [hblocks]
  dsimp only
  rw [beRead_u32]

/-- **Every file `load` accepts is the file `save` writes** of the wallet it returns. -/
theorem save_load {M : Magics} {file : DiskFile} {w : EncryptedWallet}
    (h : load L M file = .ok w) : file = .ofBytes (save M w) := by
  obtain ⟨meta, opens, file⟩ := file
  unfold load at h
  dsimp only at h
  split at h
  · cases h
  rename_i hmeta
  split at h
  · cases h
  rename_i hsize
  split at h
  · cases h
  rename_i hopen
  simp only [Bool.not_eq_true', Bool.not_eq_false] at hmeta hopen
  subst hmeta hopen
  rw [DiskFile.ofBytes, DiskFile.mk.injEq]
  refine ⟨rfl, rfl, ?_⟩
  rcases hm : readExact LegacyError.io 8 file with _ | ⟨magic, rest⟩ <;> simp only [hm] at h
  · cases h
  rcases hn : M.network (UInt64.ofNat (beRead magic)) with _ | network <;> simp only [hn] at h
  · cases h
  rcases ha : readExact LegacyError.io 4 rest with _ | ⟨account, rest'⟩ <;> simp only [ha] at h
  · cases h
  rcases hb : readBlocks (fun _ => LegacyError.io) 0 (file.length / encryptedEntrySize) rest'
    with _ | entries <;> simp only [hb] at h
  · cases h
  rcases hs : L.setNetwork network with _ | ⟨⟩ <;> simp only [hs] at h
  · cases h
  cases h
  obtain ⟨hml, hmcat⟩ := readExact_eq_ok hm
  obtain ⟨hal, hacat⟩ := readExact_eq_ok ha
  obtain ⟨-, hbcat⟩ := readBlocks_eq_ok hb
  obtain ⟨hword, -⟩ := Magics.network_eq_ok hn
  have hlen : rest'.length = encryptedEntrySize * (file.length / encryptedEntrySize) := by
    have h1 := congrArg List.length hmcat
    have h2 := congrArg List.length hacat
    rw [List.length_append] at h1 h2
    have := length_of_mod hsize
    omega
  rw [List.drop_eq_nil_of_le (by omega), List.append_nil] at hbcat
  rw [save, ← hword, ← hmcat, ← hacat, ← hbcat, List.append_assoc]
  symm
  dsimp only
  rw [u64_toNat_ofNat, u32_toNat_ofNat, Nat.mod_eq_of_lt (by simpa [hml] using beRead_lt magic),
    Nat.mod_eq_of_lt (by simpa [hal] using beRead_lt account), ← hml, ← hal, beBytes_beRead,
    beBytes_beRead]

/-- The file of a wallet of account 0 with one blank entry: the magic bytes, the account, and the
    352 zero bytes of the entry. -/
def oneEntryFile : DiskFile :=
  .ofBytes ([0x31, 0x60, 0xf9, 0x0d, 0xaa, 0xe5, 0x00, 0x01, 0, 0, 0, 0] ++
    List.replicate encryptedEntrySize 0)

set_option maxRecDepth 20000 in
theorem save_load_sample :
    load zeroLedger sampleMagics oneEntryFile = .ok blankSession.wallet ∧
    oneEntryFile = .ofBytes (save sampleMagics blankSession.wallet) :=
  have h : load zeroLedger sampleMagics oneEntryFile = .ok blankSession.wallet := rfl
  ⟨h, save_load zeroLedger h⟩

/-- **`load` fails only on the file system, the size, the magic word or the Ledger**: an I/O error
    only where `fs::metadata` or `fs::File::open` fails, since the size check leaves room for every
    read it makes. -/
theorem load_error {M : Magics} {file : DiskFile} {e : LegacyError} (h : load L M file = .error e) :
    (e = .io ∧ (file.metadata = false ∨ file.opens = false)) ∨
      e = .walletWrongSize file.bytes.length ∨ (∃ magic, e = .walletWrongMagic magic) ∨
      ∃ c, e = .dongle c := by
  obtain ⟨meta, opens, file⟩ := file
  unfold load at h
  dsimp only at h ⊢
  split at h
  · rename_i hm
    cases h; exact .inl ⟨rfl, .inl (by simpa using hm)⟩
  split at h
  · cases h; exact .inr (.inl rfl)
  split at h
  · rename_i ho
    cases h; exact .inl ⟨rfl, .inr (by simpa using ho)⟩
  have hsize := length_of_mod ‹_›
  rw [readExact_of_le _ (by omega)] at h
  dsimp only at h
  rcases hn : M.network (UInt64.ofNat (beRead (file.take 8))) with _ | network <;>
    simp only [hn] at h
  · cases h
    unfold Magics.network at hn
    split at hn
    · cases hn
    · split at hn
      · cases hn
      · cases hn; exact .inr (.inr (.inl ⟨_, rfl⟩))
  rw [readExact_of_le _ (by rw [List.length_drop]; omega)] at h
  dsimp only at h
  obtain ⟨blocks, hb⟩ := readBlocks_ok_of_le (fun _ => LegacyError.io)
    (file.length / encryptedEntrySize) 0 ((file.drop 8).drop 4)
    (by rw [List.length_drop, List.length_drop]; omega)
  rw [hb] at h
  dsimp only at h
  split at h
  · cases h; exact .inr (.inr (.inr ⟨_, rfl⟩))
  · cases h

set_option maxRecDepth 20000 in
theorem load_error_sample :
    load zeroLedger sampleMagics { oneEntryFile with opens := false } = .error .io ∧
    ((LegacyError.io = .io ∧ (oneEntryFile.metadata = false ∨ false = false)) ∨
      LegacyError.io = .walletWrongSize oneEntryFile.bytes.length ∨
      (∃ magic, LegacyError.io = .walletWrongMagic magic) ∨ ∃ c, LegacyError.io = .dongle c) :=
  have h : load zeroLedger sampleMagics { oneEntryFile with opens := false } = .error .io := rfl
  ⟨h, load_error zeroLedger h⟩

end Load

/-! ## 3. The importer's reader -/

/-- `MAGIC` of `importicboc`: the first eight bytes of an ICBOC 1D wallet file. -/
def icbocMagic : List UInt8 := [0x31, 0x60, 0xf9, 0x0d, 0xaa, 0xe5, 0x00, 0x01]

/-- The failures of `ImportIcboc::execute` while it reads the file, with the texts it reports. -/
inductive FileError
  /-- `"getting metadata for ICBOC 1D wallet {icboc_name}"`. -/
  | gettingMetadata
  /-- `"bad ICBOC 1D wallet size {icboc_size}"`. -/
  | badSize (size : Nat)
  /-- `"opening ICBOC 1D wallet {icboc_name}"`. -/
  | opening
  /-- `"reading magic bytes"`. -/
  | readingMagic
  /-- `"invalid ICBOC 1D wallet (magic bytes {magic:?}, expected {MAGIC:?})"`. -/
  | invalidMagic (magic : List UInt8)
  /-- `"reading account number bytes"`. -/
  | readingAccount
  /-- `"account number was not 0, is this a real icboc wallet?"`. -/
  | accountNotZero
  /-- `"reading entry {i}"`. -/
  | readingEntry (i : Nat)
deriving DecidableEq

/-- The reads and checks of `ImportIcboc::execute`: the size, the magic bytes, the account number,
    then its `n_entries` encrypted entries in file order. The source reads entry `i` in the loop
    that imports it; no read can fail once the size is checked (`readIcboc_error`), so reading
    them first changes no outcome. -/
def readIcboc (file : DiskFile) : Except FileError (List (Bytes encryptedEntrySize)) :=
  let size := file.bytes.length
  if !file.metadata then .error .gettingMetadata
  else if size % encryptedEntrySize ≠ 12 then .error (.badSize size)
  else if !file.opens then .error .opening
  else
    match readExact .readingMagic 8 file.bytes with
    | .error e => .error e
    | .ok (magic, rest) =>
      if magic ≠ icbocMagic then .error (.invalidMagic magic)
      else
        match readExact .readingAccount 4 rest with
        | .error e => .error e
        | .ok (account, rest) =>
          if account ≠ [0, 0, 0, 0] then .error .accountNotZero
          else readBlocks .readingEntry 0 (size / encryptedEntrySize) rest

/-- **The importer reads a saved wallet exactly when it is not a testnet wallet and its account is
    0**, when `MAGIC` is the word of the importer's magic bytes; it then reads its entries. A
    testnet wallet is refused on its magic bytes, another account on its number. -/
theorem readIcboc_save {M : Magics} (hM : beBytes 8 M.magic.toNat = icbocMagic)
    (w : EncryptedWallet) :
    readIcboc (.ofBytes (save M w)) =
      if w.network = .testnet then .error (.invalidMagic (beBytes 8 M.magicTestnet.toNat))
      else if w.account = 0 then .ok w.entries
      else .error .accountNotZero := by
  obtain ⟨hmod, hdiv⟩ := save_size M w
  have hblocks := readBlocks_flatten FileError.readingEntry [] w.entries 0
  rw [List.append_nil] at hblocks
  unfold readIcboc
  dsimp only [DiskFile.ofBytes]
  rw [if_neg (by decide), if_neg (by rw [hmod]; exact fun h => h rfl), if_neg (by decide), hdiv, save,
    List.append_assoc, readExact_beBytes]
  dsimp only
  by_cases hnet : w.network = .testnet
  · have hne : beBytes 8 M.magicTestnet.toNat ≠ icbocMagic := fun h =>
      M.distinct (by rw [← beRead_u64 M.magic, ← beRead_u64 M.magicTestnet, hM, h])
    simp only [hnet, if_true, ne_eq, hne, not_false_eq_true]
  · simp only [hnet, if_false, hM, ne_eq, not_true_eq_false]
    rw [readExact_beBytes]
    dsimp only
    by_cases hzero : w.account = 0
    · rw [if_neg (by rw [hzero]; decide), if_pos hzero, hblocks]
    · have hne : beBytes 4 w.account.toNat ≠ [0, 0, 0, 0] := fun h =>
        hzero (by rw [← beRead_u32 w.account, h]; rfl)
      rw [if_pos hne, if_neg hzero]

theorem readIcboc_save_sample :
    beBytes 8 sampleMagics.magic.toNat = icbocMagic ∧
    readIcboc (.ofBytes (save sampleMagics ⟨.regtest, 0, []⟩)) =
      if Network.regtest = .testnet then .error (.invalidMagic (beBytes 8 sampleMagics.magicTestnet.toNat))
      else if (0 : UInt32) = 0 then .ok [] else .error .accountNotZero :=
  ⟨rfl, @readIcboc_save sampleMagics rfl ⟨.regtest, 0, []⟩⟩

/-- **The importer fails to read a file only on the file system, its size, its magic bytes or its
    account**: `"getting metadata"` where `fs::metadata` fails and `"opening"` where
    `fs::File::open` does; once the size is checked, every read has its bytes. -/
theorem readIcboc_error {file : DiskFile} {e : FileError} (h : readIcboc file = .error e) :
    (e = .gettingMetadata ∧ file.metadata = false) ∨ (e = .opening ∧ file.opens = false) ∨
      e = .badSize file.bytes.length ∨ (∃ magic, e = .invalidMagic magic) ∨
      e = .accountNotZero := by
  obtain ⟨meta, opens, file⟩ := file
  unfold readIcboc at h
  dsimp only at h ⊢
  split at h
  · rename_i hm
    cases h; exact .inl ⟨rfl, by simpa using hm⟩
  split at h
  · cases h; exact .inr (.inr (.inl rfl))
  split at h
  · rename_i ho
    cases h; exact .inr (.inl ⟨rfl, by simpa using ho⟩)
  have hsize := length_of_mod ‹_›
  rw [readExact_of_le _ (by omega)] at h
  dsimp only at h
  split at h
  · cases h; exact .inr (.inr (.inr (.inl ⟨_, rfl⟩)))
  rw [readExact_of_le _ (by rw [List.length_drop]; omega)] at h
  dsimp only at h
  split at h
  · cases h; exact .inr (.inr (.inr (.inr rfl)))
  obtain ⟨blocks, hb⟩ := readBlocks_ok_of_le FileError.readingEntry
    (file.length / encryptedEntrySize) 0 ((file.drop 8).drop 4)
    (by rw [List.length_drop, List.length_drop]; omega)
  rw [hb] at h
  cases h

set_option maxRecDepth 20000 in
theorem readIcboc_error_sample :
    readIcboc { oneEntryFile with opens := false } = .error .opening ∧
    ((FileError.opening = .gettingMetadata ∧ oneEntryFile.metadata = false) ∨
      (FileError.opening = .opening ∧ false = false) ∨
      FileError.opening = .badSize oneEntryFile.bytes.length ∨
      (∃ magic, FileError.opening = .invalidMagic magic) ∨ FileError.opening = .accountNotZero) :=
  have h : readIcboc { oneEntryFile with opens := false } = .error .opening := rfl
  ⟨h, readIcboc_error h⟩

/-! ## 4. The importer's keys -/

/-- The path `ImportIcboc::execute` takes the AES key of entry `i` from: `44h/0h/0h/3h/ih`, with
    `i as u32`. -/
def importKeyPath (i : Nat) : List ChildNumber :=
  [.hardened 44, .hardened 0, .hardened 0, .hardened 3, .hardened (UInt32.ofNat i)]

/-- A hardened child number below `2^31` is its index with the top bit set. -/
theorem hardened_toU32 {x : UInt32} (hx : x.toNat < 2 ^ 31) :
    (ChildNumber.hardened x).toU32 = 0x80000000 ||| x := by
  have hor : (0x80000000 ||| x).toNat = 2 ^ 31 ||| x.toNat := BitVec.toNat_or _ _
  have hadd := Nat.mul_add_lt_is_or hx 1
  rw [Nat.mul_one] at hadd
  rw [ChildNumber.toU32, u32_eq_iff, u32_toNat_ofNat, Nat.mod_eq_of_lt hx, hor, ← hadd]
  omega

/-- **The importer asks for the AES key of entry `i` where a mainnet wallet of account 0 keeps
    it**, for every entry below `2^31`. -/
theorem importKeyPath_eq {i : Nat} (hi : i < 2 ^ 31) :
    (importKeyPath i).map ChildNumber.toU32 = bip32Path .bitcoin 0 .aesKey (UInt32.ofNat i) := by
  have hx : (UInt32.ofNat i).toNat < 2 ^ 31 := by
    rw [u32_toNat_ofNat, Nat.mod_eq_of_lt (by omega)]
    exact hi
  simp only [importKeyPath, List.map_cons, List.map_nil, bip32Path, hardened_toU32 hx,
    List.cons.injEq, and_true]
  decide

section Decrypt

variable {PublicKey Addr : Type} (L : Ledger PublicKey) (P : Primitives PublicKey Addr)

/-- Entry `i` as `ImportIcboc::execute` decrypts it: the chaincode of the key at `importKeyPath i`,
    then `aes256_decrypt_ctr(key, iv, entry)` on the bytes after the 16-byte IV. The `aes` module
    of the importer is not under `src/`; it is AES-256-CTR, the cipher `wallet.rs` runs. -/
def importDecrypt (i : Nat) (block : Bytes encryptedEntrySize) :
    Except Nat (Bytes decryptedEntrySize) :=
  match L.getPublicKey ((importKeyPath i).map ChildNumber.toU32) with
  | .error e => .error e
  | .ok key =>
    .ok ⟨P.aesCtr key.chaincode (subBytes block 0 16 (by decide)) (block.1.drop 16), by
      rw [P.aesCtr_length, List.length_drop, block.2]; rfl⟩

/-- **The importer decrypts entry `i` as a mainnet wallet of account 0 does**, the Ledger's error
    included, for every entry below `2^31`. -/
theorem importDecrypt_eq_decrypt {i : Nat} (hi : i < 2 ^ 31) (block : Bytes encryptedEntrySize) :
    (importDecrypt L P i block).mapError LegacyError.dongle = decrypt L P .bitcoin 0 i block := by
  unfold importDecrypt decrypt
  rw [importKeyPath_eq hi]
  cases L.getPublicKey (bip32Path .bitcoin 0 .aesKey (UInt32.ofNat i)) <;> rfl

end Decrypt

theorem importDecrypt_eq_decrypt_sample :
    0 < 2 ^ 31 ∧
    (importDecrypt zeroLedger plainPrimitives 0 ⟨List.replicate encryptedEntrySize 0,
      List.length_replicate _ _⟩).mapError LegacyError.dongle =
      decrypt zeroLedger plainPrimitives .bitcoin 0 0 ⟨List.replicate encryptedEntrySize 0,
        List.length_replicate _ _⟩ :=
  ⟨by decide, importDecrypt_eq_decrypt zeroLedger plainPrimitives (by decide) _⟩

end Icboc

end Icebox
