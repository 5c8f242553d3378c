import Icebox.Icboc.Spend
import Icebox.Icboc.Receive

/-!
# What the legacy wallet's scans return

`EncryptedWallet::new` and `extend` fill the wallet with encrypted zeros; `next_unused_index`,
`get_balance` and `search` read it entry by entry and stop at the first failure:

* `pushZeros_blank`, **`new_blank`**, **`extend_blank`** -- the entries `new` makes and the entries
  `extend` adds decrypt to zeros, and whenever they are looked up they read `Unused`; `extend`
  keeps the entries it found, and a failed `extend` the blocks it pushed before the failure;
* **`nextUnusedIndex_eq_ok`**, **`nextUnusedIndex_walletFull`** -- the first entry that reads
  `Unused`, and `WalletFull` only when every entry reads and none does;
* **`getBalance_ok_iff`** -- the lookups of all entries, in order, and the sum of the amounts of
  those that are not spent, whatever their state (an entry whose signature fails still counts),
  which panics when it passes `u64::MAX`;
* **`search_eq_ok`** -- the lookup of the first entry whose address, as the Ledger reports it, is
  the one searched.
-/

namespace Icebox

namespace Icboc

section Scans

variable {PublicKey Addr : Type} (L : Ledger PublicKey) (P : Primitives PublicKey Addr)

/-! ## 1. Blank entries -/

/-- The plaintext of a blank entry: `DECRYPTED_ENTRY_SIZE` zeros. -/
def zeroEntry : Bytes decryptedEntrySize :=
  ⟨List.replicate decryptedEntrySize 0, List.length_replicate _ _⟩

theorem readEntry_zeroEntry (verified : Bool) :
    readEntry zeroEntry verified = .ok (.unused, blankEntry) := by
  rw [readEntry, if_pos (by decide)]

/-- An entry that decrypts to zeros reads `Unused`, whenever it reads. -/
theorem decryptAndVerify_blank {network : Network} {account : UInt32} {index : Nat}
    {block : Bytes encryptedEntrySize} {fe : FullEntry Addr}
    (hd : decrypt L P network account index block = .ok zeroEntry)
    (h : decryptAndVerify L P network account index block = .ok fe) :
    fe.state = .unused ∧ fe.fields = blankEntry := by
  obtain ⟨data, v, -, hd', -, -, hr, -⟩ := decryptAndVerify_eq_ok L P h
  rw [hd, Except.ok.injEq] at hd'
  subst hd'
  rw [readEntry_zeroEntry, Except.ok.injEq, Prod.mk.injEq] at hr
  exact ⟨hr.1.symm, hr.2.symm⟩

/-- The loop of `new` and `extend`, from the end of the entries on: it appends `m` blocks, all `k`
    when it succeeds, entry `j` encrypting zeros under the key of entry `j`. -/
theorem pushZeros_blank (network : Network) (account : UInt32) :
    ∀ (k : Nat) (entries : List (Bytes encryptedEntrySize)) (draws : Nat)
      {r : Except LegacyError Unit} {entries' : List (Bytes encryptedEntrySize)} {d : Nat},
    pushZeros L P network account entries.length k entries draws = (r, entries', d) →
    ∃ m ≤ k, (r = .ok () → m = k) ∧ entries'.length = entries.length + m ∧
      (∀ j < entries.length, entries'[j]? = entries[j]?) ∧
      ∀ j, entries.length ≤ j → j < entries.length + m →
        ∃ block, entries'[j]? = some block ∧ decrypt L P network account j block = .ok zeroEntry
  | 0, entries, _, _, _, _, h => by
    cases h
    exact ⟨0, le_refl 0, fun _ => rfl, rfl, fun _ _ => rfl, fun j h₁ h₂ => absurd h₂ (by omega)⟩
  | k + 1, entries, draws, _, _, _, h => by
    unfold pushZeros at h
    split at h
    · cases h
      exact ⟨0, Nat.zero_le _, fun h => (by cases h), rfl, fun _ _ => rfl,
        fun j h₁ h₂ => absurd h₂ (by omega)⟩
    rename_i block d₁ he
    have hlen : (entries ++ [block]).length = entries.length + 1 := by simp
    rw [← hlen] at h
    obtain ⟨m, hm, hok, hl, hkeep, hnew⟩ := pushZeros_blank network account k (entries ++ [block]) d₁ h
    have hself : (entries ++ [block])[entries.length]? = some block := by simp
    refine ⟨m + 1, by omega, fun h => by rw [hok h], by rw [hl, hlen]; omega, fun j hj => ?_,
      fun j h₁ h₂ => ?_⟩
    · rw [hkeep j (by omega), List.getElem?_append_left hj]
    · rcases Nat.lt_or_eq_of_le h₁ with h₁ | rfl
      · exact hnew j (by omega) (by omega)
      · exact ⟨block, by rw [hkeep _ (by omega), hself], decrypt_encrypt L P he⟩

/-- **A new wallet is blank**: `new` makes `n_entries` entries on the network and account it was
    given, each of which decrypts to zeros and reads `Unused` whenever it reads. -/
theorem new_blank {network : Network} {account : UInt32} {nEntries draws d : Nat}
    {w : EncryptedWallet} (h : new L P network account nEntries draws = (.ok w, d)) :
    w.network = network ∧ w.account = account ∧ w.entries.length = nEntries ∧
      ∀ i < nEntries, plaintextAt L P w i = some zeroEntry ∧
        ∀ fe, lookupEntry L P w i = .ok fe → fe.state = .unused ∧ fe.fields = blankEntry := by
  unfold new at h
  split at h
  · cases h
  split at h
  · cases h
  rename_i entries d₁ hp
  cases h
  obtain ⟨m, -, hok, hl, -, hnew⟩ := pushZeros_blank L P network account nEntries [] draws hp
  obtain rfl := hok rfl
  refine ⟨rfl, rfl, hl.trans (Nat.zero_add m), fun i hi => ?_⟩
  obtain ⟨block, hb, hd⟩ := hnew i (Nat.zero_le i) (by rw [List.length_nil, Nat.zero_add]; exact hi)
  refine ⟨plaintextAt_of_decrypt L P hb hd, fun fe hfe => ?_⟩
  rw [lookupEntry_eq, hb] at hfe
  exact decryptAndVerify_blank L P hd hfe

set_option maxRecDepth 20000 in
theorem new_blank_sample : ∃ w d,
    new zeroLedger plainPrimitives .bitcoin 0 2 0 = (.ok w, d) ∧
    w.network = .bitcoin ∧ w.account = 0 ∧ w.entries.length = 2 ∧
      ∀ i < 2, plaintextAt zeroLedger plainPrimitives w i = some zeroEntry ∧
        ∀ fe, lookupEntry zeroLedger plainPrimitives w i = .ok fe →
          fe.state = .unused ∧ fe.fields = blankEntry := by
  refine ⟨?w, ?d, ?h, new_blank zeroLedger plainPrimitives ?h⟩
  case h => exact rfl

/-- **`extend` keeps what it found and appends blank entries**: after a successful
    `extend(n)` the wallet has `max(n, len)` entries, the first `len` unchanged, and each entry it
    added decrypts to zeros and reads `Unused` whenever it reads. -/
theorem extend_blank {n : Nat} {s s' : LegacySession} (h : extend L P n s = (.ok (), s')) :
    s'.wallet.network = s.wallet.network ∧ s'.wallet.account = s.wallet.account ∧
      s'.wallet.entries.length = max n s.wallet.entries.length ∧
      (∀ i < s.wallet.entries.length, s'.wallet.entries[i]? = s.wallet.entries[i]?) ∧
      ∀ i, s.wallet.entries.length ≤ i → i < n →
        plaintextAt L P s'.wallet i = some zeroEntry ∧
        ∀ fe, lookupEntry L P s'.wallet i = .ok fe → fe.state = .unused ∧ fe.fields = blankEntry := by
  unfold extend at h
  dsimp only at h
  split at h
  · rename_i hle
    cases h
    exact ⟨rfl, rfl, (Nat.max_eq_right hle).symm, fun _ _ => rfl, fun i h₁ h₂ => absurd h₂ (by omega)⟩
  rename_i hlt
  rcases hp : pushZeros L P s.wallet.network s.wallet.account s.wallet.entries.length
    (n - s.wallet.entries.length) s.wallet.entries s.draws with ⟨r, entries, d⟩
  simp only [hp, Prod.mk.injEq] at h
  obtain ⟨rfl, rfl⟩ := h
  obtain ⟨m, hm, hok, hl, hkeep, hnew⟩ := pushZeros_blank L P _ _ _ _ _ hp
  obtain rfl := hok rfl
  refine ⟨rfl, rfl, by dsimp only; rw [hl]; omega, hkeep, fun i h₁ h₂ => ?_⟩
  obtain ⟨block, hb, hd⟩ := hnew i h₁ (by omega)
  refine ⟨plaintextAt_of_decrypt L P hb hd, fun fe hfe => ?_⟩
  rw [lookupEntry_eq, hb] at hfe
  exact decryptAndVerify_blank L P hd hfe

set_option maxRecDepth 20000 in
theorem extend_blank_sample : ∃ s',
    extend zeroLedger plainPrimitives 2 blankSession = (.ok (), s') ∧
    s'.wallet.network = blankSession.wallet.network ∧ s'.wallet.account = blankSession.wallet.account ∧
      s'.wallet.entries.length = max 2 blankSession.wallet.entries.length ∧
      (∀ i < blankSession.wallet.entries.length, s'.wallet.entries[i]? = blankSession.wallet.entries[i]?) ∧
      ∀ i, blankSession.wallet.entries.length ≤ i → i < 2 →
        plaintextAt zeroLedger plainPrimitives s'.wallet i = some zeroEntry ∧
        ∀ fe, lookupEntry zeroLedger plainPrimitives s'.wallet i = .ok fe →
          fe.state = .unused ∧ fe.fields = blankEntry := by
  refine ⟨?s', ?h, extend_blank zeroLedger plainPrimitives ?h⟩
  case h => exact rfl

/-! ## 2. `next_unused_index` -/

theorem lookupEntry_index {w : EncryptedWallet} {i : Nat} {fe : FullEntry Addr}
    (h : lookupEntry L P w i = .ok fe) : fe.index = i := by
  unfold lookupEntry at h
  split at h
  · cases h
  · obtain ⟨-, -, -, -, -, -, -, -, hidx⟩ := decryptAndVerify_eq_ok L P h
    exact hidx

theorem nextUnusedFrom_eq_ok (w : EncryptedWallet) :
    ∀ (k i : Nat) {n : Nat}, nextUnusedFrom L P w i k = .ok n →
    (∃ fe : FullEntry Addr, lookupEntry L P w n = .ok fe ∧ fe.state = .unused) ∧ i ≤ n ∧
      ∀ j, i ≤ j → j < n → ∃ fe : FullEntry Addr, lookupEntry L P w j = .ok fe ∧ fe.state ≠ .unused
  | 0, _, _, h => by cases h
  | k + 1, i, n, h => by
    unfold nextUnusedFrom at h
    split at h
    · cases h
    rename_i fe he
    split at h
    · rename_i hu
      cases h
      rw [lookupEntry_index L P he]
      exact ⟨⟨fe, he, hu⟩, Nat.le_refl i, fun j h₁ h₂ => absurd h₂ (by omega)⟩
    · rename_i hu
      obtain ⟨hfound, hle, hbefore⟩ := nextUnusedFrom_eq_ok w k (i + 1) h
      refine ⟨hfound, by omega, fun j h₁ h₂ => ?_⟩
      rcases Nat.lt_or_eq_of_le h₁ with h₁ | rfl
      · exact hbefore j h₁ h₂
      · exact ⟨fe, he, hu⟩

/-- **`next_unused_index` returns the first entry that reads `Unused`**: every entry before it
    reads, and none of them is `Unused`. -/
theorem nextUnusedIndex_eq_ok {w : EncryptedWallet} {n : Nat}
    (h : nextUnusedIndex L P w = .ok n) :
    (∃ fe : FullEntry Addr, lookupEntry L P w n = .ok fe ∧ fe.state = .unused) ∧
      NoUnusedBefore L P w n := by
  obtain ⟨hfound, -, hbefore⟩ := nextUnusedFrom_eq_ok L P w _ 0 h
  exact ⟨hfound, fun j hj => hbefore j (Nat.zero_le j) hj⟩

set_option maxRecDepth 20000 in
theorem nextUnusedIndex_eq_ok_sample :
    nextUnusedIndex zeroLedger plainPrimitives
      (extend zeroLedger plainPrimitives 2 labelledSession).2.wallet = .ok 1 ∧
    (∃ fe : FullEntry Unit, lookupEntry zeroLedger plainPrimitives
      (extend zeroLedger plainPrimitives 2 labelledSession).2.wallet 1 = .ok fe ∧
      fe.state = .unused) ∧
    NoUnusedBefore zeroLedger plainPrimitives (extend zeroLedger plainPrimitives 2 labelledSession).2.wallet 1 :=
  have h : nextUnusedIndex zeroLedger plainPrimitives
      (extend zeroLedger plainPrimitives 2 labelledSession).2.wallet = .ok 1 := rfl
  ⟨h, nextUnusedIndex_eq_ok zeroLedger plainPrimitives h⟩

theorem nextUnusedFrom_walletFull (w : EncryptedWallet) :
    ∀ (k i : Nat), nextUnusedFrom L P w i k = .error .walletFull →
    ∀ j, i ≤ j → j < i + k → ∃ fe : FullEntry Addr, lookupEntry L P w j = .ok fe ∧ fe.state ≠ .unused
  | 0, _, _, _, h₁, h₂ => absurd h₂ (by omega)
  | k + 1, i, h, j, h₁, h₂ => by
    unfold nextUnusedFrom at h
    split at h
    · rename_i e he
      cases h
      exact absurd he (lookupEntry_ne_walletFull L P w i)
    rename_i fe he
    split at h
    · cases h
    rename_i hu
    rcases Nat.lt_or_eq_of_le h₁ with h₁ | rfl
    · exact nextUnusedFrom_walletFull w k (i + 1) h j h₁ (by omega)
    · exact ⟨fe, he, hu⟩

/-- **`WalletFull` means full**: `next_unused_index` fails with `WalletFull` only when every entry
    reads and none of them is `Unused`. -/
theorem nextUnusedIndex_walletFull {w : EncryptedWallet}
    (h : nextUnusedIndex L P w = .error .walletFull) : NoUnusedBefore L P w w.entries.length :=
  fun j hj => nextUnusedFrom_walletFull L P w _ 0 h j (Nat.zero_le j) (by omega)

set_option maxRecDepth 20000 in
theorem nextUnusedIndex_walletFull_sample :
    nextUnusedIndex zeroLedger plainPrimitives labelledSession.wallet = .error .walletFull ∧
    NoUnusedBefore zeroLedger plainPrimitives labelledSession.wallet
      labelledSession.wallet.entries.length :=
  have h : nextUnusedIndex zeroLedger plainPrimitives labelledSession.wallet = .error .walletFull :=
    rfl
  ⟨h, nextUnusedIndex_walletFull zeroLedger plainPrimitives h⟩

/-! ## 3. `get_balance` -/

/-- The sum of the amounts of the entries that are not spent. -/
def unspentAmount (es : List (FullEntry Addr)) : Nat :=
  ((es.filter fun e => !e.fields.spent).map fun e => e.fields.amount.toNat).sum

theorem unspentAmount_cons (e : FullEntry Addr) (es : List (FullEntry Addr)) :
    unspentAmount (e :: es) = (if e.fields.spent then 0 else e.fields.amount.toNat) + unspentAmount es := by
  cases h : e.fields.spent <;> simp [unspentAmount, List.filter_cons, h]

theorem mapM_range'_succ {w : EncryptedWallet} {i k : Nat} {fes : List (FullEntry Addr)}
    (h : (List.range' i (k + 1)).mapM (lookupEntry L P w) = .ok fes) :
    ∃ fe rest, lookupEntry L P w i = .ok fe ∧
      (List.range' (i + 1) k).mapM (lookupEntry L P w) = .ok rest ∧ fes = fe :: rest := by
  rw [List.range'_succ, List.mapM_cons] at h
  rcases hl : lookupEntry L P w i with e | fe <;>
    rcases hr : (List.range' (i + 1) k).mapM (lookupEntry L P w) with e' | rest <;>
    simp only [hl, hr, bind, Except.bind, pure, Except.pure, Except.ok.injEq, reduceCtorEq] at h
  exact ⟨fe, rest, rfl, rfl, h.symm⟩

/-- Over entries that all read, the loop of `get_balance` adds the amounts of those not spent to
    the balance so far, on `u64`. -/
theorem balanceFrom_of_mapM (w : EncryptedWallet) :
    ∀ (k i balance : Nat) {fes : List (FullEntry Addr)}, balance < 2 ^ 64 →
    (List.range' i k).mapM (lookupEntry L P w) = .ok fes →
    balanceFrom L P w i k balance = u64Checked (balance + unspentAmount fes)
  | 0, _, balance, fes, hb, h => by
    cases h
    exact (u64Checked_of_lt hb).symm
  | k + 1, i, balance, _, hb, h => by
    obtain ⟨fe, rest, hl, hr, rfl⟩ := mapM_range'_succ L P h
    rw [balanceFrom, hl, unspentAmount_cons]
    dsimp only
    split
    · rw [Nat.zero_add]
      exact balanceFrom_of_mapM w k (i + 1) balance hb hr
    · by_cases hlt : balance + fe.fields.amount.toNat < 2 ^ 64
      · rw [u64Checked_of_lt hlt, ← Nat.add_assoc]
        exact balanceFrom_of_mapM w k (i + 1) _ hlt hr
      · rw [u64Checked_of_le (by omega), u64Checked_of_le (by omega)]

/-- The loop of `get_balance` returns only after every entry has read. -/
theorem balanceFrom_reads (w : EncryptedWallet) :
    ∀ (k i balance : Nat) {b : Nat}, balanceFrom L P w i k balance = .ok b →
    ∃ fes, (List.range' i k).mapM (lookupEntry L P w) = .ok fes
  | 0, _, _, _, _ => ⟨[], rfl⟩
  | k + 1, i, balance, b, h => by
    rw [balanceFrom] at h
    rcases hl : lookupEntry L P w i with e | fe <;> rw [hl] at h
    · cases h
    obtain ⟨balance', h'⟩ : ∃ balance', balanceFrom L P w (i + 1) k balance' = .ok b := by
      dsimp only at h
      split at h
      · exact ⟨_, h⟩
      · split at h
        · cases h
        · exact ⟨_, h⟩
    obtain ⟨fes, hfes⟩ := balanceFrom_reads w k (i + 1) balance' h'
    exact ⟨fe :: fes, by rw [List.range'_succ, List.mapM_cons, hl, hfes]; rfl⟩

/-- **`get_balance` sums every entry that reads and is not spent**, whatever its state. It returns
    `Ok` exactly when every entry reads and the amounts of those not spent sum below `2^64`, and
    then it is that sum; when every entry reads and the sum reaches `2^64`, it panics. The state is
    never looked at, so the amount of an entry whose signature fails (`Invalid`) is in the
    balance. -/
theorem getBalance_ok_iff (w : EncryptedWallet) :
    (∀ b, getBalance L P w = .ok b ↔
      ∃ fes, (List.range' 0 w.entries.length).mapM (lookupEntry L P w) = .ok fes ∧
        unspentAmount fes = b ∧ b < 2 ^ 64) ∧
    ∀ fes, (List.range' 0 w.entries.length).mapM (lookupEntry L P w) = .ok fes →
      2 ^ 64 ≤ unspentAmount fes → getBalance L P w = .error .panic := by
  have hsum : ∀ fes, (List.range' 0 w.entries.length).mapM (lookupEntry L P w) = .ok fes →
      getBalance L P w = u64Checked (unspentAmount fes) := fun fes h => by
    rw [getBalance, balanceFrom_of_mapM L P w _ 0 0 (by norm_num) h, Nat.zero_add]
  refine ⟨fun b => ⟨fun h => ?_, fun ⟨fes, h, hb, hlt⟩ => ?_⟩, fun fes h hle => ?_⟩
  · obtain ⟨fes, hfes⟩ := balanceFrom_reads L P w _ 0 0 h
    obtain ⟨hb, hlt⟩ := u64Checked_eq_ok.mp ((hsum fes hfes).symm.trans h)
    exact ⟨fes, hfes, hb, hb ▸ hlt⟩
  · rw [hsum fes h, ← hb, u64Checked_of_lt (hb ▸ hlt)]
  · rw [hsum fes h, u64Checked_of_le hle]

/-! ## 4. `search` -/

theorem searchFrom_eq_ok (w : EncryptedWallet) (address : RString) :
    ∀ (blocks : List (Bytes encryptedEntrySize)) (i : Nat) {fe : FullEntry Addr},
    blocks = w.entries.drop i → searchFrom L P w address i blocks = .ok fe →
    i ≤ fe.index ∧ lookupEntry L P w fe.index = .ok fe ∧
      (∃ key, L.getPublicKey (bip32Path w.network w.account .address (UInt32.ofNat fe.index)) =
        .ok key ∧ key.b58Address.bytes = address.bytes) ∧
      ∀ j, i ≤ j → j < fe.index → ∃ key,
        L.getPublicKey (bip32Path w.network w.account .address (UInt32.ofNat j)) = .ok key ∧
          key.b58Address.bytes ≠ address.bytes
  | [], _, _, _, h => by cases h
  | block :: rest, i, fe, hb, h => by
    have hget : w.entries[i]? = some block := by
      rw [← List.head?_drop, ← hb]
      rfl
    unfold searchFrom at h
    split at h
    · cases h
    rename_i key hk
    split at h
    · rename_i ha
      have hl : lookupEntry L P w i = .ok fe := by rw [lookupEntry_eq, hget]; exact h
      rw [lookupEntry_index L P hl]
      exact ⟨Nat.le_refl i, hl, ⟨key, hk, ha⟩, fun j h₁ h₂ => absurd h₂ (by omega)⟩
    · rename_i ha
      have hrest : rest = w.entries.drop (i + 1) := by
        rw [← List.drop_drop, ← hb]
        rfl
      obtain ⟨hle, hl, hfound, hbefore⟩ := searchFrom_eq_ok w address rest (i + 1) hrest h
      refine ⟨by omega, hl, hfound, fun j h₁ h₂ => ?_⟩
      rcases Nat.lt_or_eq_of_le h₁ with h₁ | rfl
      · exact hbefore j h₁ h₂
      · exact ⟨key, hk, ha⟩

/-- **`search` returns the lookup of the first entry with the address searched**: the Ledger
    reports that address for the entry it returns, and another one for every entry before it. -/
theorem search_eq_ok {w : EncryptedWallet} {address : RString} {fe : FullEntry Addr}
    (h : search L P w address = .ok fe) :
    lookupEntry L P w fe.index = .ok fe ∧
      (∃ key, L.getPublicKey (bip32Path w.network w.account .address (UInt32.ofNat fe.index)) =
        .ok key ∧ key.b58Address.bytes = address.bytes) ∧
      ∀ j < fe.index, ∃ key,
        L.getPublicKey (bip32Path w.network w.account .address (UInt32.ofNat j)) = .ok key ∧
          key.b58Address.bytes ≠ address.bytes := by
  obtain ⟨-, hl, hfound, hbefore⟩ := searchFrom_eq_ok L P w address w.entries 0 rfl h
  exact ⟨hl, hfound, fun j hj => hbefore j (Nat.zero_le j) hj⟩

/-- `zeroLedger`, but with the address `"b"` for the key of entry 1 of a mainnet wallet of account
    0 and `"a"` for every other key. -/
def twoAddressLedger : Ledger Unit :=
  { zeroLedger with
    getPublicKey := fun path => .ok ⟨(), ⟨List.replicate 32 0, rfl⟩,
      if path = bip32Path .bitcoin 0 .address 1 then ⟨[0x62], rfl⟩ else ⟨[0x61], rfl⟩⟩ }

/-- A mainnet wallet of account 0 with two blank entries. -/
def twoBlankWallet : EncryptedWallet :=
  ⟨.bitcoin, 0, List.replicate 2 ⟨List.replicate encryptedEntrySize 0, List.length_replicate _ _⟩⟩

set_option maxRecDepth 20000 in
theorem search_eq_ok_sample : ∃ fe,
    search twoAddressLedger plainPrimitives twoBlankWallet ⟨[0x62], rfl⟩ = .ok fe ∧
    lookupEntry twoAddressLedger plainPrimitives twoBlankWallet fe.index = .ok fe ∧
      (∃ key, twoAddressLedger.getPublicKey (bip32Path twoBlankWallet.network
        twoBlankWallet.account .address (UInt32.ofNat fe.index)) = .ok key ∧
        key.b58Address.bytes = [0x62]) ∧
      ∀ j < fe.index, ∃ key,
        twoAddressLedger.getPublicKey (bip32Path twoBlankWallet.network twoBlankWallet.account
          .address (UInt32.ofNat j)) = .ok key ∧ key.b58Address.bytes ≠ [0x62] := by
  refine ⟨?fe, ?h, search_eq_ok twoAddressLedger plainPrimitives ?h⟩
  case h => exact rfl

end Scans

end Icboc

end Icebox
