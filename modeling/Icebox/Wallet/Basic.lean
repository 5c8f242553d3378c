import Icebox.Bitcoin

/-!
# The wallet, its collaborators, and `Wallet::cache_key`

The data model of `lib/wallet/mod.rs` and the two collaborators it calls through:

* `Miniscript` -- what the engine uses of `miniscript::Descriptor<DescriptorPublicKey>`: the
  derivation paths of the keys of `desc.derive(index)` in the order `translate_pk2` visits them,
  whether a key has a wildcard, the `script_pubkey` of the translated descriptor, whether it has
  an address, and its text; `Miniscript.derive` -- `desc.derive(index)`, which panics at a wildcard
  index from `2^31` on;
* `Device` -- the hardware device: its answer to a key request, given the requests before it;
* `Address`, `Txo` -- modelled from the spec (`address.rs`, `txo.rs` are not among the sources);
* `Descriptor`, `Wallet`, `Session` (the wallet with the dongle a call is given).

Deriving a key touches two things only, the key cache and the dongle (`Keys`).
`getWalletPublicKey` answers a cached path from the cache and sends one request otherwise
(spec §4.3); `translatePk` and `cacheKey` follow the source. Their spec lemmas, which every later
file cites instead of unfolding them:

* `cacheKey_panic`: `cache_key` panics, touching nothing, exactly where `derive` does;
* `cacheKey_extends`: the cache only grows, and a cached key never changes (`CacheExtends`);
* `cacheKey_ok`: a successful `cacheKey` leaves every key it used in the cache, so the script is
  `cachedScript`, computed from the cache alone;
* `cacheKey_of_cached`: once `cachedScript` is defined, `cacheKey` returns it and touches nothing.
-/

namespace Icebox

/-- What the engine uses of `miniscript::Descriptor<DescriptorPublicKey>`. -/
structure Miniscript (Desc PublicKey : Type) where
  /-- The derivation paths of the keys of `desc.derive(index)`, in the order `translate_pk2` visits
      them; the dongle resolves each key at its path. -/
  derivedPaths : Desc → UInt32 → List DerivationPath
  /-- Some key of the descriptor ends in a wildcard (`/*` or `/*h`), which `derive` replaces by the
      index. -/
  hasWildcard : Desc → Bool
  /-- `script_pubkey()` of `desc.derive(index)` with its keys replaced, in order, by `keys`. -/
  scriptPubkey : Desc → UInt32 → List PublicKey → Script
  /-- `address(Network::Bitcoin)` is defined (it is not for a bare descriptor). -/
  hasAddress : Desc → Bool
  /-- `Display`: the canonical text. -/
  toString : Desc → RString
  /-- `FromStr`. -/
  fromStr : RString → Option Desc

namespace Miniscript

variable {Desc PublicKey : Type} (ms : Miniscript Desc PublicKey)

/-- `desc.derive(index)` returns: no key of `desc` has a wildcard, or `index` is below `2^31`.
    `DescriptorPublicKey::derive` unwraps `ChildNumber::from_normal_idx(index)` for a wildcard key,
    which fails from `2^31` on. -/
def Derives (desc : Desc) (index : UInt32) : Prop :=
  ms.hasWildcard desc = true → index.toNat < 2 ^ 31

instance (desc : Desc) (index : UInt32) : Decidable (ms.Derives desc index) :=
  inferInstanceAs (Decidable (_ → _))

/-- `desc.derive(index)`: the derivation paths of its keys, or `none` where it panics. -/
def derive (desc : Desc) (index : UInt32) : Option (List DerivationPath) :=
  if ms.Derives desc index then some (ms.derivedPaths desc index) else none

theorem derive_eq_some {desc : Desc} {index : UInt32} {ps : List DerivationPath} :
    ms.derive desc index = some ps ↔ ms.Derives desc index ∧ ps = ms.derivedPaths desc index := by
  unfold derive
  split <;> simp [*, eq_comm]

theorem derive_eq_none {desc : Desc} {index : UInt32} :
    ms.derive desc index = none ↔ ¬ ms.Derives desc index := by
  unfold derive
  split <;> simp [*]

end Miniscript

/-- A failure the dongle reports (device unreachable, confirmation declined, …). -/
structure DongleError where
  code : Nat
deriving DecidableEq

/-- The hardware device: its answer to a request for the key at a path, given the requests it
    has answered before. -/
abbrev Device (PublicKey : Type) := List DerivationPath → DerivationPath → Except DongleError PublicKey

/-- `crate::Error`, as far as this layer produces it. `panic` stands for an aborting call: an index
    out of bounds or a failed `expect`. -/
inductive Error
  | duplicateDescriptor
  | txoNotFound (outpoint : OutPoint)
  | dongle (e : DongleError)
  | panic
deriving DecidableEq

/-- Modelled from the spec: `Address` (`address.rs` is not among the sources), the label of one
    instantiated descriptor slot. -/
structure Address where
  descriptorIdx : UInt32
  wildcardIdx : UInt32
  createTime : RString
  notes : RString
deriving DecidableEq

/-- Modelled from the spec: `Address::new`. -/
def Address.new (descriptorIdx wildcardIdx : UInt32) (time notes : RString) : Address :=
  ⟨descriptorIdx, wildcardIdx, time, notes⟩

/-- Modelled from the spec: `Txo` (`txo.rs` is not among the sources), a tracked output. -/
structure Txo where
  descriptorIdx : UInt32
  wildcardIdx : UInt32
  outpoint : OutPoint
  value : UInt64
  height : UInt64
  spendingTxid : Option Txid
  spentHeight : Option UInt64
deriving DecidableEq

/-- Modelled from the spec: `Txo::new`, unspent. -/
def Txo.new (descriptorIdx wildcardIdx : UInt32) (outpoint : OutPoint) (value height : UInt64) :
    Txo :=
  ⟨descriptorIdx, wildcardIdx, outpoint, value, height, none, none⟩

/-- Modelled from the spec: `Txo::set_spent` records the spending transaction and height. -/
def Txo.setSpent (t : Txo) (txid : Txid) (height : UInt64) : Txo :=
  { t with spendingTxid := some txid, spentHeight := some height }

@[simp] theorem Txo.setSpent_outpoint (t : Txo) (txid : Txid) (h : UInt64) :
    (t.setSpent txid h).outpoint = t.outpoint := rfl

@[simp] theorem Txo.setSpent_descriptorIdx (t : Txo) (txid : Txid) (h : UInt64) :
    (t.setSpent txid h).descriptorIdx = t.descriptorIdx := rfl

@[simp] theorem Txo.setSpent_wildcardIdx (t : Txo) (txid : Txid) (h : UInt64) :
    (t.setSpent txid h).wildcardIdx = t.wildcardIdx := rfl

/-- A later `set_spent` overwrites an earlier one. -/
@[simp] theorem Txo.setSpent_setSpent (t : Txo) (a b : Txid) (h h' : UInt64) :
    (t.setSpent a h).setSpent b h' = t.setSpent b h' := rfl

/-- `wallet::Descriptor`: a registered descriptor, its range `[low, high)` and the next index
    `add_address` allocates. -/
structure Descriptor (Desc : Type) where
  desc : Desc
  low : UInt32
  high : UInt32
  nextIdx : UInt32
deriving DecidableEq

/-- `wallet::Wallet`. -/
structure Wallet (Desc PublicKey : Type) where
  blockHeight : UInt64
  descriptors : List (Descriptor Desc)
  addresses : HashMap Script Address
  txos : HashMap OutPoint Txo
  keyCache : HashMap DerivationPath PublicKey

/-- `Wallet::new`: empty. -/
def Wallet.new {Desc PublicKey : Type} : Wallet Desc PublicKey := ⟨0, [], .empty, .empty, .empty⟩

/-- What deriving a key touches: the key cache, and the dongle, recorded as the requests it has
    been sent (oldest first). -/
structure Keys (PublicKey : Type) where
  cache : HashMap DerivationPath PublicKey
  requests : List DerivationPath

/-- A wallet together with the dongle the calls on it are given. -/
structure Session (Desc PublicKey : Type) where
  wallet : Wallet Desc PublicKey
  requests : List DerivationPath

namespace Session

variable {Desc PublicKey : Type}

/-- The key cache and the dongle. -/
def keys (s : Session Desc PublicKey) : Keys PublicKey := ⟨s.wallet.keyCache, s.requests⟩

/-- Put back a key cache and a dongle after a derivation. -/
def setKeys (s : Session Desc PublicKey) (ks : Keys PublicKey) : Session Desc PublicKey :=
  ⟨{ s.wallet with keyCache := ks.cache }, ks.requests⟩

@[simp] theorem keys_cache (s : Session Desc PublicKey) : s.keys.cache = s.wallet.keyCache := rfl
@[simp] theorem keys_requests (s : Session Desc PublicKey) : s.keys.requests = s.requests := rfl
@[simp] theorem setKeys_keyCache (s : Session Desc PublicKey) (ks : Keys PublicKey) :
    (s.setKeys ks).wallet.keyCache = ks.cache := rfl
@[simp] theorem setKeys_requests (s : Session Desc PublicKey) (ks : Keys PublicKey) :
    (s.setKeys ks).requests = ks.requests := rfl
@[simp] theorem setKeys_descriptors (s : Session Desc PublicKey) (ks : Keys PublicKey) :
    (s.setKeys ks).wallet.descriptors = s.wallet.descriptors := rfl
@[simp] theorem setKeys_addresses (s : Session Desc PublicKey) (ks : Keys PublicKey) :
    (s.setKeys ks).wallet.addresses = s.wallet.addresses := rfl
@[simp] theorem setKeys_txos (s : Session Desc PublicKey) (ks : Keys PublicKey) :
    (s.setKeys ks).wallet.txos = s.wallet.txos := rfl
@[simp] theorem setKeys_blockHeight (s : Session Desc PublicKey) (ks : Keys PublicKey) :
    (s.setKeys ks).wallet.blockHeight = s.wallet.blockHeight := rfl
@[simp] theorem setKeys_keys (s : Session Desc PublicKey) : s.setKeys s.keys = s := rfl

end Session

/-! ## 1. Deriving a key -/

section Derive

variable {Desc PublicKey : Type} (ms : Miniscript Desc PublicKey) (dev : Device PublicKey)

/-- Modelled from the spec: `Dongle::get_wallet_public_key` (the dongle is not among the sources).
    On a cached path it answers from the cache and sends nothing; otherwise it sends one request
    for the path and caches the key the device returns (spec §4.3). -/
def getWalletPublicKey (p : DerivationPath) (ks : Keys PublicKey) :
    Except Error PublicKey × Keys PublicKey :=
  match ks.cache.get? p with
  | some k => (.ok k, ks)
  | none =>
    match dev ks.requests p with
    | .ok k => (.ok k, ⟨ks.cache.insert p k, ks.requests ++ [p]⟩)
    | .error e => (.error (.dongle e), ⟨ks.cache, ks.requests ++ [p]⟩)

/-- `translate_pk2` with the closure of `cache_key`: the keys in order, up to the first failure. -/
def translatePk : List DerivationPath → Keys PublicKey → Except Error (List PublicKey) × Keys PublicKey
  | [], ks => (.ok [], ks)
  | p :: ps, ks =>
    match getWalletPublicKey dev p ks with
    | (.error e, ks') => (.error e, ks')
    | (.ok k, ks') =>
      match translatePk ps ks' with
      | (.error e, ks'') => (.error e, ks'')
      | (.ok keys, ks'') => (.ok (k :: keys), ks'')

/-- `Wallet::cache_key`: derive the descriptor at `index` (a panic where `derive` panics), resolve
    its keys through the dongle and the cache, and compute the script. -/
def cacheKey (desc : Desc) (index : UInt32) (ks : Keys PublicKey) :
    Except Error Script × Keys PublicKey :=
  match ms.derive desc index with
  | none => (.error .panic, ks)
  | some ps =>
    match translatePk dev ps ks with
    | (.error e, ks') => (.error e, ks')
    | (.ok keys, ks') => (.ok (ms.scriptPubkey desc index keys), ks')

end Derive

/-! ## 2. The cache only grows -/

/-- Every key of `c` is in `c'`, unchanged. -/
def CacheExtends {PublicKey : Type} (c c' : HashMap DerivationPath PublicKey) : Prop :=
  ∀ p k, c.get? p = some k → c'.get? p = some k

theorem CacheExtends.refl {PublicKey : Type} (c : HashMap DerivationPath PublicKey) :
    CacheExtends c c := fun _ _ h => h

theorem CacheExtends.trans {PublicKey : Type} {c c' c'' : HashMap DerivationPath PublicKey}
    (h : CacheExtends c c') (h' : CacheExtends c' c'') : CacheExtends c c'' :=
  fun p k hk => h' p k (h p k hk)

theorem CacheExtends.mem_keys {PublicKey : Type} {c c' : HashMap DerivationPath PublicKey}
    (h : CacheExtends c c') {p : DerivationPath} (hp : p ∈ c.keys) : p ∈ c'.keys := by
  obtain ⟨k, hk⟩ := Option.isSome_iff_exists.mp (HashMap.mem_keys.mp hp)
  exact HashMap.mem_keys.mpr (by rw [h p k hk]; rfl)

/-- The keys at `ps`, when all of them are cached. -/
def lookupAll {PublicKey : Type} (c : HashMap DerivationPath PublicKey) :
    List DerivationPath → Option (List PublicKey)
  | [] => some []
  | p :: ps => (c.get? p).bind fun k => (lookupAll c ps).map (k :: ·)

theorem lookupAll_mono {PublicKey : Type} {c c' : HashMap DerivationPath PublicKey}
    (h : CacheExtends c c') : ∀ {ps : List DerivationPath} {keys : List PublicKey},
    lookupAll c ps = some keys → lookupAll c' ps = some keys
  | [], _, hk => hk
  | p :: ps, keys, hk => by
    simp only [lookupAll, Option.bind_eq_some, Option.map_eq_some'] at hk ⊢
    obtain ⟨k, hp, keys', hps, rfl⟩ := hk
    exact ⟨k, h p k hp, keys', lookupAll_mono h hps, rfl⟩

theorem mem_of_lookupAll {PublicKey : Type} {c : HashMap DerivationPath PublicKey} :
    ∀ {ps : List DerivationPath} {keys : List PublicKey}, lookupAll c ps = some keys →
    ∀ p ∈ ps, p ∈ c.keys
  | [], _, _, p, hp => absurd hp (List.not_mem_nil p)
  | q :: ps, keys, hk, p, hp => by
    simp only [lookupAll, Option.bind_eq_some, Option.map_eq_some'] at hk
    obtain ⟨k, hq, keys', hps, rfl⟩ := hk
    rcases List.mem_cons.mp hp with rfl | hp
    · exact HashMap.mem_keys.mpr (by simp [hq])
    · exact mem_of_lookupAll hps p hp

theorem lookupAll_of_mem {PublicKey : Type} {c : HashMap DerivationPath PublicKey} :
    ∀ {ps : List DerivationPath}, (∀ p ∈ ps, p ∈ c.keys) → ∃ keys, lookupAll c ps = some keys
  | [], _ => ⟨[], rfl⟩
  | p :: ps, h => by
    obtain ⟨k, hk⟩ := Option.isSome_iff_exists.mp (HashMap.mem_keys.mp (h p (List.mem_cons_self p ps)))
    obtain ⟨keys, hks⟩ := lookupAll_of_mem fun q hq => h q (List.mem_cons_of_mem p hq)
    exact ⟨k :: keys, by simp [lookupAll, hk, hks]⟩

section DeriveSpec

variable {Desc PublicKey : Type} (ms : Miniscript Desc PublicKey) (dev : Device PublicKey)

/-- The script `cache_key` computes when the descriptor derives at `index` and every key it needs
    is cached. -/
def cachedScript (c : HashMap DerivationPath PublicKey) (desc : Desc) (index : UInt32) :
    Option Script :=
  (ms.derive desc index).bind fun ps => (lookupAll c ps).map (ms.scriptPubkey desc index)

theorem cachedScript_eq_some {c : HashMap DerivationPath PublicKey} {desc : Desc} {index : UInt32}
    {spk : Script} :
    cachedScript ms c desc index = some spk ↔ ms.Derives desc index ∧
      ∃ keys, lookupAll c (ms.derivedPaths desc index) = some keys ∧
        ms.scriptPubkey desc index keys = spk := by
  simp only [cachedScript, Option.bind_eq_some, Option.map_eq_some', ms.derive_eq_some]
  constructor
  · rintro ⟨_, ⟨hd, rfl⟩, h⟩
    exact ⟨hd, h⟩
  · rintro ⟨hd, h⟩
    exact ⟨_, ⟨hd, rfl⟩, h⟩

theorem cachedScript_mono {c c' : HashMap DerivationPath PublicKey} (h : CacheExtends c c')
    {desc : Desc} {index : UInt32} {spk : Script} (hs : cachedScript ms c desc index = some spk) :
    cachedScript ms c' desc index = some spk := by
  obtain ⟨hd, keys, hk, rfl⟩ := (cachedScript_eq_some ms).mp hs
  exact (cachedScript_eq_some ms).mpr ⟨hd, keys, lookupAll_mono h hk, rfl⟩

/-- `cachedScript` is defined exactly when the descriptor derives at `index` and every key it needs
    is cached. -/
theorem cachedScript_isSome_iff {c : HashMap DerivationPath PublicKey} {desc : Desc}
    {index : UInt32} :
    (cachedScript ms c desc index).isSome ↔
      ms.Derives desc index ∧ ∀ p ∈ ms.derivedPaths desc index, p ∈ c.keys := by
  rw [Option.isSome_iff_exists]
  constructor
  · rintro ⟨_, h⟩
    obtain ⟨hd, keys, hk, -⟩ := (cachedScript_eq_some ms).mp h
    exact ⟨hd, mem_of_lookupAll hk⟩
  · rintro ⟨hd, h⟩
    obtain ⟨keys, hk⟩ := lookupAll_of_mem h
    exact ⟨_, (cachedScript_eq_some ms).mpr ⟨hd, keys, hk, rfl⟩⟩

theorem getWalletPublicKey_extends (p : DerivationPath) (ks : Keys PublicKey) :
    CacheExtends ks.cache (getWalletPublicKey dev p ks).2.cache := by
  unfold getWalletPublicKey
  split
  · exact CacheExtends.refl _
  · rename_i hp
    split
    · intro q k hq
      have : q ≠ p := by rintro rfl; simp [hp] at hq
      simpa [this] using hq
    · exact CacheExtends.refl _

theorem getWalletPublicKey_ok {p : DerivationPath} {ks ks' : Keys PublicKey} {k : PublicKey}
    (h : getWalletPublicKey dev p ks = (.ok k, ks')) : ks'.cache.get? p = some k := by
  unfold getWalletPublicKey at h
  split at h
  · cases h; assumption
  · split at h <;> cases h; simp

theorem translatePk_extends : ∀ (ps : List DerivationPath) (ks : Keys PublicKey),
    CacheExtends ks.cache (translatePk dev ps ks).2.cache
  | [], ks => CacheExtends.refl _
  | p :: ps, ks => by
    have h1 := getWalletPublicKey_extends dev p ks
    unfold translatePk
    split
    · rename_i e ks' he; rw [he] at h1; exact h1
    · rename_i k ks' he
      rw [he] at h1
      have h2 := translatePk_extends ps ks'
      split <;> (rename_i _ _ he'; rw [he'] at h2; exact h1.trans h2)

theorem translatePk_ok : ∀ {ps : List DerivationPath} {ks ks' : Keys PublicKey}
    {keys : List PublicKey}, translatePk dev ps ks = (.ok keys, ks') →
    lookupAll ks'.cache ps = some keys
  | [], ks, ks', keys, h => by simp only [translatePk, Prod.mk.injEq] at h; obtain ⟨⟨⟩, -⟩ := h; rfl
  | p :: ps, ks, ks', keys, h => by
    unfold translatePk at h
    split at h
    · cases h
    · rename_i k ks₁ hp
      split at h
      · cases h
      · rename_i keys' ks₂ hps
        simp only [Prod.mk.injEq, Except.ok.injEq] at h
        obtain ⟨rfl, rfl⟩ := h
        have hk := translatePk_extends dev ps ks₁
        rw [hps] at hk
        simp [lookupAll, hk p k (getWalletPublicKey_ok dev hp), translatePk_ok hps]

theorem translatePk_of_cached : ∀ {ps : List DerivationPath} {ks : Keys PublicKey}
    {keys : List PublicKey}, lookupAll ks.cache ps = some keys →
    translatePk dev ps ks = (.ok keys, ks)
  | [], ks, keys, h => by cases h; rfl
  | p :: ps, ks, keys, h => by
    simp only [lookupAll, Option.bind_eq_some, Option.map_eq_some'] at h
    obtain ⟨k, hp, keys', hps, rfl⟩ := h
    simp [translatePk, getWalletPublicKey, hp, translatePk_of_cached hps]

/-- **`cache_key` panics where `derive` does**, and then touches nothing. -/
theorem cacheKey_panic {desc : Desc} {index : UInt32} (h : ¬ ms.Derives desc index)
    (ks : Keys PublicKey) : cacheKey ms dev desc index ks = (.error .panic, ks) := by
  rw [cacheKey, (ms.derive_eq_none).mpr h]

/-- Where the descriptor derives, `cache_key` is `translate_pk2` over its paths, then the script. -/
theorem cacheKey_of_derives {desc : Desc} {index : UInt32} (h : ms.Derives desc index)
    (ks : Keys PublicKey) :
    cacheKey ms dev desc index ks =
      match translatePk dev (ms.derivedPaths desc index) ks with
      | (.error e, ks') => (.error e, ks')
      | (.ok keys, ks') => (.ok (ms.scriptPubkey desc index keys), ks') := by
  rw [cacheKey, (ms.derive_eq_some).mpr ⟨h, rfl⟩]

/-- **The cache only grows**, whatever `cache_key` returns. -/
theorem cacheKey_extends (desc : Desc) (index : UInt32) (ks : Keys PublicKey) :
    CacheExtends ks.cache (cacheKey ms dev desc index ks).2.cache := by
  by_cases hd : ms.Derives desc index
  · have := translatePk_extends dev (ms.derivedPaths desc index) ks
    rw [cacheKey_of_derives ms dev hd]
    split <;> (rename_i _ _ he; rw [he] at this; exact this)
  · rw [cacheKey_panic ms dev hd]
    exact CacheExtends.refl _

/-- **A successful `cache_key` leaves every key it used in the cache.** -/
theorem cacheKey_ok {desc : Desc} {index : UInt32} {ks ks' : Keys PublicKey} {spk : Script}
    (h : cacheKey ms dev desc index ks = (.ok spk, ks')) :
    cachedScript ms ks'.cache desc index = some spk := by
  by_cases hd : ms.Derives desc index
  · rw [cacheKey_of_derives ms dev hd] at h
    split at h
    · cases h
    · rename_i keys ks₁ he
      simp only [Prod.mk.injEq, Except.ok.injEq] at h
      obtain ⟨rfl, rfl⟩ := h
      exact (cachedScript_eq_some ms).mpr ⟨hd, keys, translatePk_ok dev he, rfl⟩
  · rw [cacheKey_panic ms dev hd] at h
    cases h

theorem getWalletPublicKey_error {p : DerivationPath} {ks ks' : Keys PublicKey} {e : Error}
    (h : getWalletPublicKey dev p ks = (.error e, ks')) : ∃ de, e = .dongle de := by
  unfold getWalletPublicKey at h
  split at h
  · cases h
  · split at h <;> cases h; exact ⟨_, rfl⟩

theorem translatePk_error : ∀ {ps : List DerivationPath} {ks ks' : Keys PublicKey} {e : Error},
    translatePk dev ps ks = (.error e, ks') → ∃ de, e = .dongle de
  | [], _, _, _, h => by cases h
  | p :: ps, ks, ks', e, h => by
    unfold translatePk at h
    split at h
    · cases h; exact getWalletPublicKey_error dev ‹_›
    · split at h
      · cases h; exact translatePk_error ‹_›
      · cases h

/-- Every error `cache_key` returns is the panic of `derive` or one the dongle reported. -/
theorem cacheKey_error {desc : Desc} {index : UInt32} {ks ks' : Keys PublicKey} {e : Error}
    (h : cacheKey ms dev desc index ks = (.error e, ks')) : e = .panic ∨ ∃ de, e = .dongle de := by
  by_cases hd : ms.Derives desc index
  · rw [cacheKey_of_derives ms dev hd] at h
    split at h
    · cases h; exact .inr (translatePk_error dev ‹_›)
    · cases h
  · rw [cacheKey_panic ms dev hd] at h
    cases h
    exact .inl rfl

/-- **A cached instantiation is answered from the cache, with no request.** -/
theorem cacheKey_of_cached {desc : Desc} {index : UInt32} {ks : Keys PublicKey} {spk : Script}
    (h : cachedScript ms ks.cache desc index = some spk) :
    cacheKey ms dev desc index ks = (.ok spk, ks) := by
  obtain ⟨hd, keys, hk, rfl⟩ := (cachedScript_eq_some ms).mp h
  rw [cacheKey_of_derives ms dev hd, translatePk_of_cached dev hk]

end DeriveSpec

end Icebox
