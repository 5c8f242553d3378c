import Icebox.Wallet.Basic

/-!
# The wallet's operations

`Wallet::add_descriptor`, `add_address`, `script_pubkey_cache`, `scan_block`, `txo` and
`all_txos`, each as the source computes it: loops are structural recursions over the list the
loop iterates, the `?` of a derivation returns the error together with the state the call has
reached (a `&mut` borrow keeps what was written before the failure), and indexing out of bounds
and a failing `unwrap` are `Error.panic`.

The effects on the parts of the wallet a call does not own are stated here once:

* `KeysOnly s s'`: `s'` differs from `s` in the key cache alone, and the cache only grew;
* `spkCacheRange_extends`, `spkCacheDescs_extends`, `scriptPubkeyCache_keysOnly`: the loops of
  `script_pubkey_cache` only grow the cache;
* `info_keysOnly`: the joined view `add_address` returns only caches keys;
* `addAddress_descriptors`, `addAddress_txos`, `addAddress_addresses`: `add_address` writes the
  address map and the cache, and on success inserts the new `Address` at its script.
-/

namespace Icebox

/-- `ScriptPubkeyCache`: the scripts the wallet recognises, each with its descriptor position and
    wildcard index. -/
structure ScriptPubkeyCache where
  spks : HashMap Script (UInt32 × UInt32)

/-- `bitcoin::Address` on the Bitcoin network, read as the script it pays to. -/
structure BtcAddress where
  scriptPubkey : Script
deriving DecidableEq

/-- Modelled from the spec: `AddressInfo` (`address.rs` is not among the sources), "a joined view
    combining the new Address with any existing Txo/ownership detail at that script". -/
structure AddressInfo where
  address : Address
  scriptPubkey : Script
  txos : List Txo

/-- `TxoInfo`: a tracked output with its descriptor, its address and the label at its script. -/
structure TxoInfo (Desc : Type) where
  txo : Txo
  descriptor : Descriptor Desc
  address : BtcAddress
  addressInfo : Option Address

section Ops

variable {Desc PublicKey : Type} [DecidableEq Desc] (ms : Miniscript Desc PublicKey)
  (dev : Device PublicKey)

/-! ## 1. `add_descriptor` -/

/-- The first loop of `add_descriptor`: the indices of every registered descriptor with the same
    `desc`; a registered descriptor with the same range as well is a duplicate. -/
def existingIndices (desc : Desc) (low high : UInt32) :
    List (Descriptor Desc) → HashSet UInt32 → Except Error (HashSet UInt32)
  | [], acc => .ok acc
  | d :: ds, acc =>
    if d.desc = desc then
      if d.low = low ∧ d.high = high then .error .duplicateDescriptor
      else existingIndices desc low high ds ((u32Range d.low d.high).foldl HashSet.insert acc)
    else existingIndices desc low high ds acc

/-- The second loop of `add_descriptor`: derive each index of the range not yet covered, and
    count them. -/
def deriveUncovered (desc : Desc) (existing : HashSet UInt32) :
    List UInt32 → Nat → Keys PublicKey → Except Error Nat × Keys PublicKey
  | [], addedNew, ks => (.ok addedNew, ks)
  | i :: is, addedNew, ks =>
    if existing.contains i then deriveUncovered desc existing is addedNew ks
    else
      match cacheKey ms dev desc i ks with
      | (.error e, ks') => (.error e, ks')
      | (.ok _, ks') => deriveUncovered desc existing is (addedNew + 1) ks'

/-- `Wallet::add_descriptor`. -/
def addDescriptor (desc : Desc) (low high : UInt32) (s : Session Desc PublicKey) :
    Except Error Nat × Session Desc PublicKey :=
  match existingIndices desc low high s.wallet.descriptors .empty with
  | .error e => (.error e, s)
  | .ok existing =>
    match deriveUncovered ms dev desc existing (u32Range low high) 0 s.keys with
    | (.error e, ks) => (.error e, s.setKeys ks)
    | (.ok addedNew, ks) =>
      (.ok addedNew, ⟨{ s.wallet with
        keyCache := ks.cache,
        descriptors := s.wallet.descriptors ++ [⟨desc, low, high, 0⟩] }, ks.requests⟩)

/-! ## 2. `add_address` -/

/-- Modelled from the spec: `Address::info`. It instantiates the address's descriptor through
    `cache_key` to recover the script, and joins the tracked outputs of the same slot. -/
def Address.info (a : Address) (s : Session Desc PublicKey) :
    Except Error AddressInfo × Session Desc PublicKey :=
  match s.wallet.descriptors[a.descriptorIdx.toNat]? with
  | none => (.error .panic, s)
  | some d =>
    match cacheKey ms dev d.desc a.wildcardIdx s.keys with
    | (.error e, ks) => (.error e, s.setKeys ks)
    | (.ok spk, ks) =>
      (.ok ⟨a, spk, s.wallet.txos.entries.filterMap fun e =>
        if e.2.descriptorIdx = a.descriptorIdx ∧ e.2.wildcardIdx = a.wildcardIdx then some e.2
        else none⟩, s.setKeys ks)

/-- `Wallet::add_address`. `next_idx` is written before the derivation, so it stays advanced when
    the derivation fails; `max(next_idx, wildcard_idx) + 1` wraps on `u32`. -/
def addAddress (descriptorIdx : UInt32) (wildcardIdx : Option UInt32) (time notes : RString)
    (s : Session Desc PublicKey) : Except Error AddressInfo × Session Desc PublicKey :=
  match s.wallet.descriptors[descriptorIdx.toNat]? with
  | none => (.error .panic, s)
  | some d =>
    let w := wildcardIdx.getD d.nextIdx
    let s₁ : Session Desc PublicKey := ⟨{ s.wallet with
      descriptors := s.wallet.descriptors.set descriptorIdx.toNat
        { d with nextIdx := cmpMax d.nextIdx w + 1 } }, s.requests⟩
    match cacheKey ms dev d.desc w s₁.keys with
    | (.error e, ks) => (.error e, s₁.setKeys ks)
    | (.ok spk, ks) =>
      let a := Address.new descriptorIdx w time notes
      a.info ms dev ⟨{ (s₁.setKeys ks).wallet with
        addresses := (s₁.setKeys ks).wallet.addresses.insert spk a }, ks.requests⟩

/-! ## 3. `script_pubkey_cache` -/

/-- The inner loop of `script_pubkey_cache`, over `desc.low..desc.high`. -/
def spkCacheRange (didx : Nat) (desc : Desc) :
    List UInt32 → HashMap Script (UInt32 × UInt32) → Keys PublicKey →
      Except Error (HashMap Script (UInt32 × UInt32)) × Keys PublicKey
  | [], map, ks => (.ok map, ks)
  | widx :: ws, map, ks =>
    match cacheKey ms dev desc widx ks with
    | (.error e, ks') => (.error e, ks')
    | (.ok spk, ks') => spkCacheRange didx desc ws (map.insert spk (UInt32.ofNat didx, widx)) ks'

/-- The outer loop, over `descriptors.iter().enumerate()` from position `didx`. -/
def spkCacheDescs : Nat → List (Descriptor Desc) → HashMap Script (UInt32 × UInt32) →
    Keys PublicKey → Except Error (HashMap Script (UInt32 × UInt32)) × Keys PublicKey
  | _, [], map, ks => (.ok map, ks)
  | didx, d :: ds, map, ks =>
    match spkCacheRange ms dev didx d.desc (u32Range d.low d.high) map ks with
    | (.error e, ks') => (.error e, ks')
    | (.ok map', ks') => spkCacheDescs (didx + 1) ds map' ks'

/-- `Wallet::script_pubkey_cache`. -/
def scriptPubkeyCache (s : Session Desc PublicKey) :
    Except Error ScriptPubkeyCache × Session Desc PublicKey :=
  match spkCacheDescs ms dev 0 s.wallet.descriptors .empty s.keys with
  | (.error e, ks) => (.error e, s.setKeys ks)
  | (.ok map, ks) => (.ok ⟨map⟩, s.setKeys ks)

/-! ## 4. `scan_block` -/

/-- The output loop of `scan_block` for one transaction; `vout` counts the outputs. -/
def scanOutputs (cache : ScriptPubkeyCache) (txid : Txid) (height : UInt64) :
    Nat → List TxOut → HashMap OutPoint Txo → HashSet OutPoint →
      HashMap OutPoint Txo × HashSet OutPoint
  | _, [], txos, received => (txos, received)
  | vout, output :: outs, txos, received =>
    match cache.spks.get? output.scriptPubkey with
    | some (didx, widx) =>
      let outpoint : OutPoint := ⟨txid, UInt32.ofNat vout⟩
      scanOutputs cache txid height (vout + 1) outs
        (txos.insert outpoint (Txo.new didx widx outpoint output.value height))
        (received.insert outpoint)
    | none => scanOutputs cache txid height (vout + 1) outs txos received

/-- The input loop: mark each tracked output the transaction spends. -/
def scanInputs (txid : Txid) (height : UInt64) :
    List TxIn → HashMap OutPoint Txo → HashSet OutPoint → HashMap OutPoint Txo × HashSet OutPoint
  | [], txos, spent => (txos, spent)
  | input :: ins, txos, spent =>
    if txos.contains input.previousOutput then
      scanInputs txid height ins (txos.modify input.previousOutput (·.setSpent txid height))
        (spent.insert input.previousOutput)
    else scanInputs txid height ins txos spent

/-- The transaction loop: each transaction's outputs, then its inputs. -/
def scanTxs (cache : ScriptPubkeyCache) (height : UInt64) :
    List Transaction → HashMap OutPoint Txo → HashSet OutPoint → HashSet OutPoint →
      HashMap OutPoint Txo × HashSet OutPoint × HashSet OutPoint
  | [], txos, received, spent => (txos, received, spent)
  | tx :: txs, txos, received, spent =>
    let r₁ := scanOutputs cache tx.txid height 0 tx.output txos received
    let r₂ := scanInputs tx.txid height tx.input r₁.1 spent
    scanTxs cache height txs r₂.1 r₁.2 r₂.2

/-- `Wallet::scan_block`: never fails; returns the received and the spent outpoints. -/
def scanBlock (block : Block) (height : UInt64) (cache : ScriptPubkeyCache)
    (w : Wallet Desc PublicKey) :
    Except Error (HashSet OutPoint × HashSet OutPoint) × Wallet Desc PublicKey :=
  let r := scanTxs cache height block.txdata w.txos .empty .empty
  (.ok (r.2.1, r.2.2), { w with txos := r.1 })

/-! ## 5. `txo` -/

/-- `Wallet::txo`: a tracked output joined with its descriptor, its address and its label. Its
    `derive`, `translate_pk2` with the closure of `cache_key`, and `script_pubkey()` are the body of
    `cache_key`, inlined in the source. -/
def txo (outpoint : OutPoint) (s : Session Desc PublicKey) :
    Except Error (TxoInfo Desc) × Session Desc PublicKey :=
  match s.wallet.txos.get? outpoint with
  | none => (.error (.txoNotFound outpoint), s)
  | some t =>
    match s.wallet.descriptors[t.descriptorIdx.toNat]? with
    | none => (.error .panic, s)
    | some d =>
      match cacheKey ms dev d.desc t.wildcardIdx s.keys with
      | (.error e, ks) => (.error e, s.setKeys ks)
      | (.ok spk, ks) =>
        if ms.hasAddress d.desc then
          (.ok ⟨t, d, ⟨spk⟩, s.wallet.addresses.get? spk⟩, s.setKeys ks)
        else (.error .panic, s.setKeys ks)

/-- `txo(o).unwrap()` at each outpoint of `os` in turn; a failing `txo` panics. -/
def txosOf : List OutPoint → Session Desc PublicKey →
    Except Error (List (TxoInfo Desc)) × Session Desc PublicKey
  | [], s => (.ok [], s)
  | o :: os, s =>
    match txo ms dev o s with
    | (.error _, s') => (.error .panic, s')
    | (.ok info, s') =>
      match txosOf os s' with
      | (.ok infos, s'') => (.ok (info :: infos), s'')
      | (.error e, s'') => (.error e, s'')

/-- `Wallet::all_txos`, iterated to its end: every key of `txos`, in the map's order. -/
def allTxos (s : Session Desc PublicKey) :
    Except Error (List (TxoInfo Desc)) × Session Desc PublicKey :=
  txosOf ms dev s.wallet.txos.keys s

/-! ## 6. What each call writes -/

/-- `s'` differs from `s` at most in the dongle and in the key cache, which only grew. -/
def KeysOnly (s s' : Session Desc PublicKey) : Prop :=
  s'.wallet = { s.wallet with keyCache := s'.wallet.keyCache } ∧
    CacheExtends s.wallet.keyCache s'.wallet.keyCache

omit [DecidableEq Desc] in
theorem KeysOnly.refl (s : Session Desc PublicKey) : KeysOnly s s := ⟨rfl, CacheExtends.refl _⟩

omit [DecidableEq Desc] in
theorem KeysOnly.trans {s s' s'' : Session Desc PublicKey} (h : KeysOnly s s')
    (h' : KeysOnly s' s'') : KeysOnly s s'' := by
  refine ⟨?_, h.2.trans h'.2⟩
  rw [h'.1, h.1]

omit [DecidableEq Desc] in
theorem keysOnly_setKeys (s : Session Desc PublicKey) {ks : Keys PublicKey}
    (h : CacheExtends s.wallet.keyCache ks.cache) : KeysOnly s (s.setKeys ks) := ⟨rfl, h⟩

omit [DecidableEq Desc] in
theorem KeysOnly.descriptors {s s' : Session Desc PublicKey} (h : KeysOnly s s') :
    s'.wallet.descriptors = s.wallet.descriptors := by rw [h.1]

omit [DecidableEq Desc] in
theorem KeysOnly.addresses {s s' : Session Desc PublicKey} (h : KeysOnly s s') :
    s'.wallet.addresses = s.wallet.addresses := by rw [h.1]

omit [DecidableEq Desc] in
theorem KeysOnly.txos {s s' : Session Desc PublicKey} (h : KeysOnly s s') :
    s'.wallet.txos = s.wallet.txos := by rw [h.1]

omit [DecidableEq Desc] in
theorem info_keysOnly (a : Address) (s : Session Desc PublicKey) :
    KeysOnly s (a.info ms dev s).2 := by
  unfold Address.info
  split
  · exact KeysOnly.refl s
  · rename_i d _
    have := cacheKey_extends ms dev d.desc a.wildcardIdx s.keys
    split <;> (rename_i he; rw [he] at this; exact keysOnly_setKeys s this)

omit [DecidableEq Desc] in
theorem addAddress_of_none {i : UInt32} (w : Option UInt32) (t n : RString)
    {s : Session Desc PublicKey} (h : s.wallet.descriptors[i.toNat]? = none) :
    addAddress ms dev i w t n s = (.error .panic, s) := by
  simp [addAddress, h]

omit [DecidableEq Desc] in
/-- **`add_address` on a registered descriptor**: `next_idx` advances; then either the derivation
    fails, or the label is inserted at the derived script, which the cache now yields. Besides, only
    the key cache grows. -/
theorem addAddress_of_some {i : UInt32} (w : Option UInt32) (t n : RString)
    {s : Session Desc PublicKey} {d : Descriptor Desc} (h : s.wallet.descriptors[i.toNat]? = some d) :
    KeysOnly ⟨{ s.wallet with
          descriptors := s.wallet.descriptors.set i.toNat
            { d with nextIdx := cmpMax d.nextIdx (w.getD d.nextIdx) + 1 } }, s.requests⟩
      (addAddress ms dev i w t n s).2 ∨
    ∃ spk, ∃ ks : Keys PublicKey, cachedScript ms ks.cache d.desc (w.getD d.nextIdx) = some spk ∧
      CacheExtends s.wallet.keyCache ks.cache ∧
      KeysOnly ⟨{ s.wallet with
          descriptors := s.wallet.descriptors.set i.toNat
            { d with nextIdx := cmpMax d.nextIdx (w.getD d.nextIdx) + 1 },
          keyCache := ks.cache,
          addresses := s.wallet.addresses.insert spk (Address.new i (w.getD d.nextIdx) t n) },
        ks.requests⟩ (addAddress ms dev i w t n s).2 := by
  simp only [addAddress, h]
  have hx := cacheKey_extends ms dev d.desc (w.getD d.nextIdx) s.keys
  split
  · rename_i e ks he
    erw [he] at hx
    exact .inl (keysOnly_setKeys _ hx)
  · rename_i spk ks he
    erw [he] at hx
    exact .inr ⟨spk, ks, cacheKey_ok ms dev he, hx, info_keysOnly ms dev _ _⟩

omit [DecidableEq Desc] in
/-- `add_address` writes `next_idx` of the descriptor it names, and no other descriptor field. -/
theorem addAddress_descriptors (i : UInt32) (w : Option UInt32) (t n : RString)
    (s : Session Desc PublicKey) :
    (addAddress ms dev i w t n s).2.wallet.descriptors =
      match s.wallet.descriptors[i.toNat]? with
      | none => s.wallet.descriptors
      | some d => s.wallet.descriptors.set i.toNat
          { d with nextIdx := cmpMax d.nextIdx (w.getD d.nextIdx) + 1 } := by
  rcases hd : s.wallet.descriptors[i.toNat]? with _ | d
  · rw [addAddress_of_none ms dev w t n hd]
  · rcases addAddress_of_some ms dev w t n hd with h | ⟨_, _, _, _, h⟩ <;> exact h.descriptors

omit [DecidableEq Desc] in
theorem addAddress_extends (i : UInt32) (w : Option UInt32) (t n : RString)
    (s : Session Desc PublicKey) :
    CacheExtends s.wallet.keyCache (addAddress ms dev i w t n s).2.wallet.keyCache := by
  rcases hd : s.wallet.descriptors[i.toNat]? with _ | d
  · rw [addAddress_of_none ms dev w t n hd]; exact CacheExtends.refl _
  · rcases addAddress_of_some ms dev w t n hd with h | ⟨_, _, _, hx, h⟩
    · exact h.2
    · exact hx.trans h.2

omit [DecidableEq Desc] in
theorem addAddress_txos (i : UInt32) (w : Option UInt32) (t n : RString)
    (s : Session Desc PublicKey) :
    (addAddress ms dev i w t n s).2.wallet.txos = s.wallet.txos := by
  rcases hd : s.wallet.descriptors[i.toNat]? with _ | d
  · rw [addAddress_of_none ms dev w t n hd]
  · rcases addAddress_of_some ms dev w t n hd with h | ⟨_, _, _, _, h⟩ <;> exact h.txos

omit [DecidableEq Desc] in
/-- `add_address` leaves the labels alone, or inserts one at the script the key cache computes for
    the slot it allocated. -/
theorem addAddress_addresses (i : UInt32) (w : Option UInt32) (t n : RString)
    (s : Session Desc PublicKey) :
    (addAddress ms dev i w t n s).2.wallet.addresses = s.wallet.addresses ∨
    ∃ d spk, s.wallet.descriptors[i.toNat]? = some d ∧
      cachedScript ms (addAddress ms dev i w t n s).2.wallet.keyCache d.desc (w.getD d.nextIdx) =
        some spk ∧
      (addAddress ms dev i w t n s).2.wallet.addresses =
        s.wallet.addresses.insert spk (Address.new i (w.getD d.nextIdx) t n) := by
  rcases hd : s.wallet.descriptors[i.toNat]? with _ | d
  · rw [addAddress_of_none ms dev w t n hd]; exact .inl rfl
  · rcases addAddress_of_some ms dev w t n hd with h | ⟨spk, _, hs, _, h⟩
    · exact .inl h.addresses
    · exact .inr ⟨d, spk, rfl, cachedScript_mono ms h.2 hs, h.addresses⟩

omit [DecidableEq Desc] in
theorem spkCacheRange_extends (didx : Nat) (desc : Desc) : ∀ (ws : List UInt32)
    (map : HashMap Script (UInt32 × UInt32)) (ks : Keys PublicKey),
    CacheExtends ks.cache (spkCacheRange ms dev didx desc ws map ks).2.cache
  | [], _, ks => CacheExtends.refl _
  | widx :: ws, map, ks => by
    have h1 := cacheKey_extends ms dev desc widx ks
    unfold spkCacheRange
    split <;> (rename_i he; rw [he] at h1)
    · exact h1
    · exact h1.trans (spkCacheRange_extends didx desc ws _ _)

omit [DecidableEq Desc] in
theorem spkCacheDescs_extends : ∀ (didx : Nat) (ds : List (Descriptor Desc))
    (map : HashMap Script (UInt32 × UInt32)) (ks : Keys PublicKey),
    CacheExtends ks.cache (spkCacheDescs ms dev didx ds map ks).2.cache
  | _, [], _, ks => CacheExtends.refl _
  | didx, d :: ds, map, ks => by
    have h1 := spkCacheRange_extends ms dev didx d.desc (u32Range d.low d.high) map ks
    unfold spkCacheDescs
    split <;> (rename_i he; rw [he] at h1)
    · exact h1
    · exact h1.trans (spkCacheDescs_extends _ ds _ _)

omit [DecidableEq Desc] in
theorem scriptPubkeyCache_keysOnly (s : Session Desc PublicKey) :
    KeysOnly s (scriptPubkeyCache ms dev s).2 := by
  have := spkCacheDescs_extends ms dev 0 s.wallet.descriptors .empty s.keys
  unfold scriptPubkeyCache
  split <;> (rename_i he; rw [he] at this; exact keysOnly_setKeys s this)

end Ops

end Icebox
