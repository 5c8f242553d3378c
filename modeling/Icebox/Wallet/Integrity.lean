import Icebox.Wallet.Run

/-!
# Tracked outputs name the slot that was paid

`scan_block` records an output under the `(descriptor position, wildcard index)` its index maps
the output's script to, at the outpoint `(txid, vout as u32)`. When each index was built by
`script_pubkey_cache` earlier in the run, every tracked output names a registered descriptor, an
index of its range, and the script the key cache computes there, which is the script of the output
it was built from; the dongle is never asked again, whatever it would answer.

Two `as u32` conversions bound this. A transaction with more than `2^32` outputs scans two outputs
at one outpoint (`scansBuilt_outpoint_wraps`), and an index built over more than `2^32`
descriptors stores wrapped positions. `scansBuiltAgreeing` admits the runs in which every scanned
outpoint names one output and every index is built over at most `2^32` descriptors:

* `Integrity` -- the built indices and the tracked outputs point at `Slot`s; every admitted call
  keeps it (`exec_integrity`);
* **`txos_integrity`** -- in every such run every tracked output names its outpoint, a registered
  descriptor and an index of its range whose script is that of the last output scanned at the
  outpoint, and `Wallet::txo` reports it without indexing out of bounds (`txo_of_integrity`);
* `allTxos_of_run` -- so `Wallet::all_txos`, which unwraps `txo` at every tracked outpoint, does
  not panic when every descriptor has an address form.
-/

namespace Icebox

section Integrity

variable {Desc PublicKey : Type} [DecidableEq Desc] (ms : Miniscript Desc PublicKey)
  (dev : Device PublicKey)

omit [DecidableEq Desc] in
/-- Every call; `scan_block` only with an index `script_pubkey_cache` built earlier in the run. -/
def scansBuilt (W : World Desc PublicKey) : Call Desc → Prop
  | .scanBlock _ _ c => c ∈ W.caches
  | _ => True

/-! ## 1. Outpoints wrap -/

/-- A transaction with `2^32 + 1` outputs: the first pays the reference script of descriptor `0`
    at index `0`, the others a script no descriptor has. -/
def wrapTxid : Txid := ⟨List.replicate 32 0, rfl⟩

def wrapPaid : TxOut := ⟨0, ⟨[0, 0]⟩⟩

def wrapJunk : TxOut := ⟨0, ⟨[]⟩⟩

def wrapTx : Transaction :=
  ⟨wrapTxid, [], wrapPaid :: (List.replicate (2 ^ 32 - 1) wrapJunk ++ [wrapJunk])⟩

/-- The index `script_pubkey_cache` builds over descriptor `0` with range `[0, 1)`. -/
def wrapCache : ScriptPubkeyCache := ⟨HashMap.empty.insert ⟨[0, 0]⟩ (0, 0)⟩

/-- The first and the last output of `wrapTx` are scanned at one outpoint. -/
theorem wrapTx_events :
    (⟨[wrapTx]⟩ : Block).events 0 = .output ⟨wrapTxid, 0⟩ wrapPaid 0 ::
      (outputEvents wrapTxid 0 1 (List.replicate (2 ^ 32 - 1) wrapJunk) ++
        [.output ⟨wrapTxid, 0⟩ wrapJunk 0]) := by
  have h : UInt32.ofNat (1 + (List.replicate (2 ^ 32 - 1) wrapJunk).length) = 0 := by
    rw [List.length_replicate]; rfl
  unfold Block.events
  rw [List.flatMap_cons, List.flatMap_nil, List.append_nil]
  unfold Transaction.events
  show outputEvents wrapTxid 0 0 (wrapPaid :: (List.replicate (2 ^ 32 - 1) wrapJunk ++ [wrapJunk])) ++
    inputEvents wrapTxid 0 [] = _
  rw [outputEvents, Nat.zero_add, outputEvents_append_singleton, h, inputEvents, List.map_nil,
    List.append_nil]
  rfl

/-- Scanning `wrapTx` with an index built earlier tracks its first output, whose script descriptor
    `0` instantiates at index `0`, while the last output scanned at that outpoint pays elsewhere. -/
theorem scansBuilt_outpoint_wraps :
    ∃ W : World Nat DerivationPath, Run refMiniscript refDevice scansBuilt (World.init []) W ∧
      ∃ o t d out, W.session.wallet.txos.get? o = some t ∧
        W.session.wallet.descriptors[t.descriptorIdx.toNat]? = some d ∧
        lastScanned o W.scanned = some out ∧
        (cacheKey refMiniscript refDevice d.desc t.wildcardIdx W.session.keys).1 ≠
          .ok out.scriptPubkey := by
  let W₂ := ((World.init []).exec refMiniscript refDevice (.addDescriptor 0 0 1)).exec
    refMiniscript refDevice .scriptPubkeyCache
  have hc : W₂.caches = [wrapCache] := rfl
  have hp : wrapCache.spks.get? wrapPaid.scriptPubkey = some (0, 0) := rfl
  have hj : wrapCache.spks.contains wrapJunk.scriptPubkey = false := rfl
  have hpost : ∀ ev ∈ outputEvents wrapTxid 0 1 (List.replicate (2 ^ 32 - 1) wrapJunk) ++
      [.output ⟨wrapTxid, 0⟩ wrapJunk 0], matchesAt wrapCache ⟨wrapTxid, 0⟩ ev = false := by
    intro ev hev
    rcases List.mem_append.mp hev with hev | hev
    · obtain ⟨o, out, hout, rfl⟩ := mem_outputEvents hev
      simp [matchesAt, List.eq_of_mem_replicate hout, hj]
    · simp [List.mem_singleton.mp hev, matchesAt, hj]
  refine ⟨W₂.exec refMiniscript refDevice (.scanBlock ⟨[wrapTx]⟩ 0 wrapCache),
    .step _ (.step .scriptPubkeyCache (.step (.addDescriptor 0 0 1) .refl trivial) trivial)
      (show wrapCache ∈ W₂.caches by rw [hc]; exact List.mem_singleton_self _),
    ⟨wrapTxid, 0⟩, markSpent (outputEvents wrapTxid 0 1 (List.replicate (2 ^ 32 - 1) wrapJunk) ++
      [.output ⟨wrapTxid, 0⟩ wrapJunk 0]) ⟨wrapTxid, 0⟩ (Txo.new 0 0 ⟨wrapTxid, 0⟩ 0 0),
    ⟨0, 0, 1, 0⟩, wrapJunk, ?_, ?_, ?_, ?_⟩
  · show (scanBlock _ _ _ W₂.session.wallet).2.txos.get? _ = _
    rw [scanBlock_wallet, get?_foldl_applyEvent, wrapTx_events,
      ← List.nil_append (ScanEvent.output _ _ _ :: _),
      foldl_track_of_last_match wrapCache hp [] _ hpost]
    rfl
  · simp only [markSpent_descriptorIdx]
    rfl
  · show lastScanned _ (W₂.scanned ++ outputsOf ((⟨[wrapTx]⟩ : Block).events 0)) = _
    rw [show W₂.scanned = [] from rfl, List.nil_append, wrapTx_events, outputsOf_cons_output,
      outputsOf_append, outputsOf_cons_output, outputsOf_nil, ← List.cons_append]
    exact lastScanned_append_singleton _ _ _
  · rw [exec_scanBlock_keys, markSpent_wildcardIdx,
      show (cacheKey refMiniscript refDevice (⟨0, 0, 1, 0⟩ : Descriptor Nat).desc
        (Txo.new 0 0 ⟨wrapTxid, 0⟩ 0 0).wildcardIdx W₂.session.keys).1 = .ok ⟨[0, 0]⟩ from rfl]
    intro h
    cases h

/-! ## 2. The invariant -/

/-- Outputs scanned at one outpoint are one output. -/
def OutputsAgree (l : List (OutPoint × TxOut)) : Prop :=
  ∀ p ∈ l, ∀ q ∈ l, p.1 = q.1 → p.2 = q.2

omit [DecidableEq Desc] in
/-- `scansBuilt`, where besides every scanned outpoint names one output, and an index is built
    over at most `2^32` descriptors. -/
def scansBuiltAgreeing (W : World Desc PublicKey) : Call Desc → Prop
  | .scanBlock b h c => c ∈ W.caches ∧ OutputsAgree (W.scanned ++ outputsOf (b.events h))
  | .scriptPubkeyCache => W.session.wallet.descriptors.length ≤ 2 ^ 32
  | _ => True

/-- Every entry of a built index, and every tracked output, points at a `Slot`; a tracked output's
    script is that of an output scanned at its outpoint. -/
structure Integrity (W : World Desc PublicKey) : Prop where
  caches : ∀ c ∈ W.caches, ∀ spk p, c.spks.get? spk = some p →
    Slot ms W.session.wallet p.1.toNat p.2 spk
  txos : ∀ o t, W.session.wallet.txos.get? o = some t → t.outpoint = o ∧
    ∃ out, (o, out) ∈ W.scanned ∧
      Slot ms W.session.wallet t.descriptorIdx.toNat t.wildcardIdx out.scriptPubkey
  agree : OutputsAgree W.scanned

omit [DecidableEq Desc] in
theorem integrity_init (r : List DerivationPath) : Integrity ms (World.init r : World Desc PublicKey) :=
  ⟨fun _ h => absurd h (List.not_mem_nil _), fun _ _ h => (by cases h),
    fun _ h => absurd h (List.not_mem_nil _)⟩

omit [DecidableEq Desc] in
/-- A write that keeps the slots, the tracked outputs, the indices and the scanned outputs keeps
    the invariant. -/
theorem Integrity.keep {W W' : World Desc PublicKey} (hI : Integrity ms W)
    (hk : Keeps W.session.wallet W'.session.wallet)
    (ht : W'.session.wallet.txos = W.session.wallet.txos) (hc : W'.caches = W.caches)
    (hs : W'.scanned = W.scanned) : Integrity ms W' where
  caches c h spk p hp := (hI.caches c (hc ▸ h) spk p hp).keep ms hk
  txos o t h := by
    obtain ⟨h1, out, h2, h3⟩ := hI.txos o t (ht ▸ h)
    exact ⟨h1, out, hs ▸ h2, h3.keep ms hk⟩
  agree := hs ▸ hI.agree

theorem exec_integrity (W : World Desc PublicKey) (c : Call Desc) (ha : scansBuiltAgreeing W c)
    (hI : Integrity ms W) : Integrity ms (W.exec ms dev c) := by
  have hk := exec_keeps ms dev W c
  cases c with
  | addDescriptor => exact hI.keep ms hk (addDescriptor_txos ms dev _ _ _ _) rfl rfl
  | addAddress => exact hI.keep ms hk (addAddress_txos ms dev _ _ _ _ _) rfl rfl
  | scriptPubkeyCache =>
    have hko := scriptPubkeyCache_keysOnly ms dev W.session
    refine ⟨fun c hc spk p hp => ?_, fun o t ht => ?_, ?_⟩
    · rcases mem_exec_caches ms dev hc with hc | ⟨-, hb⟩
      · exact (hI.caches c hc spk p hp).keep ms hk
      · obtain ⟨d, hd, hl, hh, hs⟩ := scriptPubkeyCache_entry ms dev ha hb hp
        exact ⟨d, by rwa [exec_scriptPubkeyCache_session, hko.descriptors], hl, hh, hs⟩
    · rw [exec_scriptPubkeyCache_session, hko.txos] at ht
      obtain ⟨h1, out, h2, h3⟩ := hI.txos o t ht
      exact ⟨h1, out, by rwa [exec_scriptPubkeyCache_scanned], h3.keep ms hk⟩
    · rw [exec_scriptPubkeyCache_scanned]; exact hI.agree
  | scanBlock b h c =>
    obtain ⟨hc, hag⟩ := ha
    refine ⟨hI.caches, fun o t ht => ?_, hag⟩
    simp only [World.exec, scanBlock_wallet, get?_foldl_applyEvent] at ht
    refine foldl_track_induct c o (fun t => t.outpoint = o ∧ ∃ out,
        (o, out) ∈ W.scanned ++ outputsOf (b.events h) ∧
        Slot ms W.session.wallet t.descriptorIdx.toNat t.wildcardIdx out.scriptPubkey)
      (b.events h) ?_ ?_ _ ?_ t ht
    · intro out h' didx widx hm hg
      exact ⟨rfl, out, List.mem_append_right _ (mem_outputsOf hm), hI.caches c hc _ _ hg⟩
    · exact fun t sp h' ht => ht
    · intro t ht
      obtain ⟨h1, out, h2, h3⟩ := hI.txos o t ht
      exact ⟨h1, out, List.mem_append_left _ h2, h3⟩

theorem integrity_of_run {r : List DerivationPath} {W : World Desc PublicKey}
    (h : Run ms dev scansBuiltAgreeing (World.init r) W) : Integrity ms W :=
  Run.invariant ms dev (Integrity ms) (fun W c hI ha => exec_integrity ms dev W c ha hI) h
    (integrity_init ms r)

omit [DecidableEq Desc] in
/-- What the invariant gives of one tracked output, and what `Wallet::txo` returns for it. -/
theorem txo_of_integrity {W : World Desc PublicKey} (hI : Integrity ms W) (o : OutPoint)
    (t : Txo) (ht : W.session.wallet.txos.get? o = some t) :
      t.outpoint = o ∧ t.descriptorIdx.toNat < W.session.wallet.descriptors.length ∧
      ∃ d out, W.session.wallet.descriptors[t.descriptorIdx.toNat]? = some d ∧
        d.low ≤ t.wildcardIdx ∧ t.wildcardIdx < d.high ∧
        lastScanned o W.scanned = some out ∧
        cacheKey ms dev d.desc t.wildcardIdx W.session.keys =
          (.ok out.scriptPubkey, W.session.keys) ∧
        txo ms dev o W.session =
          (if ms.hasAddress d.desc then
            .ok ⟨t, d, ⟨out.scriptPubkey⟩, W.session.wallet.addresses.get? out.scriptPubkey⟩
          else .error .panic, W.session) := by
  obtain ⟨h1, out, hm, d, hd, hl, hh, hs⟩ := hI.txos o t ht
  obtain ⟨out', hlast, hm'⟩ := lastScanned_of_mem hm
  obtain rfl : out' = out := hI.agree _ hm' _ hm rfl
  have hc : cacheKey ms dev d.desc t.wildcardIdx W.session.keys =
      (.ok out'.scriptPubkey, W.session.keys) := cacheKey_of_cached ms dev hs
  refine ⟨h1, (List.getElem?_eq_some_iff.mp hd).1, d, out', hd, hl, hh, hlast, hc, ?_⟩
  simp only [txo, ht, hd, hc, Session.setKeys_keys]
  split <;> rfl

/-- **Txo reference integrity.** In every run from `Wallet::new()` whose scans use indices built
    earlier in the run, in which every scanned outpoint names one output and every index is built
    over at most `2^32` descriptors, every tracked `(o, t)` has (1) `t.outpoint = o`, (2) a
    registered descriptor at `t.descriptor_idx`, (3) `low ≤ t.wildcard_idx < high` of it, and
    (4) `cache_key` of its template at `t.wildcard_idx` answers from the key cache, sending
    nothing, the script of the last output scanned at `o`. So `Wallet::txo` indexes no descriptor
    out of bounds and reports that script's address (it fails only on a descriptor with no
    address form). -/
theorem txos_integrity {r : List DerivationPath} {W : World Desc PublicKey}
    (h : Run ms dev scansBuiltAgreeing (World.init r) W) :
    ∀ o t, W.session.wallet.txos.get? o = some t →
      t.outpoint = o ∧ t.descriptorIdx.toNat < W.session.wallet.descriptors.length ∧
      ∃ d out, W.session.wallet.descriptors[t.descriptorIdx.toNat]? = some d ∧
        d.low ≤ t.wildcardIdx ∧ t.wildcardIdx < d.high ∧
        lastScanned o W.scanned = some out ∧
        cacheKey ms dev d.desc t.wildcardIdx W.session.keys =
          (.ok out.scriptPubkey, W.session.keys) ∧
        txo ms dev o W.session =
          (if ms.hasAddress d.desc then
            .ok ⟨t, d, ⟨out.scriptPubkey⟩, W.session.wallet.addresses.get? out.scriptPubkey⟩
          else .error .panic, W.session) :=
  txo_of_integrity ms dev (integrity_of_run ms dev h)

omit [DecidableEq Desc] in
/-- `txosOf` over outpoints at each of which `txo` succeeds without touching the session reports
    them in order and touches nothing. -/
theorem txosOf_of_ok {s : Session Desc PublicKey} {P : OutPoint → TxoInfo Desc → Prop} :
    ∀ {os : List OutPoint}, (∀ o ∈ os, ∃ info, txo ms dev o s = (.ok info, s) ∧ P o info) →
    ∃ infos, txosOf ms dev os s = (.ok infos, s) ∧ List.Forall₂ P os infos
  | [], _ => ⟨[], rfl, .nil⟩
  | o :: os, h => by
    obtain ⟨info, hi, hp⟩ := h o (List.mem_cons_self o os)
    obtain ⟨infos, his, hps⟩ := txosOf_of_ok fun o' ho' => h o' (List.mem_cons_of_mem o ho')
    exact ⟨info :: infos, by simp only [txosOf, hi, his], .cons hp hps⟩

/-- **`Wallet::all_txos` does not panic** in the runs of `txos_integrity` when every registered
    descriptor has an address form: it reports every tracked output, in the order of the map, with
    the descriptor it names, asks the dongle nothing and leaves the wallet as it was. -/
theorem allTxos_of_run {r : List DerivationPath} {W : World Desc PublicKey}
    (h : Run ms dev scansBuiltAgreeing (World.init r) W)
    (ha : ∀ d ∈ W.session.wallet.descriptors, ms.hasAddress d.desc = true) :
    ∃ infos, allTxos ms dev W.session = (.ok infos, W.session) ∧
      List.Forall₂ (fun o info => W.session.wallet.txos.get? o = some info.txo ∧
          W.session.wallet.descriptors[info.txo.descriptorIdx.toNat]? = some info.descriptor)
        W.session.wallet.txos.keys infos := by
  refine txosOf_of_ok ms dev fun o ho => ?_
  obtain ⟨t, ht⟩ := Option.isSome_iff_exists.mp (HashMap.mem_keys.mp ho)
  obtain ⟨-, -, d, out, hd, -, -, -, -, htxo⟩ :=
    txo_of_integrity ms dev (integrity_of_run ms dev h) o t ht
  rw [if_pos (ha d (List.getElem?_mem hd))] at htxo
  exact ⟨_, htxo, ht, hd⟩

/-- A registration over `[0, 1)`, its index, and a block paying its one script once. -/
def scanSample : World Nat DerivationPath :=
  (((World.init []).exec refMiniscript refDevice (.addDescriptor 0 0 1)).exec refMiniscript
    refDevice .scriptPubkeyCache).exec refMiniscript refDevice
    (.scanBlock ⟨[⟨wrapTxid, [], [wrapPaid]⟩]⟩ 0 wrapCache)

theorem run_scanSample :
    Run refMiniscript refDevice scansBuiltAgreeing (World.init []) scanSample :=
  .step _ (.step .scriptPubkeyCache (.step (.addDescriptor 0 0 1) .refl trivial)
    (show List.length _ ≤ 2 ^ 32 by decide))
    ⟨List.mem_singleton_self _, by unfold OutputsAgree; decide⟩

theorem txos_integrity_sample :
    Run refMiniscript refDevice scansBuiltAgreeing (World.init []) scanSample ∧
    ∀ o t, scanSample.session.wallet.txos.get? o = some t →
      t.outpoint = o ∧ t.descriptorIdx.toNat < scanSample.session.wallet.descriptors.length ∧
      ∃ d out, scanSample.session.wallet.descriptors[t.descriptorIdx.toNat]? = some d ∧
        d.low ≤ t.wildcardIdx ∧ t.wildcardIdx < d.high ∧
        lastScanned o scanSample.scanned = some out ∧
        cacheKey refMiniscript refDevice d.desc t.wildcardIdx scanSample.session.keys =
          (.ok out.scriptPubkey, scanSample.session.keys) ∧
        txo refMiniscript refDevice o scanSample.session =
          (if refMiniscript.hasAddress d.desc then
            .ok ⟨t, d, ⟨out.scriptPubkey⟩,
              scanSample.session.wallet.addresses.get? out.scriptPubkey⟩
          else .error .panic, scanSample.session) :=
  ⟨run_scanSample, txos_integrity refMiniscript refDevice run_scanSample⟩

theorem allTxos_of_run_sample :
    Run refMiniscript refDevice scansBuiltAgreeing (World.init []) scanSample ∧
    (∀ d ∈ scanSample.session.wallet.descriptors, refMiniscript.hasAddress d.desc = true) ∧
    ∃ infos, allTxos refMiniscript refDevice scanSample.session = (.ok infos, scanSample.session) ∧
      List.Forall₂ (fun o info => scanSample.session.wallet.txos.get? o = some info.txo ∧
          scanSample.session.wallet.descriptors[info.txo.descriptorIdx.toNat]? = some info.descriptor)
        scanSample.session.wallet.txos.keys infos :=
  ⟨run_scanSample, fun _ _ => rfl,
    allTxos_of_run refMiniscript refDevice run_scanSample fun _ _ => rfl⟩

end Integrity

end Icebox
