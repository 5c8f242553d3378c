import Icebox.Wallet.Run

/-!
# The key cache covers every registered range

`add_descriptor` derives only the indices that no registered descriptor with the same template
covers; the others were cached when that descriptor was registered. So in every state a run
reaches, every registered descriptor derives at every index of its range, without the panic of a
wildcard index from `2^31` on, and every key it needs there is cached (`Covered`):
`script_pubkey_cache` answers from the cache alone.

* `Covered.of_cores` -- coverage survives any write that keeps each registered triple and every
  cached key; `addDescriptor_covered` -- and a registration;
* **`addDescriptor_wildcard_high`** -- a wildcard descriptor is never registered over an index from
  `2^31` on that no registration of its template covers: the call fails, the list unchanged;
* **`keyCache_covers`** -- the invariant on every reachable state, and its consequence.
-/

namespace Icebox

section Coverage

variable {Desc PublicKey : Type} [DecidableEq Desc] (ms : Miniscript Desc PublicKey)
  (dev : Device PublicKey)

/-- Every registered descriptor derives at every index of its range, and every key it needs there
    is cached. -/
def Covered (w : Wallet Desc PublicKey) : Prop :=
  ∀ d ∈ w.descriptors, ∀ i, d.low ≤ i → i < d.high →
    ms.Derives d.desc i ∧ ∀ p ∈ ms.derivedPaths d.desc i, p ∈ w.keyCache.keys

omit [DecidableEq Desc] in
theorem Covered.of_cores {w w' : Wallet Desc PublicKey} (hw : Covered ms w)
    (hd : ∀ d' ∈ w'.descriptors, ∃ d ∈ w.descriptors, d.core = d'.core)
    (hk : CacheExtends w.keyCache w'.keyCache) : Covered ms w' := by
  intro d' hd' i hl hh
  obtain ⟨d, hd, hc⟩ := hd d' hd'
  simp only [Descriptor.core, Prod.mk.injEq] at hc
  obtain ⟨h1, h2, h3⟩ := hc
  obtain ⟨hder, hkeys⟩ := hw d hd i (h2 ▸ hl) (h3 ▸ hh)
  exact ⟨h1 ▸ hder, fun p hp => hk.mem_keys (hkeys p (h1 ▸ hp))⟩

omit [DecidableEq Desc] in
theorem Covered.of_keysOnly {s s' : Session Desc PublicKey} (h : KeysOnly s s')
    (hw : Covered ms s.wallet) : Covered ms s'.wallet :=
  hw.of_cores ms (fun d' hd' => ⟨d', h.descriptors ▸ hd', rfl⟩) h.2

/-- A registration keeps coverage: the indices it derives are cached by then, and the others are
    covered by a registered descriptor of the same template. -/
theorem addDescriptor_covered (desc : Desc) (low high : UInt32) {s : Session Desc PublicKey}
    (hw : Covered ms s.wallet) : Covered ms (addDescriptor ms dev desc low high s).2.wallet := by
  rcases addDescriptor_cases ms dev desc low high s with h | ⟨-, ks, hx, hu, h⟩
  · exact hw.of_keysOnly ms h
  · rw [h]
    have hext : ∀ d ∈ s.wallet.descriptors, ∀ i, d.low ≤ i → i < d.high →
        ms.Derives d.desc i ∧ ∀ p ∈ ms.derivedPaths d.desc i, p ∈ ks.cache.keys := fun d hd i hl hh =>
      ⟨(hw d hd i hl hh).1, fun p hp => hx.mem_keys ((hw d hd i hl hh).2 p hp)⟩
    intro d' hd' i hl hh
    rcases List.mem_append.mp hd' with hd' | hd'
    · exact hext d' hd' i hl hh
    · obtain rfl := List.mem_singleton.mp hd'
      by_cases hi : i ∈ uncovered s.wallet.descriptors desc low high
      · obtain ⟨spk, hs⟩ := hu i hi
        exact (cachedScript_isSome_iff ms).mp (by rw [hs]; rfl)
      · obtain ⟨d, hd, rfl, hl', hh'⟩ : ∃ d ∈ s.wallet.descriptors, d.desc = desc ∧ d.low ≤ i ∧
            i < d.high := by
          by_contra hn; exact hi (mem_uncovered.mpr ⟨hl, hh, hn⟩)
        exact hext d hd i hl' hh'

/-- **A wildcard descriptor is never registered over an index it cannot derive.** When an index of
    `[low, high)` that no registered descriptor of the same template covers is `2^31` or more,
    `add_descriptor` of a wildcard descriptor fails, at the latest with the panic of `derive` at
    that index, and the descriptor list stays as it was. -/
theorem addDescriptor_wildcard_high {desc : Desc} {low high i : UInt32} {s : Session Desc PublicKey}
    (hw : ms.hasWildcard desc = true) (hi : i ∈ uncovered s.wallet.descriptors desc low high)
    (hbig : 2 ^ 31 ≤ i.toNat) :
    (∀ k, (addDescriptor ms dev desc low high s).1 ≠ .ok k) ∧
      (addDescriptor ms dev desc low high s).2.wallet.descriptors = s.wallet.descriptors := by
  by_cases hd : ∃ d ∈ s.wallet.descriptors, d.desc = desc ∧ d.low = low ∧ d.high = high
  · rw [addDescriptor_of_dup ms dev hd]
    exact ⟨fun k h => (by cases h), rfl⟩
  · rw [addDescriptor_of_not_dup ms dev hd]
    rcases hc : cacheKeys ms dev desc (uncovered s.wallet.descriptors desc low high) s.keys
      with ⟨_ | ⟨⟩, ks⟩
    · exact ⟨fun k h => (by cases h), rfl⟩
    · obtain ⟨spk, hs⟩ := cacheKeys_ok ms dev desc hc i hi
      exact absurd (((cachedScript_eq_some ms).mp hs).1 hw) (Nat.not_lt_of_le hbig)

theorem exec_covered (W : World Desc PublicKey) (c : Call Desc) (hw : Covered ms W.session.wallet) :
    Covered ms (W.exec ms dev c).session.wallet := by
  cases c with
  | addDescriptor desc low high => exact addDescriptor_covered ms dev desc low high hw
  | addAddress i w t n =>
    refine hw.of_cores ms (fun d' hd' => ?_) (addAddress_extends ms dev i w t n _)
    simp only [World.exec, addAddress_descriptors] at hd'
    split at hd'
    · exact ⟨d', hd', rfl⟩
    · rename_i d hd
      rcases List.mem_or_eq_of_mem_set hd' with hd' | rfl
      · exact ⟨d', hd', rfl⟩
      · exact ⟨d, List.getElem?_mem hd, rfl⟩
  | scriptPubkeyCache =>
    rw [exec_scriptPubkeyCache_session]; exact hw.of_keysOnly ms (scriptPubkeyCache_keysOnly ms dev _)
  | scanBlock b h cache =>
    simpa only [World.exec, scanBlock_wallet] using hw

/-- **Key-cache coverage.** In every state a run from `Wallet::new()` reaches, with calls
    succeeding or failing, every key of every registered descriptor at every index of its range has
    its derivation path in the key cache. Hence `script_pubkey_cache` succeeds there and leaves the
    session as it is: it sends the dongle no request. -/
theorem keyCache_covers {adm : World Desc PublicKey → Call Desc → Prop} {r : List DerivationPath}
    {W : World Desc PublicKey} (h : Run ms dev adm (World.init r) W) :
    (∀ d ∈ W.session.wallet.descriptors, ∀ i, d.low ≤ i → i < d.high →
      ∀ p ∈ ms.derivedPaths d.desc i, p ∈ W.session.wallet.keyCache.keys) ∧
    ∃ c, scriptPubkeyCache ms dev W.session = (.ok c, W.session) := by
  have hc : Covered ms W.session.wallet :=
    Run.invariant ms dev (fun W => Covered ms W.session.wallet)
      (fun W c hW _ => exec_covered ms dev W c hW) h fun d hd => absurd hd (List.not_mem_nil d)
  exact ⟨fun d hd i hl hh => (hc d hd i hl hh).2, scriptPubkeyCache_of_cached ms dev
    fun d hd i hl hh => (cachedScript_isSome_iff ms).mpr (hc d hd i hl hh)⟩

theorem keyCache_covers_sample :
    Run refMiniscript refDevice (fun _ _ => True) (World.init [])
      ((World.init []).execAll refMiniscript refDevice sampleRun) ∧
    (∀ d ∈ ((World.init []).execAll refMiniscript refDevice sampleRun).session.wallet.descriptors,
      ∀ i, d.low ≤ i → i < d.high → ∀ p ∈ refMiniscript.derivedPaths d.desc i,
        p ∈ ((World.init []).execAll refMiniscript refDevice sampleRun).session.wallet.keyCache.keys) ∧
    ∃ c, scriptPubkeyCache refMiniscript refDevice
        ((World.init []).execAll refMiniscript refDevice sampleRun).session =
      (.ok c, ((World.init []).execAll refMiniscript refDevice sampleRun).session) :=
  ⟨run_execAll _ _ _ _, keyCache_covers refMiniscript refDevice (run_execAll _ _ _ _)⟩

theorem addDescriptor_wildcard_high_sample :
    refMiniscript.hasWildcard 0 = true ∧
    (0x80000000 : UInt32) ∈ uncovered (World.init [] : World Nat DerivationPath).session.wallet.descriptors
      0 0x80000000 0x80000001 ∧ 2 ^ 31 ≤ (0x80000000 : UInt32).toNat ∧
    (∀ k, (addDescriptor refMiniscript refDevice 0 0x80000000 0x80000001
        (World.init [] : World Nat DerivationPath).session).1 ≠ .ok k) ∧
      (addDescriptor refMiniscript refDevice 0 0x80000000 0x80000001
        (World.init [] : World Nat DerivationPath).session).2.wallet.descriptors =
        (World.init [] : World Nat DerivationPath).session.wallet.descriptors :=
  ⟨rfl, by decide, by decide,
    @addDescriptor_wildcard_high _ _ _ refMiniscript refDevice 0 0x80000000 0x80000001 0x80000000
      (World.init []).session rfl (by decide) (by decide)⟩

end Coverage

end Icebox
