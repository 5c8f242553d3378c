import Icebox.Wallet.Run

/-!
# Labels and the scanned range

`add_address` stores a label at the script of one slot of a descriptor: an explicit wildcard
index, or the descriptor's `next_idx`. `add_descriptor` starts `next_idx` at `0` whatever `low` is,
and `add_address` advances it without comparing it to `high`; so a label lies in the range
`[low, high)` that `script_pubkey_cache` indexes only when the index it was given does.

* `explicitInRange` -- runs whose explicit indices lie in range; `explicitInRange_allocates_outside`:
  in such a run a label can still fall outside, at the allocated index `0` of a descriptor over
  `[5, 10)`;
* `allocInRange` -- runs whose every index, explicit or allocated, lies in range;
* `Labelled` -- every label sits at a `Slot` whose script it is keyed by; every call keeps it
  (`exec_labelled`), so every run of `allocInRange` does (`Labelled.of_run`);
* **`addresses_in_range`** -- in a run of `allocInRange`, every label lies in range, its script is
  a key of every index built later, and `scan_block` records payments to it.
-/

namespace Icebox

section Labels

variable {Desc PublicKey : Type} [DecidableEq Desc] (ms : Miniscript Desc PublicKey)
  (dev : Device PublicKey)

omit [DecidableEq Desc] in
/-- Every call; an explicit wildcard index only inside its descriptor's range. -/
def explicitInRange (W : World Desc PublicKey) : Call Desc → Prop
  | .addAddress i (some w) _ _ =>
    ∀ d, W.session.wallet.descriptors[i.toNat]? = some d → d.low ≤ w ∧ w < d.high
  | _ => True

/-- With explicit indices in range, an allocated index still falls outside `[low, high)`. -/
theorem explicitInRange_allocates_outside :
    ∃ W : World Nat DerivationPath,
      Run refMiniscript refDevice explicitInRange (World.init []) W ∧
      ∃ spk a d, W.session.wallet.addresses.get? spk = some a ∧
        W.session.wallet.descriptors[a.descriptorIdx.toNat]? = some d ∧
        ¬ (d.low ≤ a.wildcardIdx ∧ a.wildcardIdx < d.high) :=
  ⟨((World.init []).exec refMiniscript refDevice (.addDescriptor 0 5 10)).exec refMiniscript
      refDevice (.addAddress 0 none .empty .empty),
    .step _ (.step (.addDescriptor 0 5 10) .refl trivial) trivial,
    ⟨[0, 0]⟩, Address.new 0 0 .empty .empty, ⟨0, 5, 10, 1⟩, rfl, rfl, by decide⟩

omit [DecidableEq Desc] in
/-- Every call; `add_address` only when the index it uses, explicit or allocated, lies inside its
    descriptor's range. -/
def allocInRange (W : World Desc PublicKey) : Call Desc → Prop
  | .addAddress i w _ _ =>
    ∀ d, W.session.wallet.descriptors[i.toNat]? = some d →
      d.low ≤ w.getD d.nextIdx ∧ w.getD d.nextIdx < d.high
  | _ => True

omit [DecidableEq Desc] in
/-- Every label sits at a slot of the range whose script it is keyed by. -/
def Labelled (w : Wallet Desc PublicKey) : Prop :=
  ∀ spk a, w.addresses.get? spk = some a → Slot ms w a.descriptorIdx.toNat a.wildcardIdx spk

omit [DecidableEq Desc] in
theorem Labelled.keep {w w' : Wallet Desc PublicKey} (hk : Keeps w w')
    (ha : w'.addresses = w.addresses) (hw : Labelled ms w) : Labelled ms w' :=
  fun spk a h => (hw spk a (ha ▸ h)).keep ms hk

theorem exec_labelled (W : World Desc PublicKey) (c : Call Desc) (ha : allocInRange W c)
    (hw : Labelled ms W.session.wallet) : Labelled ms (W.exec ms dev c).session.wallet := by
  have hk := exec_keeps ms dev W c
  cases c with
  | addDescriptor desc low high => exact hw.keep ms hk (addDescriptor_addresses ms dev _ _ _ _)
  | addAddress i w t n =>
    rcases addAddress_addresses ms dev i w t n W.session with he | ⟨d, spk, hd, hs, he⟩
    · exact hw.keep ms hk he
    · intro spk' a h
      simp only [World.exec, he, HashMap.get?_insert] at h
      split at h
      · rename_i hspk
        obtain rfl := Option.some.inj h
        subst hspk
        refine ⟨{ d with nextIdx := cmpMax d.nextIdx (w.getD d.nextIdx) + 1 }, ?_, (ha d hd).1,
          (ha d hd).2, hs⟩
        simp only [World.exec, addAddress_descriptors, hd, Address.new,
          List.getElem?_set_self (List.getElem?_eq_some_iff.mp hd).1]
      · exact (hw spk' a h).keep ms hk
  | scriptPubkeyCache =>
    refine hw.keep ms hk ?_
    rw [exec_scriptPubkeyCache_session]
    exact (scriptPubkeyCache_keysOnly ms dev _).addresses
  | scanBlock b h cache => exact hw.keep ms hk (by simp [World.exec, scanBlock_wallet])

/-- A label's script stays labelled. -/
theorem exec_addresses_contains (W : World Desc PublicKey) (c : Call Desc) {spk : Script}
    (h : W.session.wallet.addresses.contains spk) :
    (W.exec ms dev c).session.wallet.addresses.contains spk := by
  cases c with
  | addDescriptor => simpa [World.exec, addDescriptor_addresses] using h
  | addAddress i w t n =>
    rcases addAddress_addresses ms dev i w t n W.session with he | ⟨_, _, -, -, he⟩ <;>
      simp [World.exec, he, h]
  | scriptPubkeyCache =>
    rwa [exec_scriptPubkeyCache_session, (scriptPubkeyCache_keysOnly ms dev _).addresses]
  | scanBlock => simpa [World.exec, scanBlock_wallet] using h

/-- Every run from `Wallet::new()` whose indices all lie in range keeps every label at a slot. -/
theorem Labelled.of_run {r : List DerivationPath} {W : World Desc PublicKey}
    (h : Run ms dev allocInRange (World.init r) W) : Labelled ms W.session.wallet :=
  Run.invariant ms dev (fun V => Labelled ms V.session.wallet)
    (fun V c hV ha => exec_labelled ms dev V c ha hV) h fun _ _ h => by cases h

/-- **Labels lie in the scanned range.** In every run from `Wallet::new()` in which every index
    `add_address` uses, explicit or allocated from `next_idx`, lies in `[low, high)` of its
    descriptor, every stored label has `low ≤ wildcard_idx < high` of the descriptor it names.
    Hence its script is a key of every index `script_pubkey_cache` builds afterwards, and
    `scan_block` with such an index records every payment to it: the outpoint is received and
    tracked. -/
theorem addresses_in_range {r : List DerivationPath} {W W' : World Desc PublicKey}
    (h : Run ms dev allocInRange (World.init r) W) (h' : Run ms dev allocInRange W W') :
    (∀ spk a, W.session.wallet.addresses.get? spk = some a →
      ∃ d, W.session.wallet.descriptors[a.descriptorIdx.toNat]? = some d ∧
        d.low ≤ a.wildcardIdx ∧ a.wildcardIdx < d.high) ∧
    ∀ spk, W.session.wallet.addresses.contains spk → ∀ c s',
      scriptPubkeyCache ms dev W'.session = (.ok c, s') → c.spks.contains spk ∧
      ∀ (b : Block) (height : UInt64) (w : Wallet Desc PublicKey), ∀ tx ∈ b.txdata, ∀ v out,
        tx.output[v]? = some out → out.scriptPubkey = spk →
        ∃ received spent, (scanBlock b height c w).1 = .ok (received, spent) ∧
          received.contains ⟨tx.txid, UInt32.ofNat v⟩ ∧
          (scanBlock b height c w).2.txos.contains ⟨tx.txid, UInt32.ofNat v⟩ := by
  refine ⟨fun spk a ha => ?_, fun spk hs c s' hc => ?_⟩
  · obtain ⟨d, hd, hlo, hhi, -⟩ := Labelled.of_run ms dev h spk a ha
    exact ⟨d, hd, hlo, hhi⟩
  · have hs' : W'.session.wallet.addresses.contains spk :=
      Run.invariant ms dev (fun V => V.session.wallet.addresses.contains spk)
        (fun V c hV _ => exec_addresses_contains ms dev V c hV) h' hs
    obtain ⟨a, ha⟩ := Option.isSome_iff_exists.mp hs'
    obtain ⟨d, hd, hlo, hhi, hsc⟩ := Labelled.of_run ms dev (h.trans ms dev h') spk a ha
    obtain ⟨spk', hs'', hc'⟩ :=
      scriptPubkeyCache_covers ms dev hc d (List.getElem?_mem hd) _ hlo hhi
    have hk := scriptPubkeyCache_keysOnly ms dev W'.session
    rw [hc] at hk
    obtain rfl : spk' = spk := Option.some.inj (hs''.symm.trans (cachedScript_mono ms hk.2 hsc))
    exact ⟨hc', fun b height w tx htx v out hv hout =>
      scanBlock_records c b height w htx hv (hout ▸ hc')⟩

/-- A registration over `[0, 2)` and one allocation, `0`, with the reference collaborators. -/
def labelledSample : World Nat DerivationPath :=
  ((World.init []).exec refMiniscript refDevice (.addDescriptor 0 0 2)).exec refMiniscript
    refDevice (.addAddress 0 none .empty .empty)

theorem run_labelledSample :
    Run refMiniscript refDevice allocInRange (World.init []) labelledSample := by
  refine .step _ (.step (.addDescriptor 0 0 2) .refl trivial) fun d hd => ?_
  obtain rfl : (⟨0, 0, 2, 0⟩ : Descriptor Nat) = d := Option.some.inj hd
  decide

theorem addresses_in_range_sample :
    Run refMiniscript refDevice allocInRange (World.init []) labelledSample ∧
    Run refMiniscript refDevice allocInRange labelledSample labelledSample ∧
    ((∀ spk a, labelledSample.session.wallet.addresses.get? spk = some a →
      ∃ d, labelledSample.session.wallet.descriptors[a.descriptorIdx.toNat]? = some d ∧
        d.low ≤ a.wildcardIdx ∧ a.wildcardIdx < d.high) ∧
    ∀ spk, labelledSample.session.wallet.addresses.contains spk → ∀ c s',
      scriptPubkeyCache refMiniscript refDevice labelledSample.session = (.ok c, s') →
      c.spks.contains spk ∧
      ∀ (b : Block) (height : UInt64) (w : Wallet Nat DerivationPath), ∀ tx ∈ b.txdata, ∀ v out,
        tx.output[v]? = some out → out.scriptPubkey = spk →
        ∃ received spent, (scanBlock b height c w).1 = .ok (received, spent) ∧
          received.contains ⟨tx.txid, UInt32.ofNat v⟩ ∧
          (scanBlock b height c w).2.txos.contains ⟨tx.txid, UInt32.ofNat v⟩) :=
  ⟨run_labelledSample, .refl,
    addresses_in_range refMiniscript refDevice run_labelledSample .refl⟩

end Labels

end Icebox
