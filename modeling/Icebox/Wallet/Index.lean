import Icebox.Wallet.Ops
import Icebox.Wallet.Reference

/-!
# What `script_pubkey_cache` builds

The two loops of `script_pubkey_cache` visit the `slots` of the wallet -- triples of position,
wildcard index and descriptor -- in increasing `slotLt` order (`slots_pairwise`), and insert at each
its `slotEntry`. From any map and any key state they start with:

* `spkCacheDescs_eq_insertAll`: they leave the script of every triple they visit cached, and the map
  they return is theirs with the entries of those triples inserted in order, every script read from
  the key cache they leave;
* `spkCacheDescs_of_cached`: when every key is already cached they succeed and send nothing.

For the call itself (`scriptPubkeyCache_eq_insertAll`), a later insert of a script overwrites an
earlier one, so each script ends at the greatest `Slot` that has it
(`HashMap.get?_insertAll_filterMap`, `scriptPubkeyCache_get?_iff`), and the keys are the scripts of
the slots (`scriptPubkeyCache_contains_iff`), of which every index of every range has one
(`scriptPubkeyCache_slots`). `scriptPubkeyCache_contents` gathers these. `scriptPubkeyCache_entry`
reads an entry back as a position and an index; positions are stored `as u32`, so it needs at most
`2^32` descriptors.
-/

namespace Icebox

section Index

variable {Desc PublicKey : Type} (ms : Miniscript Desc PublicKey) (dev : Device PublicKey)

/-! ## 1. Slots -/

/-- Position `j` holds a descriptor whose range holds `i`, and the key cache computes its script
    at `i`: `spk`. -/
def Slot (w : Wallet Desc PublicKey) (j : Nat) (i : UInt32) (spk : Script) : Prop :=
  ∃ d, w.descriptors[j]? = some d ∧ d.low ≤ i ∧ i < d.high ∧
    cachedScript ms w.keyCache d.desc i = some spk

/-- The `(position, wildcard index, descriptor)` triples the two loops of `script_pubkey_cache`
    visit from position `didx` on, in the order they visit them. -/
def slots : Nat → List (Descriptor Desc) → List (Nat × UInt32 × Desc)
  | _, [] => []
  | didx, d :: ds => (u32Range d.low d.high).map (fun w => (didx, w, d.desc)) ++ slots (didx + 1) ds

/-- The order the loops visit triples in: by position, then by wildcard index. -/
def slotLt (a b : Nat × UInt32 × Desc) : Prop := a.1 < b.1 ∨ a.1 = b.1 ∧ a.2.1 < b.2.1

/-- What `map.insert(spk, (didx as u32, widx as u32))` inserts at a triple, with the script read
    from the key cache `c`. -/
def slotEntry (c : HashMap DerivationPath PublicKey) (t : Nat × UInt32 × Desc) :
    Option (Script × UInt32 × UInt32) :=
  (cachedScript ms c t.2.2 t.2.1).map fun spk => (spk, UInt32.ofNat t.1, t.2.1)

theorem slotLt_asymm (a b : Nat × UInt32 × Desc) : slotLt a b → ¬slotLt b a := by
  simp only [slotLt, u32_lt_iff]
  omega

theorem mem_slots {j : Nat} {i : UInt32} {desc : Desc} : ∀ {didx : Nat} {ds : List (Descriptor Desc)},
    (j, i, desc) ∈ slots didx ds ↔
      ∃ k d, ds[k]? = some d ∧ j = didx + k ∧ desc = d.desc ∧ d.low ≤ i ∧ i < d.high
  | _, [] => by simp [slots]
  | didx, d :: ds => by
    rw [slots, List.mem_append, List.mem_map, mem_slots]
    constructor
    · rintro (⟨w, hw, he⟩ | ⟨k, d', hk, h1, h2, h3, h4⟩)
      · simp only [Prod.mk.injEq] at he
        obtain ⟨rfl, rfl, rfl⟩ := he
        exact ⟨0, d, List.getElem?_cons_zero, rfl, rfl, mem_u32Range.mp hw⟩
      · exact ⟨k + 1, d', by rwa [List.getElem?_cons_succ], by omega, h2, h3, h4⟩
    · rintro ⟨_ | k, d', hk, h1, h2, h3, h4⟩
      · obtain rfl : d' = d := by simpa using hk.symm
        exact .inl ⟨i, mem_u32Range.mpr ⟨h3, h4⟩, by rw [h1, h2]; rfl⟩
      · rw [List.getElem?_cons_succ] at hk
        exact .inr ⟨k, d', hk, by omega, h2, h3, h4⟩

/-- The loops visit triples in increasing order. -/
theorem slots_pairwise : ∀ (didx : Nat) (ds : List (Descriptor Desc)),
    (slots didx ds).Pairwise slotLt
  | _, [] => List.Pairwise.nil
  | didx, d :: ds => by
    rw [slots, List.pairwise_append, List.pairwise_map]
    refine ⟨(u32Range_pairwise d.low d.high).imp fun h => .inr ⟨rfl, h⟩,
      slots_pairwise (didx + 1) ds, ?_⟩
    rintro a ha ⟨j, i, desc⟩ hb
    obtain ⟨w, -, rfl⟩ := List.mem_map.mp ha
    obtain ⟨k, -, -, rfl, -⟩ := mem_slots.mp hb
    exact .inl (by simp only; omega)

theorem slotEntry_eq_some {c : HashMap DerivationPath PublicKey} {j : Nat} {i : UInt32} {desc : Desc}
    {spk : Script} {p : UInt32 × UInt32} :
    slotEntry ms c (j, i, desc) = some (spk, p) ↔
      cachedScript ms c desc i = some spk ∧ p = (UInt32.ofNat j, i) := by
  simp only [slotEntry, Option.map_eq_some', Prod.mk.injEq]
  constructor
  · rintro ⟨_, hs, rfl, rfl⟩
    exact ⟨hs, rfl⟩
  · rintro ⟨hs, rfl⟩
    exact ⟨spk, hs, rfl, rfl⟩

/-- The triples the loops visit over a wallet, with the entries its key cache gives them, are its
    `Slot`s. -/
theorem slotEntry_iff_slot {w : Wallet Desc PublicKey} {j : Nat} {i : UInt32} {desc : Desc}
    {spk : Script} {p : UInt32 × UInt32} :
    (j, i, desc) ∈ slots 0 w.descriptors ∧ slotEntry ms w.keyCache (j, i, desc) = some (spk, p) ↔
      Slot ms w j i spk ∧ p = (UInt32.ofNat j, i) ∧
        ∃ d, w.descriptors[j]? = some d ∧ desc = d.desc := by
  rw [mem_slots, slotEntry_eq_some]
  constructor
  · rintro ⟨⟨k, d, hk, rfl, rfl, hl, hh⟩, hs, rfl⟩
    rw [Nat.zero_add]
    exact ⟨⟨d, hk, hl, hh, hs⟩, rfl, d, hk, rfl⟩
  · rintro ⟨⟨d, hd, hl, hh, hs⟩, rfl, d', hd', rfl⟩
    obtain rfl : d' = d := Option.some.inj (hd'.symm.trans hd)
    exact ⟨⟨j, d', hd, (Nat.zero_add j).symm, rfl, hl, hh⟩, hs, rfl⟩

/-- The greatest visited triple that gets a script is the greatest `Slot` with that script. -/
theorem greatest_slotEntry_iff {w : Wallet Desc PublicKey} {spk : Script} {p : UInt32 × UInt32} :
    (∃ a ∈ slots 0 w.descriptors, slotEntry ms w.keyCache a = some (spk, p) ∧
      ∀ a' ∈ slots 0 w.descriptors, ∀ v, slotEntry ms w.keyCache a' = some (spk, v) →
        a' = a ∨ slotLt a' a) ↔
    ∃ j i, Slot ms w j i spk ∧ p = (UInt32.ofNat j, i) ∧
      ∀ j' i', Slot ms w j' i' spk → j' < j ∨ j' = j ∧ i' ≤ i := by
  constructor
  · rintro ⟨⟨j, i, desc⟩, ha, he, hmax⟩
    obtain ⟨hs, rfl, -⟩ := (slotEntry_iff_slot ms).mp ⟨ha, he⟩
    refine ⟨j, i, hs, rfl, fun j' i' ⟨d', hd', hl', hh', hs'⟩ => ?_⟩
    obtain ⟨ha', he'⟩ := (slotEntry_iff_slot ms).mpr ⟨⟨d', hd', hl', hh', hs'⟩, rfl, d', hd', rfl⟩
    rcases hmax _ ha' _ he' with he | hlt
    · simp only [Prod.mk.injEq] at he
      obtain ⟨rfl, rfl, -⟩ := he
      exact .inr ⟨rfl, u32_le_iff.mpr le_rfl⟩
    · simp only [slotLt, u32_lt_iff, u32_le_iff] at hlt ⊢
      omega
  · rintro ⟨j, i, ⟨d, hd, hl, hh, hs⟩, rfl, hmax⟩
    obtain ⟨ha, he⟩ := (slotEntry_iff_slot ms).mpr ⟨⟨d, hd, hl, hh, hs⟩, rfl, d, hd, rfl⟩
    refine ⟨(j, i, d.desc), ha, he, fun ⟨j', i', desc'⟩ ha' v he' => ?_⟩
    obtain ⟨hs', -, d', hd', rfl⟩ := (slotEntry_iff_slot ms).mp ⟨ha', he'⟩
    have hm := hmax j' i' hs'
    by_cases heq : j' = j ∧ i' = i
    · obtain ⟨rfl, rfl⟩ := heq
      obtain rfl : d' = d := Option.some.inj (hd'.symm.trans hd)
      exact .inl rfl
    · simp only [slotLt, u32_lt_iff, u32_le_iff, u32_eq_iff] at hm heq ⊢
      omega

/-! ## 2. The inner loop -/

/-- **The inner loop in closed form.** It leaves the script of every index it visits cached, and
    inserts the entries of the triples it visits, in order, with the scripts read from any cache
    that extends the one it leaves. -/
theorem spkCacheRange_eq_insertAll (didx : Nat) (desc : Desc) : ∀ {ws map map' ks ks'},
    spkCacheRange ms dev didx desc ws map ks = (.ok map', ks') →
    (∀ w ∈ ws, (cachedScript ms ks'.cache desc w).isSome) ∧
    ∀ {c}, CacheExtends ks'.cache c →
      map' = map.insertAll ((ws.map fun w => (didx, w, desc)).filterMap (slotEntry ms c))
  | [], _, _, _, _, h => by cases h; exact ⟨fun _ hw => absurd hw (List.not_mem_nil _), fun _ => rfl⟩
  | w :: ws, map, _, _, _, h => by
    unfold spkCacheRange at h
    split at h
    · cases h
    · rename_i spk ks₁ he
      have hx := spkCacheRange_extends ms dev didx desc ws (map.insert spk (UInt32.ofNat didx, w)) ks₁
      rw [h] at hx
      have hs := cachedScript_mono ms hx (cacheKey_ok ms dev he)
      obtain ⟨hcov, heq⟩ := spkCacheRange_eq_insertAll didx desc h
      refine ⟨List.forall_mem_cons.mpr ⟨by rw [hs]; rfl, hcov⟩, fun hc => ?_⟩
      rw [List.map_cons, List.filterMap_cons_some
        ((slotEntry_eq_some ms).mpr ⟨cachedScript_mono ms hc hs, rfl⟩), HashMap.insertAll]
      exact heq hc

theorem spkCacheRange_of_cached (didx : Nat) (desc : Desc) :
    ∀ (ws : List UInt32) (map : HashMap Script (UInt32 × UInt32)) (ks : Keys PublicKey),
      (∀ w ∈ ws, (cachedScript ms ks.cache desc w).isSome) →
      ∃ map', spkCacheRange ms dev didx desc ws map ks = (.ok map', ks)
  | [], map, _, _ => ⟨map, rfl⟩
  | w :: ws, map, ks, h => by
    obtain ⟨spk, hs⟩ := Option.isSome_iff_exists.mp (h w (List.mem_cons_self w ws))
    obtain ⟨map', hm⟩ := spkCacheRange_of_cached didx desc ws (map.insert spk (UInt32.ofNat didx, w))
      ks fun v hv => h v (List.mem_cons_of_mem w hv)
    exact ⟨map', by unfold spkCacheRange; rw [cacheKey_of_cached ms dev hs]; exact hm⟩

/-! ## 3. The outer loop -/

/-- **The outer loop in closed form**, from position `didx`: the same over all the triples it
    visits. -/
theorem spkCacheDescs_eq_insertAll : ∀ {didx ds map map' ks ks'},
    spkCacheDescs ms dev didx ds map ks = (.ok map', ks') →
    (∀ t ∈ slots didx ds, (cachedScript ms ks'.cache t.2.2 t.2.1).isSome) ∧
    ∀ {c}, CacheExtends ks'.cache c →
      map' = map.insertAll ((slots didx ds).filterMap (slotEntry ms c))
  | _, [], _, _, _, _, h => by
    cases h; exact ⟨fun _ ht => absurd ht (List.not_mem_nil _), fun _ => rfl⟩
  | didx, d :: ds, map, _, _, _, h => by
    unfold spkCacheDescs at h
    split at h
    · cases h
    · rename_i map₁ ks₁ he
      have hx := spkCacheDescs_extends ms dev (didx + 1) ds map₁ ks₁
      rw [h] at hx
      obtain ⟨hcov₁, heq₁⟩ := spkCacheRange_eq_insertAll ms dev didx d.desc he
      obtain ⟨hcov, heq⟩ := spkCacheDescs_eq_insertAll h
      refine ⟨fun t ht => ?_, fun hc => ?_⟩
      · rcases List.mem_append.mp ht with ht | ht
        · obtain ⟨w, hw, rfl⟩ := List.mem_map.mp ht
          obtain ⟨spk, hs⟩ := Option.isSome_iff_exists.mp (hcov₁ w hw)
          rw [cachedScript_mono ms hx hs]; rfl
        · exact hcov t ht
      · rw [slots, List.filterMap_append, HashMap.insertAll_append, ← heq₁ (hx.trans hc)]
        exact heq hc

theorem spkCacheDescs_of_cached : ∀ (didx : Nat) (ds : List (Descriptor Desc))
    (map : HashMap Script (UInt32 × UInt32)) (ks : Keys PublicKey),
    (∀ d ∈ ds, ∀ w, d.low ≤ w → w < d.high → (cachedScript ms ks.cache d.desc w).isSome) →
    ∃ map', spkCacheDescs ms dev didx ds map ks = (.ok map', ks)
  | _, [], map, _, _ => ⟨map, rfl⟩
  | didx, d :: ds, map, ks, h => by
    obtain ⟨map₁, h₁⟩ := spkCacheRange_of_cached ms dev didx d.desc (u32Range d.low d.high) map ks
      fun w hw => h d (List.mem_cons_self d ds) w (mem_u32Range.mp hw).1 (mem_u32Range.mp hw).2
    obtain ⟨map', h'⟩ := spkCacheDescs_of_cached (didx + 1) ds map₁ ks
      fun d' hd' => h d' (List.mem_cons_of_mem d hd')
    exact ⟨map', by unfold spkCacheDescs; rw [h₁]; exact h'⟩

/-! ## 4. `script_pubkey_cache` -/

section Call

variable {s s' : Session Desc PublicKey} {c : ScriptPubkeyCache}

/-- `script_pubkey_cache` leaves the script of every slot cached, and inserts the entries of the
    slots in the order the loops visit them, with the scripts read from the key cache it leaves. -/
theorem scriptPubkeyCache_eq_insertAll (h : scriptPubkeyCache ms dev s = (.ok c, s')) :
    (∀ t ∈ slots 0 s'.wallet.descriptors, (cachedScript ms s'.wallet.keyCache t.2.2 t.2.1).isSome) ∧
    c.spks = HashMap.empty.insertAll
      ((slots 0 s'.wallet.descriptors).filterMap (slotEntry ms s'.wallet.keyCache)) := by
  unfold scriptPubkeyCache at h
  split at h
  · cases h
  · cases h
    obtain ⟨hcov, heq⟩ := spkCacheDescs_eq_insertAll ms dev ‹_›
    exact ⟨hcov, heq (CacheExtends.refl _)⟩

/-- Every index of every range of the wallet it leaves has a script. -/
theorem scriptPubkeyCache_slots (h : scriptPubkeyCache ms dev s = (.ok c, s')) :
    ∀ j d, s'.wallet.descriptors[j]? = some d → ∀ i, d.low ≤ i → i < d.high →
      ∃ spk, Slot ms s'.wallet j i spk := by
  intro j d hd i hl hh
  obtain ⟨spk, hs⟩ := Option.isSome_iff_exists.mp ((scriptPubkeyCache_eq_insertAll ms dev h).1
    (j, i, d.desc) (mem_slots.mpr ⟨j, d, hd, (Nat.zero_add j).symm, rfl, hl, hh⟩))
  exact ⟨spk, d, hd, hl, hh, hs⟩

/-- The keys of the index are the scripts of the slots of the wallet it leaves. -/
theorem scriptPubkeyCache_contains_iff (h : scriptPubkeyCache ms dev s = (.ok c, s')) (spk : Script) :
    c.spks.contains spk = true ↔ ∃ j i, Slot ms s'.wallet j i spk := by
  rw [(scriptPubkeyCache_eq_insertAll ms dev h).2, HashMap.contains_insertAll,
    HashMap.contains_empty]
  simp only [List.mem_map, List.mem_filterMap, Bool.false_eq_true, or_false]
  constructor
  · rintro ⟨⟨spk', p⟩, ⟨⟨j, i, desc⟩, ha, he⟩, rfl⟩
    exact ⟨j, i, ((slotEntry_iff_slot ms).mp ⟨ha, he⟩).1⟩
  · rintro ⟨j, i, d, hd, hl, hh, hs⟩
    obtain ⟨ha, he⟩ := (slotEntry_iff_slot ms).mpr ⟨⟨d, hd, hl, hh, hs⟩, rfl, d, hd, rfl⟩
    exact ⟨(spk, UInt32.ofNat j, i), ⟨(j, i, d.desc), ha, he⟩, rfl⟩

/-- Each script of the index is stored at the greatest slot that has it, the last the loops
    visit. -/
theorem scriptPubkeyCache_get?_iff (h : scriptPubkeyCache ms dev s = (.ok c, s')) (spk : Script)
    (p : UInt32 × UInt32) :
    c.spks.get? spk = some p ↔
      ∃ j i, Slot ms s'.wallet j i spk ∧ p = (UInt32.ofNat j, i) ∧
        ∀ j' i', Slot ms s'.wallet j' i' spk → j' < j ∨ j' = j ∧ i' ≤ i := by
  rw [(scriptPubkeyCache_eq_insertAll ms dev h).2,
    HashMap.get?_insertAll_filterMap slotLt_asymm _ (slots_pairwise 0 _)]
  exact greatest_slotEntry_iff ms

/-- **Every entry of a built index is sound**: it names a registered descriptor, an index of its
    range, and the script the key cache computes there. -/
theorem scriptPubkeyCache_entry (hlen : s.wallet.descriptors.length ≤ 2 ^ 32)
    (h : scriptPubkeyCache ms dev s = (.ok c, s')) {spk : Script} {p : UInt32 × UInt32}
    (hp : c.spks.get? spk = some p) :
    ∃ d, s.wallet.descriptors[p.1.toNat]? = some d ∧ d.low ≤ p.2 ∧ p.2 < d.high ∧
      cachedScript ms s'.wallet.keyCache d.desc p.2 = some spk := by
  have hko := scriptPubkeyCache_keysOnly ms dev s
  rw [h] at hko
  obtain ⟨j, i, ⟨d, hd, hs⟩, rfl, -⟩ := (scriptPubkeyCache_get?_iff ms dev h spk p).mp hp
  rw [hko.descriptors] at hd
  have hj : j < 2 ^ 32 := lt_of_lt_of_le (List.getElem?_eq_some_iff.mp hd).1 hlen
  refine ⟨d, ?_, hs⟩
  rwa [u32_toNat_ofNat, Nat.mod_eq_of_lt hj]

/-- **A built index has every script of every registered range as a key.** -/
theorem scriptPubkeyCache_covers (h : scriptPubkeyCache ms dev s = (.ok c, s')) :
    ∀ d ∈ s.wallet.descriptors, ∀ w, d.low ≤ w → w < d.high →
      ∃ spk, cachedScript ms s'.wallet.keyCache d.desc w = some spk ∧ c.spks.contains spk := by
  have hko := scriptPubkeyCache_keysOnly ms dev s
  rw [h] at hko
  intro d hd w hl hh
  obtain ⟨j, hj⟩ := List.mem_iff_getElem?.mp hd
  rw [← hko.descriptors] at hj
  obtain ⟨spk, hs⟩ := scriptPubkeyCache_slots ms dev h j d hj w hl hh
  obtain ⟨d', hd', -, -, hs'⟩ := hs
  obtain rfl : d' = d := Option.some.inj (hd'.symm.trans hj)
  exact ⟨spk, hs', (scriptPubkeyCache_contains_iff ms dev h spk).mpr ⟨j, w, d', hd', hl, hh, hs'⟩⟩

/-- **With every key cached, `script_pubkey_cache` succeeds and sends no request.** -/
theorem scriptPubkeyCache_of_cached
    (h : ∀ d ∈ s.wallet.descriptors, ∀ w, d.low ≤ w → w < d.high →
      (cachedScript ms s.wallet.keyCache d.desc w).isSome) :
    ∃ c, scriptPubkeyCache ms dev s = (.ok c, s) := by
  obtain ⟨map, hm⟩ := spkCacheDescs_of_cached ms dev 0 s.wallet.descriptors .empty s.keys h
  exact ⟨⟨map⟩, by rw [scriptPubkeyCache, hm]; rfl⟩

/-- **What `script_pubkey_cache` returns.** On success it changes the wallet's key cache alone.
    Every index of every range then has a script -- the one `cache_key(d.desc, w)` returns, now
    read from the cache (`cacheKey_of_cached`) -- and the keys of the index are exactly the scripts
    of these `Slot`s. Each is stored with the pair, position `as u32`, of the slot the loops visit
    last among those with that script: the greatest by position, then by index. -/
theorem scriptPubkeyCache_contents (h : scriptPubkeyCache ms dev s = (.ok c, s')) :
    s'.wallet.descriptors = s.wallet.descriptors ∧ s'.wallet.addresses = s.wallet.addresses ∧
    s'.wallet.txos = s.wallet.txos ∧ s'.wallet.blockHeight = s.wallet.blockHeight ∧
    (∀ j d, s'.wallet.descriptors[j]? = some d → ∀ i, d.low ≤ i → i < d.high →
      ∃ spk, Slot ms s'.wallet j i spk) ∧
    (∀ spk, c.spks.contains spk = true ↔ ∃ j i, Slot ms s'.wallet j i spk) ∧
    ∀ spk p, c.spks.get? spk = some p ↔
      ∃ j i, Slot ms s'.wallet j i spk ∧ p = (UInt32.ofNat j, i) ∧
        ∀ j' i', Slot ms s'.wallet j' i' spk → j' < j ∨ j' = j ∧ i' ≤ i := by
  have hk := scriptPubkeyCache_keysOnly ms dev s
  rw [h] at hk
  exact ⟨hk.descriptors, hk.addresses, hk.txos, by rw [hk.1], scriptPubkeyCache_slots ms dev h,
    scriptPubkeyCache_contains_iff ms dev h, scriptPubkeyCache_get?_iff ms dev h⟩

end Call

end Index

/-- Descriptor `0` registered twice, over `[0, 2)` and `[1, 3)`, with nothing cached: index `1` is
    in both ranges, and the index keeps it at position `1`. -/
def indexSample : Session Nat DerivationPath :=
  ⟨⟨0, [⟨0, 0, 2, 0⟩, ⟨0, 1, 3, 0⟩], .empty, .empty, .empty⟩, []⟩

theorem scriptPubkeyCache_contents_sample :
    ∃ c s', scriptPubkeyCache refMiniscript refDevice indexSample = (.ok c, s') ∧
      s'.wallet.descriptors = indexSample.wallet.descriptors ∧
      s'.wallet.addresses = indexSample.wallet.addresses ∧
      s'.wallet.txos = indexSample.wallet.txos ∧
      s'.wallet.blockHeight = indexSample.wallet.blockHeight ∧
      (∀ j d, s'.wallet.descriptors[j]? = some d → ∀ i, d.low ≤ i → i < d.high →
        ∃ spk, Slot refMiniscript s'.wallet j i spk) ∧
      (∀ spk, c.spks.contains spk = true ↔ ∃ j i, Slot refMiniscript s'.wallet j i spk) ∧
      ∀ spk p, c.spks.get? spk = some p ↔
        ∃ j i, Slot refMiniscript s'.wallet j i spk ∧ p = (UInt32.ofNat j, i) ∧
          ∀ j' i', Slot refMiniscript s'.wallet j' i' spk → j' < j ∨ j' = j ∧ i' ≤ i :=
  ⟨_, _, rfl, scriptPubkeyCache_contents refMiniscript refDevice rfl⟩

/-- Index `1` of descriptor `0` (script `[0, 1]`) is stored at its second registration. -/
example : ((scriptPubkeyCache refMiniscript refDevice indexSample).1.toOption.map
    fun c => c.spks.get? ⟨[0, 1]⟩) = some (some (1, 1)) := by decide

end Icebox
