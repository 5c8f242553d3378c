import Icebox.Wallet.Ops

/-!
# Registering a descriptor

`add_descriptor` computes the indices it has to derive in two loops: a `HashSet` of every index a
registered descriptor with the same `desc` covers (failing on an exact duplicate), then a pass
over `low..high` that derives each index missing from the set. This file states what that
computes, without the set:

* `uncovered ds desc low high` -- the indices of `low..high`, in order, that no registered
  descriptor with the same `desc` covers (`mem_uncovered`), counted by `length_uncovered` as the
  size of a set difference;
* `cacheKeys` -- `cache_key` at each index in turn, up to the first failure;
* `addDescriptor_of_dup`, `addDescriptor_of_not_dup` -- a duplicate is rejected before anything is
  written; otherwise the call is `cacheKeys` over `uncovered`, followed by the append;
* **`addDescriptor_contract`** -- the whole contract of the call.
-/

namespace Icebox

section Register

variable {Desc PublicKey : Type} [DecidableEq Desc] (ms : Miniscript Desc PublicKey)
  (dev : Device PublicKey)

/-- `cache_key` at each index in turn, up to the first failure. -/
def cacheKeys (desc : Desc) : List UInt32 → Keys PublicKey → Except Error Unit × Keys PublicKey
  | [], ks => (.ok (), ks)
  | i :: is, ks =>
    match cacheKey ms dev desc i ks with
    | (.error e, ks') => (.error e, ks')
    | (.ok _, ks') => cacheKeys desc is ks'

/-- The indices of `low..high`, in order, that no descriptor of `ds` with the same `desc` covers. -/
def uncovered (ds : List (Descriptor Desc)) (desc : Desc) (low high : UInt32) : List UInt32 :=
  (u32Range low high).filter fun i => !ds.any fun d => d.desc = desc && d.low ≤ i && i < d.high

theorem mem_uncovered {ds : List (Descriptor Desc)} {desc : Desc} {low high i : UInt32} :
    i ∈ uncovered ds desc low high ↔
      low ≤ i ∧ i < high ∧ ¬ ∃ d ∈ ds, d.desc = desc ∧ d.low ≤ i ∧ i < d.high := by
  simp [uncovered, mem_u32Range, and_assoc]

/-- The number of uncovered indices is the size of `[low, high)` minus every same-`desc` range. -/
theorem length_uncovered (ds : List (Descriptor Desc)) (desc : Desc) (low high : UInt32) :
    (uncovered ds desc low high).length =
      ((Finset.Ico low.toNat high.toNat).filter fun n =>
        ∀ d ∈ ds, d.desc = desc → ¬ (d.low.toNat ≤ n ∧ n < d.high.toNat)).card := by
  show _ = ((List.range' low.toNat (high.toNat - low.toNat)).filter _).length
  rw [uncovered, u32Range, List.filter_map, List.length_map]
  congr 1
  refine List.filter_congr fun n hn => ?_
  have e : (UInt32.ofNat n).toNat = n := by
    have := u32_toNat_lt high; rw [List.mem_range'] at hn
    simp only [u32_toNat_ofNat]; omega
  rw [Function.comp_apply, Bool.eq_iff_iff]
  simp [List.any_eq_true, u32_le_iff, u32_lt_iff, e, and_assoc]

theorem foldl_insert_contains (l : List UInt32) (acc : HashSet UInt32) (i : UInt32) :
    (l.foldl HashSet.insert acc).contains i = (acc.contains i || decide (i ∈ l)) := by
  induction l generalizing acc with
  | nil => simp
  | cons j l ih =>
    simp only [List.foldl_cons, ih, HashSet.contains_insert, List.mem_cons]
    by_cases h : i = j <;> simp [h]

theorem existingIndices_of_dup (desc : Desc) (low high : UInt32) :
    ∀ (ds : List (Descriptor Desc)) (acc : HashSet UInt32),
    (∃ d ∈ ds, d.desc = desc ∧ d.low = low ∧ d.high = high) →
    existingIndices desc low high ds acc = .error .duplicateDescriptor
  | [], _, h => by simp at h
  | d :: ds, acc, h => by
    unfold existingIndices
    split
    · split
      · rfl
      · rename_i hd hr
        refine existingIndices_of_dup desc low high ds _ ?_
        obtain ⟨d', hd', h'⟩ := h
        rcases List.mem_cons.mp hd' with rfl | hd'
        · exact absurd h'.2 hr
        · exact ⟨d', hd', h'⟩
    · rename_i hd
      obtain ⟨d', hd', h'⟩ := h
      rcases List.mem_cons.mp hd' with rfl | hd'
      · exact absurd h'.1 hd
      · exact existingIndices_of_dup desc low high ds acc ⟨d', hd', h'⟩

theorem existingIndices_of_not_dup (desc : Desc) (low high : UInt32) :
    ∀ (ds : List (Descriptor Desc)) (acc : HashSet UInt32),
    (¬ ∃ d ∈ ds, d.desc = desc ∧ d.low = low ∧ d.high = high) →
    ∃ acc', existingIndices desc low high ds acc = .ok acc' ∧ ∀ i, acc'.contains i =
      (acc.contains i || ds.any fun d => d.desc = desc && d.low ≤ i && i < d.high)
  | [], acc, _ => ⟨acc, rfl, by simp⟩
  | d :: ds, acc, h => by
    have hds : ¬ ∃ d ∈ ds, d.desc = desc ∧ d.low = low ∧ d.high = high :=
      fun ⟨d', hd', h'⟩ => h ⟨d', List.mem_cons_of_mem d hd', h'⟩
    unfold existingIndices
    by_cases hd : d.desc = desc
    · have hr : ¬ (d.low = low ∧ d.high = high) := fun hr => h ⟨d, List.mem_cons_self d ds, hd, hr⟩
      obtain ⟨acc', he, hc⟩ :=
        existingIndices_of_not_dup desc low high ds ((u32Range d.low d.high).foldl HashSet.insert acc) hds
      refine ⟨acc', by simp only [if_pos hd, if_neg hr, he], fun i => ?_⟩
      rw [hc, foldl_insert_contains]
      simp [mem_u32Range, hd, Bool.or_assoc]
    · obtain ⟨acc', he, hc⟩ := existingIndices_of_not_dup desc low high ds acc hds
      exact ⟨acc', by simp only [if_neg hd, he], fun i => by simp [hc, hd]⟩

omit [DecidableEq Desc] in
/-- The derivation loop is `cacheKeys` over the indices missing from the set. -/
theorem deriveUncovered_eq (desc : Desc) (ex : HashSet UInt32) :
    ∀ (is : List UInt32) (n : Nat) (ks : Keys PublicKey),
    deriveUncovered ms dev desc ex is n ks =
      match cacheKeys ms dev desc (is.filter fun i => !ex.contains i) ks with
      | (.ok (), ks') => (.ok (n + (is.filter fun i => !ex.contains i).length), ks')
      | (.error e, ks') => (.error e, ks')
  | [], n, ks => rfl
  | i :: is, n, ks => by
    by_cases hi : ex.contains i = true
    · simp only [deriveUncovered, hi, if_true, List.filter_cons, Bool.not_true]
      exact deriveUncovered_eq desc ex is n ks
    · simp only [deriveUncovered, hi, List.filter_cons, Bool.not_false, if_true, cacheKeys,
        Bool.false_eq_true, if_false]
      rcases cacheKey ms dev desc i ks with ⟨_ | _, ks'⟩
      · rfl
      · simp only [deriveUncovered_eq desc ex is (n + 1) ks', List.length_cons]
        split <;> simp only [Nat.add_assoc, Nat.add_comm 1]

theorem addDescriptor_of_dup {desc : Desc} {low high : UInt32} {s : Session Desc PublicKey}
    (h : ∃ d ∈ s.wallet.descriptors, d.desc = desc ∧ d.low = low ∧ d.high = high) :
    addDescriptor ms dev desc low high s = (.error .duplicateDescriptor, s) := by
  simp [addDescriptor, existingIndices_of_dup desc low high _ _ h]

theorem addDescriptor_of_not_dup {desc : Desc} {low high : UInt32} {s : Session Desc PublicKey}
    (h : ¬ ∃ d ∈ s.wallet.descriptors, d.desc = desc ∧ d.low = low ∧ d.high = high) :
    addDescriptor ms dev desc low high s =
      match cacheKeys ms dev desc (uncovered s.wallet.descriptors desc low high) s.keys with
      | (.ok (), ks) => (.ok (uncovered s.wallet.descriptors desc low high).length,
          ⟨{ s.wallet with
              keyCache := ks.cache,
              descriptors := s.wallet.descriptors ++ [⟨desc, low, high, 0⟩] }, ks.requests⟩)
      | (.error e, ks) => (.error e, s.setKeys ks) := by
  obtain ⟨ex, he, hc⟩ := existingIndices_of_not_dup desc low high _ .empty h
  have hf : ((u32Range low high).filter fun i => !ex.contains i) =
      uncovered s.wallet.descriptors desc low high :=
    List.filter_congr fun i _ => by simp [hc]
  simp only [addDescriptor, he, deriveUncovered_eq, hf, Nat.zero_add]
  generalize cacheKeys ms dev desc _ s.keys = r
  rcases r with ⟨_ | ⟨⟩, ks⟩ <;> rfl

omit [DecidableEq Desc] in
theorem cacheKeys_error (desc : Desc) : ∀ {is : List UInt32} {ks ks' : Keys PublicKey} {e : Error},
    cacheKeys ms dev desc is ks = (.error e, ks') → e = .panic ∨ ∃ de, e = .dongle de
  | [], _, _, _, h => by cases h
  | i :: is, ks, ks', e, h => by
    unfold cacheKeys at h
    split at h
    · cases h; exact cacheKey_error ms dev ‹_›
    · exact cacheKeys_error desc h

omit [DecidableEq Desc] in
theorem cacheKeys_extends (desc : Desc) : ∀ (is : List UInt32) (ks : Keys PublicKey),
    CacheExtends ks.cache (cacheKeys ms dev desc is ks).2.cache
  | [], ks => CacheExtends.refl _
  | i :: is, ks => by
    have h1 := cacheKey_extends ms dev desc i ks
    unfold cacheKeys
    split
    · rename_i he; rw [he] at h1; exact h1
    · rename_i he; rw [he] at h1; exact h1.trans (cacheKeys_extends desc is _)

omit [DecidableEq Desc] in
/-- After a successful `cacheKeys`, every index it visited is cached. -/
theorem cacheKeys_ok (desc : Desc) : ∀ {is : List UInt32} {ks ks' : Keys PublicKey},
    cacheKeys ms dev desc is ks = (.ok (), ks') →
    ∀ i ∈ is, ∃ spk, cachedScript ms ks'.cache desc i = some spk
  | [], _, _, _, i, hi => absurd hi (List.not_mem_nil i)
  | j :: is, ks, ks', h, i, hi => by
    unfold cacheKeys at h
    split at h
    · cases h
    · rename_i spk ks₁ hj
      rcases List.mem_cons.mp hi with rfl | hi
      · have := cacheKeys_extends ms dev desc is ks₁
        rw [h] at this
        exact ⟨spk, cachedScript_mono ms this (cacheKey_ok ms dev hj)⟩
      · exact cacheKeys_ok desc h i hi

/-- What `add_descriptor` can write: only the key cache and the dongle, or, for a new triple, also
    the appended descriptor, once every uncovered index of its range is cached. -/
theorem addDescriptor_cases (desc : Desc) (low high : UInt32) (s : Session Desc PublicKey) :
    KeysOnly s (addDescriptor ms dev desc low high s).2 ∨
    (¬ ∃ d ∈ s.wallet.descriptors, d.desc = desc ∧ d.low = low ∧ d.high = high) ∧
      ∃ ks : Keys PublicKey, CacheExtends s.wallet.keyCache ks.cache ∧
        (∀ i ∈ uncovered s.wallet.descriptors desc low high,
          ∃ spk, cachedScript ms ks.cache desc i = some spk) ∧
        (addDescriptor ms dev desc low high s).2 = ⟨{ s.wallet with
          keyCache := ks.cache,
          descriptors := s.wallet.descriptors ++ [⟨desc, low, high, 0⟩] }, ks.requests⟩ := by
  by_cases h : ∃ d ∈ s.wallet.descriptors, d.desc = desc ∧ d.low = low ∧ d.high = high
  · rw [addDescriptor_of_dup ms dev h]
    exact .inl (KeysOnly.refl s)
  · rw [addDescriptor_of_not_dup ms dev h]
    have hx := cacheKeys_extends ms dev desc (uncovered s.wallet.descriptors desc low high) s.keys
    split <;> rename_i hc <;> rw [hc] at hx
    · exact .inr ⟨h, _, hx, cacheKeys_ok ms dev desc hc, rfl⟩
    · exact .inl (keysOnly_setKeys s hx)

/-- A successful `add_descriptor` appends the new descriptor, with `next_idx` at `0`. -/
theorem addDescriptor_ok {desc : Desc} {low high : UInt32} {s s' : Session Desc PublicKey}
    {k : Nat} (h : addDescriptor ms dev desc low high s = (.ok k, s')) :
    s'.wallet.descriptors = s.wallet.descriptors ++ [⟨desc, low, high, 0⟩] := by
  by_cases hd : ∃ d ∈ s.wallet.descriptors, d.desc = desc ∧ d.low = low ∧ d.high = high
  · rw [addDescriptor_of_dup ms dev hd] at h; cases h
  · rw [addDescriptor_of_not_dup ms dev hd] at h
    split at h <;> cases h
    rfl

theorem addDescriptor_extends (desc : Desc) (low high : UInt32) (s : Session Desc PublicKey) :
    CacheExtends s.wallet.keyCache (addDescriptor ms dev desc low high s).2.wallet.keyCache := by
  rcases addDescriptor_cases ms dev desc low high s with h | ⟨-, ks, hx, -, h⟩
  · exact h.2
  · rw [h]; exact hx

theorem addDescriptor_addresses (desc : Desc) (low high : UInt32) (s : Session Desc PublicKey) :
    (addDescriptor ms dev desc low high s).2.wallet.addresses = s.wallet.addresses := by
  rcases addDescriptor_cases ms dev desc low high s with h | ⟨-, ks, -, -, h⟩
  · exact h.addresses
  · rw [h]

theorem addDescriptor_txos (desc : Desc) (low high : UInt32) (s : Session Desc PublicKey) :
    (addDescriptor ms dev desc low high s).2.wallet.txos = s.wallet.txos := by
  rcases addDescriptor_cases ms dev desc low high s with h | ⟨-, ks, -, -, h⟩
  · exact h.txos
  · rw [h]

/-- **`add_descriptor`, for every wallet state and every `(desc, low, high)`.** (1) It fails with
    `DuplicateDescriptor` exactly when a registered descriptor has the same `desc`, `low` and
    `high`, and then changes nothing. (2, 3) Otherwise it calls `cache_key` for the indices of
    `low..high` that no same-`desc` descriptor covers, in order, up to the first failure; on success
    it returns how many there are and appends `{desc, low, high, next_idx: 0}`, on failure it
    returns the error; either way only the key cache and the dongle change besides. -/
theorem addDescriptor_contract (desc : Desc) (low high : UInt32) (s : Session Desc PublicKey) :
    ((addDescriptor ms dev desc low high s).1 = .error .duplicateDescriptor ↔
      ∃ d ∈ s.wallet.descriptors, d.desc = desc ∧ d.low = low ∧ d.high = high) ∧
    ((∃ d ∈ s.wallet.descriptors, d.desc = desc ∧ d.low = low ∧ d.high = high) →
      (addDescriptor ms dev desc low high s).2 = s) ∧
    ((¬ ∃ d ∈ s.wallet.descriptors, d.desc = desc ∧ d.low = low ∧ d.high = high) →
      addDescriptor ms dev desc low high s =
        match cacheKeys ms dev desc (uncovered s.wallet.descriptors desc low high) s.keys with
        | (.ok (), ks) => (.ok (uncovered s.wallet.descriptors desc low high).length,
            ⟨{ s.wallet with
                keyCache := ks.cache,
                descriptors := s.wallet.descriptors ++ [⟨desc, low, high, 0⟩] }, ks.requests⟩)
        | (.error e, ks) => (.error e, s.setKeys ks)) ∧
    (∀ i, i ∈ uncovered s.wallet.descriptors desc low high ↔
      low ≤ i ∧ i < high ∧ ¬ ∃ d ∈ s.wallet.descriptors, d.desc = desc ∧ d.low ≤ i ∧ i < d.high) ∧
    (uncovered s.wallet.descriptors desc low high).length =
      ((Finset.Ico low.toNat high.toNat).filter fun n => ∀ d ∈ s.wallet.descriptors,
        d.desc = desc → ¬ (d.low.toNat ≤ n ∧ n < d.high.toNat)).card := by
  refine ⟨⟨fun he => ?_, fun h => by rw [addDescriptor_of_dup ms dev h]⟩,
    fun h => by rw [addDescriptor_of_dup ms dev h], addDescriptor_of_not_dup ms dev,
    fun _ => mem_uncovered, length_uncovered _ _ _ _⟩
  refine Classical.byContradiction fun h => ?_
  rw [addDescriptor_of_not_dup ms dev h] at he
  split at he
  · cases he
  · rename_i e ks hc
    rcases cacheKeys_error ms dev desc hc with rfl | ⟨de, rfl⟩ <;> cases he

end Register

end Icebox
