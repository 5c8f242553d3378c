import Icebox.Icboc.Import
import Icebox.Wallet.Labels

/-!
# Importing an ICBOC 1D wallet, entry after entry

`ImportIcboc::execute` registers the legacy wallet's descriptor over `[0, n_entries)` at position
`desc_idx`, the length of the descriptor list, and then turns each decrypted entry that is not
blank into `add_address(desc_idx, Some(i), time, notes)`, stopping at the first failure. The
checks of the file's size and header, the decryption and what the command prints are left out:
the loop starts from the decrypted entries.

* `importEntries`, `importIcboc` -- the loop, and the two steps, as the source runs them;
* `entryCalls` -- the `add_address` calls the loop makes; `importEntries_eq`: a loop that succeeds
  ends where those calls, run one after another in the wallet's run model, end;
* `importIcboc_run` -- a successful import extends a run by calls whose every index lies in the
  range of its descriptor, so the results of `Wallet/Labels.lean` hold after it:
  **`importIcboc_addresses_in_range`**, every label lies in the range of its descriptor;
* **`importIcboc_legacy`** -- on the entries a legacy wallet holds (blank, or laid out by
  `sign_and_encrypt`), the loop fails only where `add_address` fails, and the calls it makes are
  `add_address(desc_idx, Some(i), date, note)` for every entry `i` that is not blank.
-/

namespace Icebox

namespace Icboc

/-- The failures of `ImportIcboc::execute` once the file has been read. -/
inductive ImportError
  /-- `"cannot import wallet with {n} entries (max 2^31)"`. -/
  | tooManyEntries (n : Nat)
  /-- `add_descriptor` failed: `"importing descriptor"`. -/
  | importingDescriptor (e : Error)
  /-- An entry whose timestamp or notes do not decode, or the notes loop out of bounds. -/
  | entry (r : EntryImport)
  /-- `add_address` failed: `"importing address for entry {i}"`. -/
  | importingAddress (i : Nat) (e : Error)

section Loop

variable {Desc PublicKey : Type} [DecidableEq Desc] (ms : Miniscript Desc PublicKey)
  (dev : Device PublicKey)

/-! ## 1. The loop and the command -/

/-- The entry loop of `ImportIcboc::execute`, from entry `i` on. -/
def importEntries (descIdx : UInt32) : Nat → List (List UInt8) → Session Desc PublicKey →
    Except ImportError Unit × Session Desc PublicKey
  | _, [], s => (.ok (), s)
  | i, e :: es, s =>
    match importEntry i e with
    | .unused => importEntries descIdx (i + 1) es s
    | .addAddress time notes =>
      match addAddress ms dev descIdx (some (UInt32.ofNat i)) time notes s with
      | (.ok _, s') => importEntries descIdx (i + 1) es s'
      | (.error err, s') => (.error (.importingAddress i err), s')
    | r => (.error (.entry r), s)

/-- Steps 1 and 2 of `ImportIcboc::execute`, with `desc` the descriptor built from the master key
    and `entries` the decrypted entries in file order. -/
def importIcboc (desc : Desc) (entries : List (List UInt8)) (s : Session Desc PublicKey) :
    Except ImportError Unit × Session Desc PublicKey :=
  let descIdx := s.wallet.descriptors.length
  if 2 ^ 31 ≤ entries.length then (.error (.tooManyEntries entries.length), s)
  else
    match addDescriptor ms dev desc 0 (UInt32.ofNat entries.length) s with
    | (.error e, s') => (.error (.importingDescriptor e), s')
    | (.ok _, s') => importEntries ms dev (UInt32.ofNat descIdx) 0 entries s'

omit [DecidableEq Desc] in
/-- The `add_address` calls the loop makes from entry `i` on. -/
def entryCalls (descIdx : UInt32) : Nat → List (List UInt8) → List (Call Desc)
  | _, [] => []
  | i, e :: es =>
    match importEntry i e with
    | .addAddress time notes =>
      .addAddress descIdx (some (UInt32.ofNat i)) time notes :: entryCalls descIdx (i + 1) es
    | _ => entryCalls descIdx (i + 1) es

/-! ## 2. The loop runs its calls -/

/-- **A loop that succeeds ends where its calls end**, run one after another from any world whose
    session it starts from. -/
theorem importEntries_eq (descIdx : UInt32) : ∀ (i : Nat) (es : List (List UInt8))
    (W : World Desc PublicKey), (importEntries ms dev descIdx i es W.session).1 = .ok () →
    (importEntries ms dev descIdx i es W.session).2 =
      (W.execAll ms dev (entryCalls descIdx i es)).session
  | _, [], _, _ => rfl
  | i, e :: es, W, h => by
    simp only [importEntries, entryCalls] at h ⊢
    split at h
    · rename_i he
      simp only [he]
      exact importEntries_eq descIdx (i + 1) es W h
    · rename_i time notes he
      rcases ha : addAddress ms dev descIdx (some (UInt32.ofNat i)) time notes W.session
        with ⟨_ | _, s'⟩ <;> simp only [he, ha] at h ⊢
      · cases h
      have hs : (W.exec ms dev (.addAddress descIdx (some (UInt32.ofNat i)) time notes)).session
          = s' := by simp only [World.exec, ha]
      rw [← hs] at h ⊢
      exact importEntries_eq descIdx (i + 1) es _ h
    · cases h

/-! ## 3. The import is a run -/

omit [DecidableEq Desc] in
/-- Position `descIdx` holds a descriptor over `[0, n)`. -/
def Registered (descIdx n : UInt32) (W : World Desc PublicKey) : Prop :=
  ∃ d, W.session.wallet.descriptors[descIdx.toNat]? = some d ∧ d.low = 0 ∧ d.high = n

theorem Registered.exec {descIdx n : UInt32} {W : World Desc PublicKey}
    (h : Registered descIdx n W) (c : Call Desc) : Registered descIdx n (W.exec ms dev c) := by
  obtain ⟨d, hd, hl, hh⟩ := h
  obtain ⟨d', hd', hc⟩ := (exec_keeps ms dev W c).getElem? hd
  simp only [Descriptor.core, Prod.mk.injEq] at hc
  exact ⟨d', hd', hc.2.1 ▸ hl, hc.2.2 ▸ hh⟩

omit [DecidableEq Desc] in
/-- The call for entry `i` of `n` is admitted: its index lies in `[0, n)`. -/
theorem allocInRange_entry {descIdx : UInt32} {n i : Nat} (hn : n < 2 ^ 32) (hi : i < n)
    {W : World Desc PublicKey} (h : Registered descIdx (UInt32.ofNat n) W) (time notes : RString) :
    allocInRange W (.addAddress descIdx (some (UInt32.ofNat i)) time notes) := by
  intro d hd
  obtain ⟨d', hd', hl, hh⟩ := h
  obtain rfl := Option.some.inj (hd.symm.trans hd')
  rw [Option.getD_some, hl, hh, u32_le_iff, u32_lt_iff, u32_toNat_ofNat, u32_toNat_ofNat,
    Nat.mod_eq_of_lt (by omega : i < 2 ^ 32), Nat.mod_eq_of_lt hn]
  exact ⟨Nat.zero_le _, hi⟩

/-- The calls of the entries `i, i + 1, …` of `n` form a run in which every index is in range. -/
theorem entryCalls_run (descIdx : UInt32) {n : Nat} (hn : n < 2 ^ 32) :
    ∀ (i : Nat) (es : List (List UInt8)) (W : World Desc PublicKey),
    Registered descIdx (UInt32.ofNat n) W → i + es.length ≤ n →
    Run ms dev allocInRange W (W.execAll ms dev (entryCalls descIdx i es))
  | _, [], _, _, _ => .refl
  | i, e :: es, W, hW, hlen => by
    rw [List.length_cons, ← Nat.add_assoc, Nat.add_right_comm] at hlen
    simp only [entryCalls]
    split
    · rename_i time notes _
      exact (Run.step _ .refl (allocInRange_entry hn (by omega) hW time notes)).trans ms dev
        (entryCalls_run descIdx hn (i + 1) es _ (hW.exec ms dev _) hlen)
    · exact entryCalls_run descIdx hn (i + 1) es W hW hlen

/-- What a successful import has done: `add_descriptor` succeeded and appended the descriptor over
    `[0, n)`, and the entry loop that followed succeeded. -/
theorem importIcboc_of_ok {desc : Desc} {entries : List (List UInt8)} {W : World Desc PublicKey}
    (h : (importIcboc ms dev desc entries W.session).1 = .ok ()) :
    entries.length < 2 ^ 31 ∧
    (W.exec ms dev (.addDescriptor desc 0 (UInt32.ofNat entries.length))).session.wallet.descriptors
      = W.session.wallet.descriptors ++ [⟨desc, 0, UInt32.ofNat entries.length, 0⟩] ∧
    importIcboc ms dev desc entries W.session =
      importEntries ms dev (UInt32.ofNat W.session.wallet.descriptors.length) 0 entries
        (W.exec ms dev (.addDescriptor desc 0 (UInt32.ofNat entries.length))).session := by
  unfold importIcboc at h ⊢
  split at h
  · cases h
  · rename_i hn
    rw [if_neg hn]
    rcases hd : addDescriptor ms dev desc 0 (UInt32.ofNat entries.length) W.session
      with ⟨_ | _, s'⟩
    · rw [hd] at h; cases h
    · have hs : (W.exec ms dev (.addDescriptor desc 0 (UInt32.ofNat entries.length))).session =
          s' := by simp only [World.exec, hd]
      rw [hs]
      exact ⟨Nat.lt_of_not_le hn, addDescriptor_ok ms dev hd, rfl⟩

/-- **A successful import is a run of the wallet's API in which every index is in range**: from
    a wallet with fewer than `2^32` descriptors, it ends where `add_descriptor` over `[0, n)` and
    then the `add_address` calls of its entries end, each at an index inside `[0, n)`. -/
theorem importIcboc_run (desc : Desc) (entries : List (List UInt8)) (W : World Desc PublicKey)
    (hlen : W.session.wallet.descriptors.length < 2 ^ 32)
    (h : (importIcboc ms dev desc entries W.session).1 = .ok ()) :
    ∃ W', Run ms dev allocInRange W W' ∧
      W'.session = (importIcboc ms dev desc entries W.session).2 := by
  obtain ⟨hn, hds, he⟩ := importIcboc_of_ok ms dev h
  set W₁ := W.exec ms dev (.addDescriptor desc 0 (UInt32.ofNat entries.length))
  have hreg : Registered (UInt32.ofNat W.session.wallet.descriptors.length)
      (UInt32.ofNat entries.length) W₁ := by
    refine ⟨⟨desc, 0, UInt32.ofNat entries.length, 0⟩, ?_, rfl, rfl⟩
    rw [hds, u32_toNat_ofNat, Nat.mod_eq_of_lt hlen, List.getElem?_concat_length]
  rw [he] at h ⊢
  exact ⟨_, (Run.step _ .refl trivial).trans ms dev
    (entryCalls_run ms dev _ (by omega) 0 entries W₁ hreg (by simp)),
    (importEntries_eq ms dev _ 0 entries W₁ h).symm⟩

/-- **After an import, every label lies in the range of its descriptor**, when the wallet was
    reached from `Wallet::new()` by calls whose indices all lie in range. -/
theorem importIcboc_addresses_in_range {r : List DerivationPath} {W : World Desc PublicKey}
    (hW : Run ms dev allocInRange (World.init r) W) (desc : Desc) (entries : List (List UInt8))
    (hlen : W.session.wallet.descriptors.length < 2 ^ 32)
    (h : (importIcboc ms dev desc entries W.session).1 = .ok ()) (spk : Script) (a : Address)
    (ha : (importIcboc ms dev desc entries W.session).2.wallet.addresses.get? spk = some a) :
    ∃ d, (importIcboc ms dev desc entries W.session).2.wallet.descriptors[a.descriptorIdx.toNat]?
      = some d ∧ d.low ≤ a.wildcardIdx ∧ a.wildcardIdx < d.high := by
  obtain ⟨W', hrun, hs⟩ := importIcboc_run ms dev desc entries W hlen h
  rw [← hs] at ha ⊢
  obtain ⟨d, hd, hlo, hhi, -⟩ := Labelled.of_run ms dev (hW.trans ms dev hrun) spk a ha
  exact ⟨d, hd, hlo, hhi⟩

/-! ## 4. A legacy wallet -/

/-- `plain` is an entry of a legacy wallet, decrypted, and `slot` what it holds. A blank entry is
    all zeros, as `EncryptedWallet::new` encrypts it; a written one is what `sign_and_encrypt` lays
    out for an entry whose user and note fit their fields, whose note has no zero byte and whose
    date is UTF-8 and not all zeros, and it holds that date and that note. -/
inductive LegacyEntry : List UInt8 → Option (RString × RString) → Prop
  | blank : LegacyEntry (List.replicate decryptedEntrySize 0) none
  | written (e : Entry) (sig : Bytes 64) {plain : List UInt8}
      (h : e.signAndEncryptInput sig = some plain) (huser : e.user.len ≤ 32)
      (hnote : e.note.len ≤ 80) (hzero : ∀ b ∈ e.note.bytes, b ≠ 0)
      (hdate : e.date.1 ≠ List.replicate 24 0) (hvalid : utf8Valid e.date.1 = true) :
      LegacyEntry plain (some (⟨e.date.1, hvalid⟩, e.note))

/-- The importer skips a blank entry and reads a written one's date and note. -/
theorem importEntry_legacy {plain : List UInt8} {slot : Option (RString × RString)}
    (h : LegacyEntry plain slot) (i : Nat) :
    importEntry i plain = slot.elim .unused fun p => .addAddress p.1 p.2 := by
  cases h with
  | blank => rw [importEntry, if_pos rfl]; rfl
  | written e sig h huser hnote hzero hdate hvalid =>
    rw [← Option.some.inj ((signAndEncryptInput_eq e sig huser hnote).symm.trans h)]
    exact importEntry_layout e sig i huser hzero hdate hvalid

omit [DecidableEq Desc] in
/-- The calls an import of the legacy entries `slots`, from entry `i` on, is to make:
    `add_address(desc_idx, Some(i), date, note)` for every written entry. -/
def legacyCalls (descIdx : UInt32) : Nat → List (Option (RString × RString)) → List (Call Desc)
  | _, [] => []
  | i, none :: slots => legacyCalls descIdx (i + 1) slots
  | i, some (time, notes) :: slots =>
    .addAddress descIdx (some (UInt32.ofNat i)) time notes :: legacyCalls descIdx (i + 1) slots

omit [DecidableEq Desc] in
theorem entryCalls_legacy (descIdx : UInt32) {plains : List (List UInt8)}
    {slots : List (Option (RString × RString))} (h : List.Forall₂ LegacyEntry plains slots) :
    ∀ i, (entryCalls descIdx i plains : List (Call Desc)) = legacyCalls descIdx i slots := by
  induction h with
  | nil => exact fun _ => rfl
  | @cons plain slot _ _ hx _ ih =>
    intro i
    rcases slot with _ | ⟨time, notes⟩ <;>
      simp only [entryCalls, legacyCalls, importEntry_legacy hx, Option.elim, ih]

omit [DecidableEq Desc] in
/-- On legacy entries the loop never fails on an entry. -/
theorem importEntries_legacy (descIdx : UInt32) {plains : List (List UInt8)}
    {slots : List (Option (RString × RString))} (h : List.Forall₂ LegacyEntry plains slots) :
    ∀ (i : Nat) (s : Session Desc PublicKey) (r : EntryImport),
    (importEntries ms dev descIdx i plains s).1 ≠ .error (.entry r) := by
  induction h with
  | nil => exact fun _ _ _ h => by cases h
  | @cons plain slot _ _ hx _ ih =>
    intro i s r
    rcases slot with _ | ⟨time, notes⟩
    · simp only [importEntries, importEntry_legacy hx, Option.elim]
      exact ih (i + 1) s r
    · simp only [importEntries, importEntry_legacy hx, Option.elim]
      rcases addAddress ms dev descIdx (some (UInt32.ofNat i)) time notes s with ⟨_ | _, s'⟩
      · exact fun h => by cases h
      · exact ih (i + 1) s' r

/-- **Importing a legacy wallet.** On the decrypted entries of an ICBOC 1D wallet, each blank or
    laid out by `sign_and_encrypt` from an entry whose user and note fit their fields, whose note
    has no zero byte and whose date is UTF-8 and not all zeros, `ImportIcboc::execute` never fails
    on an entry: only on their count, in `add_descriptor` or in `add_address`. When it succeeds,
    it ends where `add_descriptor(desc, 0, n)` and then `add_address(desc_idx, Some(i), date,
    note)` for every written entry `i`, in order, end. -/
theorem importIcboc_legacy (desc : Desc) {entries : List (List UInt8)}
    {slots : List (Option (RString × RString))} (hl : List.Forall₂ LegacyEntry entries slots)
    (W : World Desc PublicKey) :
    (∀ r, (importIcboc ms dev desc entries W.session).1 ≠ .error (.entry r)) ∧
    ((importIcboc ms dev desc entries W.session).1 = .ok () →
      (importIcboc ms dev desc entries W.session).2 =
        ((W.exec ms dev (.addDescriptor desc 0 (UInt32.ofNat entries.length))).execAll ms dev
          (legacyCalls (UInt32.ofNat W.session.wallet.descriptors.length) 0 slots)).session) := by
  refine ⟨fun r => ?_, fun h => ?_⟩
  · unfold importIcboc
    split
    · exact fun h => by cases h
    · split
      · exact fun h => by cases h
      · exact importEntries_legacy ms dev _ hl 0 _ r
  · obtain ⟨-, -, he⟩ := importIcboc_of_ok ms dev h
    rw [he] at h ⊢
    rw [importEntries_eq ms dev _ 0 entries _ h, entryCalls_legacy _ hl]

end Loop

/-- The plaintext `sign_and_encrypt` lays out for `sampleEntry` under a signature of ones. -/
def sampleLayout : List UInt8 := sampleEntry.layout ⟨List.replicate 64 1, List.length_replicate _ _⟩

/-- The date and the note the importer reads from `sampleLayout`. -/
def sampleSlot : RString × RString := (⟨sampleEntry.date.1, by decide⟩, sampleEntry.note)

theorem legacyEntry_sampleLayout : LegacyEntry sampleLayout (some sampleSlot) :=
  .written sampleEntry _ (signAndEncryptInput_eq sampleEntry _ (by decide) (by decide))
    (by decide) (by decide) (by decide) (by decide) (by decide)

/-- A written entry, then a blank one. -/
def sampleEntries : List (List UInt8) := [sampleLayout, List.replicate decryptedEntrySize 0]

theorem importIcboc_legacy_sample :
    List.Forall₂ LegacyEntry sampleEntries [some sampleSlot, none] ∧
    (∀ r, (importIcboc refMiniscript refDevice 0 sampleEntries
        (World.init [] : World Nat DerivationPath).session).1 ≠ .error (.entry r)) ∧
    ((importIcboc refMiniscript refDevice 0 sampleEntries
        (World.init [] : World Nat DerivationPath).session).1 = .ok () →
      (importIcboc refMiniscript refDevice 0 sampleEntries
        (World.init [] : World Nat DerivationPath).session).2 =
        (((World.init [] : World Nat DerivationPath).exec refMiniscript refDevice
          (.addDescriptor 0 0 (UInt32.ofNat sampleEntries.length))).execAll refMiniscript refDevice
          (legacyCalls (UInt32.ofNat
            (World.init [] : World Nat DerivationPath).session.wallet.descriptors.length)
            0 [some sampleSlot, none])).session) :=
  have hl : List.Forall₂ LegacyEntry sampleEntries [some sampleSlot, none] :=
    .cons legacyEntry_sampleLayout (.cons .blank .nil)
  ⟨hl, importIcboc_legacy refMiniscript refDevice 0 hl (World.init [])⟩

set_option maxRecDepth 20000 in
theorem importIcboc_addresses_in_range_sample :
    Run refMiniscript refDevice allocInRange (World.init []) (World.init []) ∧
    (World.init [] : World Nat DerivationPath).session.wallet.descriptors.length < 2 ^ 32 ∧
    (importIcboc refMiniscript refDevice 0 sampleEntries
      (World.init [] : World Nat DerivationPath).session).1 = .ok () ∧
    (importIcboc refMiniscript refDevice 0 sampleEntries
      (World.init [] : World Nat DerivationPath).session).2.wallet.addresses.get? ⟨[0, 0]⟩ =
      some (Address.new 0 0 sampleSlot.1 sampleSlot.2) ∧
    ∃ d, (importIcboc refMiniscript refDevice 0 sampleEntries
        (World.init [] : World Nat DerivationPath).session).2.wallet.descriptors[
          (Address.new 0 0 sampleSlot.1 sampleSlot.2).descriptorIdx.toNat]? = some d ∧
      d.low ≤ (Address.new 0 0 sampleSlot.1 sampleSlot.2).wildcardIdx ∧
      (Address.new 0 0 sampleSlot.1 sampleSlot.2).wildcardIdx < d.high := by
  have h : (importIcboc refMiniscript refDevice 0 sampleEntries
      (World.init [] : World Nat DerivationPath).session).1 = .ok () := rfl
  have ha : (importIcboc refMiniscript refDevice 0 sampleEntries
      (World.init [] : World Nat DerivationPath).session).2.wallet.addresses.get? ⟨[0, 0]⟩ =
      some (Address.new 0 0 sampleSlot.1 sampleSlot.2) := rfl
  exact ⟨.refl, by decide, h, ha,
    importIcboc_addresses_in_range refMiniscript refDevice .refl 0 sampleEntries (by decide) h _ _ ha⟩

end Icboc

end Icebox
