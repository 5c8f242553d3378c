import Icebox.Icboc.Audit

/-!
# What the legacy wallet writes, it reads back

Under a Ledger that signs with the key it reports (`Honest`), an entry that `sign_and_encrypt`
wrote decrypts, verifies and reads back as it was written. This is what makes the audit log mean
something, and it shows what the operations that write leave for the next lookup:

* `decryptAndVerify_signAndEncrypt` -- the round trip through the Ledger's signature, AES-CTR and
  the entry layout, for an entry whose user and note fit their fields and whose date is not all
  zeros; the user and the note come back padded with zeros to their widths;
* **`lookupEntry_update`** -- after `update`, `lookup` returns the entry `update` returned;
* **`lookupEntry_markSpent`** -- after `mark_spent` of an entry that is not blank, `lookup`
  returns its fields with the spent flag set, and the state its trusted input gives: `mark_spent`
  never looks at the state, so an entry whose signature failed is signed anew and reads `Valid`
  or `Received`;
* **`markSpent_blank_imported`** -- `mark_spent` of a blank entry leaves an entry that the legacy
  wallet still reads as `Unused`, but that `importicboc` imports, with a time of 24 zero bytes.
-/

namespace Icebox

namespace Icboc

section Readback

variable {PublicKey Addr : Type} (L : Ledger PublicKey) (P : Primitives PublicKey Addr)

/-! ## 1. What `sign_and_encrypt` writes is read back -/

/-- The Ledger signs with the key it reports: a signature it makes for a path verifies under the
    public key of that path. -/
def Honest : Prop :=
  ∀ msg path key sig, L.getPublicKey path = .ok key → L.signMessage msg path = .ok sig →
    P.verify sig msg key.publicKey = some true

/-- **A block `sign_and_encrypt` wrote reads back** under an honest Ledger, for an entry whose user
    and note fit their fields and whose date is not all zeros: the signature verifies, and every
    field comes back, the user and the note padded with zeros to their widths. -/
theorem decryptAndVerify_signAndEncrypt (hL : Honest L P) {network : Network} {account : UInt32}
    {e : Entry} {index draws draws' : Nat} {block : Bytes encryptedEntrySize}
    {key : KeyInfo PublicKey} {a : Addr} (huser : e.user.len ≤ 32) (hnote : e.note.len ≤ 80)
    (hdate : e.date.1 ≠ List.replicate 24 0)
    (hk : L.getPublicKey (bip32Path network account .address (UInt32.ofNat index)) = .ok key)
    (ha : P.addressFromStr key.b58Address = some a)
    (h : signAndEncrypt L P network account e index draws = (.ok block, draws')) :
    decryptAndVerify L P network account index block =
      .ok ⟨stateOf true e.trustedInput, bip32Path network account .address (UInt32.ofNat index),
        a, index, e.padded⟩ := by
  obtain ⟨sig, hsig, hd⟩ := signAndEncrypt_eq_ok L P huser hnote h
  have hsub : subBytes ⟨e.layout sig, length_layout e sig huser hnote⟩ 0 64 (by decide) = sig :=
    Subtype.ext (by simp only [subBytes, List.drop_zero]; rw [layout_eq_append, List.take_left' sig.2])
  have hmsg : (e.layout sig).drop 64 = (e.layout zeroSig).drop 64 := by
    rw [layout_eq_append e sig, List.drop_left' sig.2]
  have hv : P.verify (subBytes ⟨e.layout sig, length_layout e sig huser hnote⟩ 0 64 (by decide))
      ((e.layout sig).drop 64) key.publicKey = some true := by
    rw [hsub, hmsg]; exact hL _ _ key sig hk hsig
  rw [decryptAndVerify_eq L P hd hk hv ha, readEntry_layout e sig true huser hnote hdate]
  rfl

theorem updateFields_note_len (hdisp : ∀ t, (P.displayTxid t).len ≤ 70) {data : Update}
    {f : EntryState × RString × Bytes 56 × Bytes 32 × UInt32 × UInt64}
    (h : updateFields L P data = .ok f) : f.2.1.len ≤ 80 := by
  unfold updateFields at h
  split at h
  · split at h
    · cases h
    · cases h
      exact Nat.le_of_not_lt ‹_›
  · split at h
    · cases h
    · split at h
      · cases h
      · cases h
        rw [changeNote_len]
        exact Nat.add_le_add_left (hdisp _) 10

theorem lookupEntry_setEntry {w w' : EncryptedWallet} {index : Nat}
    {block : Bytes encryptedEntrySize} (h : w.setEntry index block = .ok w') :
    lookupEntry L P w' index = decryptAndVerify L P w.network w.account index block := by
  unfold EncryptedWallet.setEntry at h
  split at h
  · cases h
    simp only [lookupEntry, List.length_set, dif_neg (by omega : ¬index + 1 > w.entries.length),
      List.get_eq_getElem, List.getElem_set_self]
  · cases h

/-- **What `update` writes, `lookup` reads back**, under an honest Ledger, at a time that is not
    all zeros and with txids that display in at most 70 bytes (they display as 64 hex digits):
    the entry `update` returned, its user and note padded with zeros to their widths, and the state
    its trusted input gives, `Valid` after `Update::Unused`. -/
theorem lookupEntry_update (hL : Honest L P) (hdisp : ∀ t, (P.displayTxid t).len ≤ 70)
    {index : Nat} {user : RString} {blockhash : Bytes 32} {data : Update} {timestr : Bytes 24}
    {s s' : LegacySession} {fe : FullEntry Addr} (htime : timestr.1 ≠ List.replicate 24 0)
    (h : update L P index user blockhash data timestr s = (.ok fe, s')) :
    lookupEntry L P s'.wallet index =
      .ok { fe with state := stateOf true fe.fields.trustedInput, fields := fe.fields.padded } := by
  unfold update at h
  split at h
  · cases h
  rename_i huser
  rcases hk : L.getPublicKey (bip32Path s.wallet.network s.wallet.account .address
    (UInt32.ofNat index)) with _ | key
  · simp only [hk] at h; cases h
  rcases hf : updateFields L P data with _ | ⟨st, note, ti, txid, vout, amount⟩
  · simp only [hk, hf] at h; cases h
  rcases ha : P.addressFromStr key.b58Address with _ | a
  · simp only [hk, hf, ha] at h; cases h
  simp only [hk, hf, ha] at h
  split at h
  · cases h
  rename_i block d hs
  split at h
  · cases h
  rename_i w' hw
  cases h
  rw [lookupEntry_setEntry L P hw]
  exact decryptAndVerify_signAndEncrypt L P hL (Nat.le_of_not_lt huser)
    (updateFields_note_len L P hdisp hf) htime hk ha hs

set_option maxRecDepth 20000 in
theorem lookupEntry_update_sample : ∃ fe s',
    Honest zeroLedger plainPrimitives ∧ (∀ t, (plainPrimitives.displayTxid t).len ≤ 70) ∧
    update zeroLedger plainPrimitives 0 ⟨[], rfl⟩ ⟨List.replicate 32 0, rfl⟩ (.unused ⟨[], rfl⟩)
      ⟨List.replicate 24 0x31, rfl⟩ blankSession = (.ok fe, s') ∧
    lookupEntry zeroLedger plainPrimitives s'.wallet 0 =
      .ok { fe with state := stateOf true fe.fields.trustedInput, fields := fe.fields.padded } := by
  refine ⟨?fe, ?s', fun _ _ _ _ _ _ => rfl, fun _ => Nat.zero_le _, ?h,
    lookupEntry_update zeroLedger plainPrimitives (fun _ _ _ _ _ _ => rfl) (fun _ => Nat.zero_le _)
      (by decide) ?h⟩
  case h => exact rfl

/-! ## 2. `mark_spent` -/

/-- **`mark_spent` re-signs what it read, whatever its state.** Under an honest Ledger, after
    `mark_spent` of an entry that did not read `Unused`, `lookup` returns the same entry with the
    spent flag set and the state its trusted input gives: `Valid` or `Received`, never `Invalid`,
    even when its signature did not verify before. -/
theorem lookupEntry_markSpent (hL : Honest L P) {index : Nat} {s s' : LegacySession}
    {fe : FullEntry Addr} (hfe : lookupEntry L P s.wallet index = .ok fe) (hu : fe.state ≠ .unused)
    (h : markSpent L P index s = (.ok (), s')) :
    lookupEntry L P s'.wallet index = .ok { fe with
      state := stateOf true fe.fields.trustedInput
      fields := { fe.fields with spent := true } } := by
  have hfe' := hfe
  unfold lookupEntry at hfe'
  split at hfe'
  · cases hfe'
  obtain ⟨data, v, key, -, hk, ha, hr, hpath, hidx⟩ := decryptAndVerify_eq_ok L P hfe'
  obtain ⟨-, huser, hnote, hdate⟩ := readEntry_fields hr hu
  unfold markSpent at h
  simp only [hfe] at h
  split at h
  · cases h
  rename_i block d hs
  split at h
  · cases h
  rename_i w' hw
  cases h
  have hpad : ({ fe.fields with spent := true } : Entry).padded = { fe.fields with spent := true } :=
    Entry.padded_of_len huser hnote
  rw [lookupEntry_setEntry L P hw, decryptAndVerify_signAndEncrypt L P hL
    (show ({ fe.fields with spent := true } : Entry).user.len ≤ 32 from huser.le)
    (show ({ fe.fields with spent := true } : Entry).note.len ≤ 80 from hnote.le) hdate hk ha hs,
    hpad, ← hpath, ← hidx]

set_option maxRecDepth 20000 in
theorem lookupEntry_markSpent_sample : ∃ fe s',
    Honest zeroLedger plainPrimitives ∧
    lookupEntry zeroLedger plainPrimitives labelledSession.wallet 0 = .ok fe ∧ fe.state ≠ .unused ∧
    markSpent zeroLedger plainPrimitives 0 labelledSession = (.ok (), s') ∧
    lookupEntry zeroLedger plainPrimitives s'.wallet 0 = .ok { fe with
      state := stateOf true fe.fields.trustedInput
      fields := { fe.fields with spent := true } } := by
  refine ⟨?fe, ?s', fun _ _ _ _ _ _ => rfl, ?hfe, ?hu, ?h,
    lookupEntry_markSpent zeroLedger plainPrimitives (fun _ _ _ _ _ _ => rfl) ?hfe ?hu ?h⟩
  case hfe => exact rfl
  case hu => decide
  case h => exact rfl

/-- A blank entry marked spent, as the importer reads it: not all zeros (its spent flag is 1),
    dated 24 zero bytes, with empty notes. -/
theorem importEntry_blank_spent (i : Nat) (sig : Bytes 64) :
    importEntry i ({ blankEntry with spent := true }.layout sig) =
      .addAddress ⟨List.replicate 24 0, by decide⟩ ⟨[], rfl⟩ := by
  have hnotes := layout_notes { blankEntry with spent := true } sig (by decide)
  have hne : { blankEntry with spent := true }.layout sig ≠ List.replicate decryptedEntrySize 0 :=
    fun hz => absurd (hz ▸ hnotes) (by decide)
  simp only [importEntry, if_neg hne, layout_date, hnotes]
  rfl

/-- **A blank entry marked spent: the legacy wallet and the importer disagree.** After
    `mark_spent` of an entry that reads `Unused`, the legacy wallet still reads it as `Unused` (its
    date is all zeros), but its plaintext is no longer all zeros, so `importicboc` turns it into an
    `add_address` whose time is 24 zero bytes and whose notes are empty. -/
theorem markSpent_blank_imported {index : Nat} {s s' : LegacySession} {fe : FullEntry Addr}
    (hfe : lookupEntry L P s.wallet index = .ok fe) (hu : fe.state = .unused)
    (h : markSpent L P index s = (.ok (), s')) :
    (∀ fe', lookupEntry L P s'.wallet index = .ok fe' → fe'.state = .unused) ∧
    ∃ p, plaintextAt L P s'.wallet index = some p ∧
      importEntry index p.1 = .addAddress ⟨List.replicate 24 0, by decide⟩ ⟨[], rfl⟩ := by
  obtain ⟨p₀, v, -, hr⟩ := lookupEntry_eq_ok L P hfe
  have hb : fe.fields = blankEntry := by
    rcases readEntry_eq_ok hr with ⟨-, -, hb⟩ | ⟨-, hs, -⟩
    · exact hb
    · rw [hu, stateOf] at hs
      split_ifs at hs
  unfold markSpent at h
  simp only [hfe, hb] at h
  split at h
  · cases h
  rename_i block d hs
  split at h
  · cases h
  rename_i w' hw
  cases h
  obtain ⟨sig, -, hd⟩ := signAndEncrypt_eq_ok L P (by decide) (by decide) hs
  obtain ⟨hlt, hw'⟩ := setEntry_eq_ok hw
  refine ⟨fun fe' hl => ?_, _, plaintextAt_of_decrypt L P
    (by rw [hw']; exact List.getElem?_set_self hlt) (by rw [hw']; exact hd), importEntry_blank_spent _ _⟩
  rw [lookupEntry_setEntry L P hw] at hl
  obtain ⟨data, v', -, hd', -, -, hr', -⟩ := decryptAndVerify_eq_ok L P hl
  rw [hd, Except.ok.injEq] at hd'
  subst hd'
  rcases readEntry_eq_ok hr' with ⟨-, hs', -⟩ | ⟨hz, -, -⟩
  · exact hs'
  · rw [layout_date] at hz
    exact absurd hz (by decide)

set_option maxRecDepth 20000 in
theorem markSpent_blank_imported_sample : ∃ fe s',
    lookupEntry zeroLedger plainPrimitives blankSession.wallet 0 = .ok fe ∧ fe.state = .unused ∧
    markSpent zeroLedger plainPrimitives 0 blankSession = (.ok (), s') ∧
    (∀ fe', lookupEntry zeroLedger plainPrimitives s'.wallet 0 = .ok fe' → fe'.state = .unused) ∧
    ∃ p, plaintextAt zeroLedger plainPrimitives s'.wallet 0 = some p ∧
      importEntry 0 p.1 = .addAddress ⟨List.replicate 24 0, by decide⟩ ⟨[], rfl⟩ := by
  refine ⟨?fe, ?s', ?hfe, ?hu, ?h, markSpent_blank_imported zeroLedger plainPrimitives ?hfe ?hu ?h⟩
  case hfe => exact rfl
  case hu => rfl
  case h => exact rfl

end Readback

end Icboc

end Icebox
