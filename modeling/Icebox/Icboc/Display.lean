import Icebox.Icboc.Audit

/-!
# How an entry is shown

`impl fmt::Display for Entry` writes the audit log entry a user sees. The source comment states
its intent: for an unused key it writes `[unused]` and stops, so that the address is not exposed
before a signed entry is created for it. It reads the date with `str::from_utf8(..).unwrap()`,
which `decrypt_and_verify` never checked:

* `Shown`, `FullEntry.display` -- the lines it writes, each a label and a value (the `Display` of
  numbers, addresses and hashes belongs to the crates), or `none` where the `unwrap` panics;
  `display_eq_none_iff`: it panics exactly on an entry that is not `Unused` and whose date is not
  UTF-8;
* **`lookupEntry_display_none_iff`** -- an entry that `lookup` returns, whatever its signature,
  panics when shown exactly when the date of its plaintext is neither blank nor UTF-8: the check
  `Display` relies on is made nowhere on the way;
* **`lookupEntry_address_shown`** -- an address is shown only for an entry looked up from a
  plaintext whose date is not blank: one that a signed entry was written to.
-/

namespace Icebox

namespace Icboc

/-- A line of `impl fmt::Display for Entry`: a fixed text, or a label and the value it shows. -/
inductive Shown (Addr : Type)
  /-- A line of fixed text. -/
  | text (s : String)
  /-- `"   index: {}"`. -/
  | index (n : Nat)
  /-- `" address: {}"`. -/
  | address (a : Addr)
  /-- `"    txid: {}"`, the hash of the txid bytes. -/
  | txid (t : Bytes 32)
  /-- `"    vout: {}"`. -/
  | vout (v : UInt32)
  /-- `"  amount: {}"`. -/
  | amount (a : UInt64)
  /-- `"   spent: {}"`. -/
  | spent (b : Bool)
  /-- `" created: {}"`, the date as a string. -/
  | created (date : RString)
  /-- `" (after): {}"`, the hash of the blockhash bytes. -/
  | after (blockhash : Bytes 32)
  /-- `"    user: {}"`. -/
  | user (s : RString)
  /-- `"    note: {}"`. -/
  | note (s : RString)

/-- The first line of an entry that is not unused. -/
def stateLine (state : EntryState) : String :=
  match state with
  | .unused => "[unused]"
  | .invalid => "**** INVALID SIGNATURE **** :"
  | .valid => "Signed Entry (unused):"
  | .received => "Signed Entry (used):"

/-- `impl fmt::Display for Entry`: the lines it writes, or `none` where
    `str::from_utf8(&self.date[..]).unwrap()` panics. -/
def FullEntry.display {Addr : Type} (fe : FullEntry Addr) : Option (List (Shown Addr)) :=
  if fe.state = .unused then some [.text "[unused]"]
  else
    let txLines : List (Shown Addr) :=
      if fe.state ≠ .received then [.text "    txid: no associated output"]
      else [.txid fe.fields.txid, .vout fe.fields.vout, .amount fe.fields.amount,
        .spent fe.fields.spent]
    match RString.fromUtf8 fe.fields.date.1 with
    | none => none
    | some date =>
      some ([.text (stateLine fe.state), .index fe.index, .address fe.address] ++ txLines ++
        [.created date, .after fe.fields.blockhash, .user fe.fields.user, .note fe.fields.note])

section Display

variable {PublicKey Addr : Type}

/-- Showing an entry panics exactly on a date that is not UTF-8, unless the entry is `Unused`. -/
theorem display_eq_none_iff (fe : FullEntry Addr) :
    fe.display = none ↔ fe.state ≠ .unused ∧ utf8Valid fe.fields.date.1 = false := by
  unfold FullEntry.display
  split
  · rename_i hu
    simp only [reduceCtorEq, false_iff, not_and]
    exact fun h => absurd hu h
  · rename_i hu
    dsimp only
    rcases hd : RString.fromUtf8 fe.fields.date.1 with _ | date
    · unfold RString.fromUtf8 at hd
      split at hd
      · cases hd
      · exact iff_of_true rfl ⟨hu, Bool.eq_false_iff.mpr ‹_›⟩
    · refine iff_of_false (fun h => Option.noConfusion h) fun ⟨_, hf⟩ => ?_
      rw [← RString.fromUtf8_eq_some.mp hd, date.valid] at hf
      cases hf

example :
    (⟨.invalid, [], (), 0, { blankEntry with date := ⟨List.replicate 24 0xff, rfl⟩ }⟩ :
      FullEntry Unit).display = none :=
  rfl

variable (L : Ledger PublicKey) (P : Primitives PublicKey Addr)

/-- **A looked-up entry panics when shown exactly when its date is neither blank nor UTF-8.**
    `decrypt_and_verify` reads the date without checking it, so `lookup` returns such an entry,
    whatever its signature, and `Display` then panics on it; an entry whose date is UTF-8 or blank
    is shown. -/
theorem lookupEntry_display_none_iff {w : EncryptedWallet} {i : Nat} {fe : FullEntry Addr}
    (hfe : lookupEntry L P w i = .ok fe) :
    fe.display = none ↔ ∃ p, plaintextAt L P w i = some p ∧
      (p.1.drop 164).take 24 ≠ List.replicate 24 0 ∧ utf8Valid ((p.1.drop 164).take 24) = false := by
  obtain ⟨p, v, hp, hr⟩ := lookupEntry_eq_ok L P hfe
  have hq : ∀ q, plaintextAt L P w i = some q → q = p := fun q hq => Option.some.inj (hq.symm.trans hp)
  rw [display_eq_none_iff]
  by_cases hu : fe.state = .unused
  · refine iff_of_false (fun h => h.1 hu) fun ⟨q, hq', hne, _⟩ => ?_
    obtain rfl := hq q hq'
    rcases readEntry_eq_ok hr with ⟨hz, -, -⟩ | ⟨-, hs, -⟩
    · exact hne (by simpa using (all_eq_zero_iff _).mp hz)
    · rw [hu, stateOf] at hs
      split_ifs at hs
  · obtain ⟨hreads, -, -, hdate⟩ := readEntry_fields hr hu
    rw [hreads.date] at hdate ⊢
    exact ⟨fun ⟨_, hv⟩ => ⟨p, hp, hdate, hv⟩, fun ⟨q, hq', _, hv⟩ => ⟨hu, hq q hq' ▸ hv⟩⟩

/-- `blankSession` after entry 0 is labelled with the date bytes `ff ff … ff`, which are not
    UTF-8. -/
def badDateSession : LegacySession :=
  (update zeroLedger plainPrimitives 0 ⟨[], rfl⟩ ⟨List.replicate 32 0, rfl⟩ (.unused ⟨[], rfl⟩)
    ⟨List.replicate 24 0xff, rfl⟩ blankSession).2

set_option maxRecDepth 20000 in
theorem lookupEntry_display_none_iff_sample : ∃ fe,
    lookupEntry zeroLedger plainPrimitives badDateSession.wallet 0 = .ok fe ∧
    (fe.display = none ↔ ∃ p, plaintextAt zeroLedger plainPrimitives badDateSession.wallet 0 = some p ∧
      (p.1.drop 164).take 24 ≠ List.replicate 24 0 ∧
      utf8Valid ((p.1.drop 164).take 24) = false) := by
  refine ⟨?fe, ?hfe, lookupEntry_display_none_iff zeroLedger plainPrimitives ?hfe⟩
  case hfe => exact rfl

/-- The address is shown only for an entry that is not `Unused`, and it is the entry's own. -/
theorem address_shown {fe : FullEntry Addr} {lines : List (Shown Addr)} {a : Addr}
    (h : fe.display = some lines) (ha : Shown.address a ∈ lines) :
    fe.state ≠ .unused ∧ a = fe.address := by
  unfold FullEntry.display at h
  split at h
  · cases h
    simp at ha
  · rename_i hu
    dsimp only at h
    split at h
    · cases h
    · cases h
      refine ⟨hu, ?_⟩
      split at ha <;> simp at ha <;> exact ha

/-- **The address of an entry is shown only once a signed entry was written to it.** When `lookup`
    returns an entry whose display shows an address, that address is the entry's, and the
    plaintext it was read from has a date that is not all zeros. -/
theorem lookupEntry_address_shown {w : EncryptedWallet} {i : Nat} {fe : FullEntry Addr}
    {lines : List (Shown Addr)} {a : Addr} (hfe : lookupEntry L P w i = .ok fe)
    (h : fe.display = some lines) (ha : Shown.address a ∈ lines) :
    a = fe.address ∧ ∃ p, plaintextAt L P w i = some p ∧
      (p.1.drop 164).take 24 ≠ List.replicate 24 0 := by
  obtain ⟨hu, rfl⟩ := address_shown h ha
  obtain ⟨p, v, hp, hr⟩ := lookupEntry_eq_ok L P hfe
  obtain ⟨hreads, -, -, hdate⟩ := readEntry_fields hr hu
  exact ⟨rfl, p, hp, hreads.date ▸ hdate⟩

set_option maxRecDepth 20000 in
theorem lookupEntry_address_shown_sample : ∃ fe lines,
    lookupEntry zeroLedger plainPrimitives labelledSession.wallet 0 = .ok fe ∧
    fe.display = some lines ∧ Shown.address () ∈ lines ∧
    () = fe.address ∧ ∃ p, plaintextAt zeroLedger plainPrimitives labelledSession.wallet 0 = some p ∧
      (p.1.drop 164).take 24 ≠ List.replicate 24 0 := by
  refine ⟨?fe, ?lines, ?hfe, ?h, ?ha,
    lookupEntry_address_shown zeroLedger plainPrimitives ?hfe ?h ?ha⟩
  case hfe => exact rfl
  case h => exact rfl
  case ha => exact .tail _ (.tail _ (.head _))

end Display

end Icboc

end Icebox
