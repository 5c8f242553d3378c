import Icebox.Icboc.Import

/-!
# Reading a legacy entry back: `Entry::decrypt_and_verify`

`Entry::decrypt_and_verify` (`wallet.rs`) decrypts an entry, checks the signature in its first 64
bytes and reads the fields back from the offsets `sign_and_encrypt` wrote them at. This file is the
reading, from the decrypted bytes and the outcome of the signature check:

* `readEntry` -- an entry whose date is all zeros is `Unused` and nothing else of it is read;
  otherwise every field is read at its offset, the user and the note as the whole of their
  zero-padded fields, and the state is `Invalid`, `Valid` or `Received` by the signature and the
  trusted input;
* `readEntry_eq_ok` -- what a successful read gives: `ReadsAs`, each field at its offset;
* `readEntry_layout` -- reading back what `sign_and_encrypt` laid out gives every field, the user
  and the note padded with zeros to their widths (`Entry.padded`);
* `layout_of_readsAs` -- laying out an entry that was read, with new values for the receive record
  (trusted input, txid, vout, amount) and the spent flag, rewrites bytes 164 to 332 as they were.
  This is what `mark_spent` and `receive` do, and why they keep the date, the user and the note.
-/

namespace Icebox

namespace Icboc

/-- The `error::Error` values of the legacy wallet. `error.rs` is not under `src/`: these are the
    variants `wallet.rs` names, with their payloads. -/
inductive LegacyError
  | walletWrongSize (size : Nat)
  | walletWrongMagic (magic : UInt64)
  | walletFull
  | entryOutOfRange (index : Nat)
  | addressNotFound
  | userIdTooLong (len max : Nat)
  | noteTooLong (len max : Nat)
  | badSignature
  | doubleReceive
  | insufficientFunds (found needed : Nat)
  /-- `From<FromUtf8Error>`: the bytes that are not UTF-8. -/
  | utf8 (bytes : List UInt8)
  /-- `Error::Dongle`: what the Ledger reports, passed on by `?`. -/
  | dongle (code : Nat)
  /-- The signature bytes do not parse (`convert_compact_to_secp`). -/
  | secp
  /-- `Address::from_str` rejects the address the Ledger gives. -/
  | address
  /-- The file system fails. -/
  | io
  /-- A slice or an index out of bounds, or `unwrap` on `None`: the process aborts. -/
  | panic
deriving DecidableEq

/-! ## 1. Numbers and slices -/

/-- `BigEndian::read_uN`: the bytes of the slice as a number, most significant first. -/
def beRead : List UInt8 → Nat
  | [] => 0
  | b :: bs => b.toNat * 256 ^ bs.length + beRead bs

theorem beRead_beBytes : ∀ n x, beRead (beBytes n x) = x % 256 ^ n
  | 0, x => by simp [beRead, beBytes, Nat.mod_one]
  | n + 1, x => by
    rw [beBytes, beRead, length_beBytes, beRead_beBytes n x, u8_toNat_ofNat, Nat.mod_pow_succ,
      Nat.add_comm, Nat.mul_comm]

theorem beRead_lt : ∀ l : List UInt8, beRead l < 256 ^ l.length
  | [] => Nat.one_pos
  | b :: bs => by
    have hb := u8_toNat_lt b
    have ih := beRead_lt bs
    rw [beRead, List.length_cons, Nat.pow_succ]
    nlinarith

/-- Multiples of `256 ^ n` do not reach the low `n` bytes. -/
theorem beBytes_add_mul : ∀ n y x, beBytes n (y * 256 ^ n + x) = beBytes n x
  | 0, _, _ => rfl
  | n + 1, y, x => by
    have hpos : 0 < 256 ^ n := Nat.pos_pow_of_pos _ (by decide)
    have hy : y * 256 ^ (n + 1) = y * 256 * 256 ^ n := by
      rw [Nat.pow_succ, Nat.mul_comm (256 ^ n) 256, Nat.mul_assoc]
    have hhead : UInt8.ofNat ((y * 256 ^ (n + 1) + x) / 256 ^ n) = UInt8.ofNat (x / 256 ^ n) := by
      rw [hy, Nat.add_comm, Nat.add_mul_div_right _ _ hpos]
      exact UInt8.toNat.inj (by rw [u8_toNat_ofNat, u8_toNat_ofNat, Nat.add_mul_mod_self_right])
    rw [beBytes, beBytes, hhead, hy, beBytes_add_mul n]

theorem beBytes_beRead : ∀ l : List UInt8, beBytes l.length (beRead l) = l
  | [] => rfl
  | b :: bs => by
    have hpos : 0 < 256 ^ bs.length := Nat.pos_pow_of_pos _ (by decide)
    have hdiv : (b.toNat * 256 ^ bs.length + beRead bs) / 256 ^ bs.length = b.toNat := by
      rw [Nat.add_comm, Nat.add_mul_div_right _ _ hpos, Nat.div_eq_of_lt (beRead_lt bs),
        Nat.zero_add]
    rw [List.length_cons, beBytes, beRead, hdiv, beBytes_add_mul, beBytes_beRead bs,
      u8_ofNat_toNat]

/-- `data[lo..lo + n]`, as a `[u8; n]`. -/
def subBytes {m : Nat} (data : Bytes m) (lo n : Nat) (h : lo + n ≤ m) : Bytes n :=
  ⟨(data.1.drop lo).take n, by simp only [List.length_take, List.length_drop, data.2]; omega⟩

/-- `slice.iter().all(|x| *x == 0)`. -/
theorem all_eq_zero_iff (l : List UInt8) :
    l.all (· == 0) = true ↔ l = List.replicate l.length 0 := by
  rw [List.all_eq_true, List.eq_replicate_iff]
  simp

/-! ## 2. The reading -/

/-- Whether an entry is in use (`EntryState`). -/
inductive EntryState
  /-- Entry is all zeroes. -/
  | unused
  /-- Entry is nonzero but has no associated txout. -/
  | valid
  /-- Entry is nonzero and has an associated txout. -/
  | received
  /-- Entry is nonzero but has an invalid signature. -/
  | invalid
deriving DecidableEq

/-- The fields of the `Entry` `decrypt_and_verify` returns for an unused entry. -/
def blankEntry : Entry where
  spent := false
  trustedInput := ⟨List.replicate 56 0, List.length_replicate _ _⟩
  txid := ⟨List.replicate 32 0, List.length_replicate _ _⟩
  vout := 0
  amount := 0
  date := ⟨List.replicate 24 0, List.length_replicate _ _⟩
  blockhash := ⟨List.replicate 32 0, List.length_replicate _ _⟩
  user := ⟨[], rfl⟩
  note := ⟨[], rfl⟩

/-- The state of an entry that is not blank: `Invalid` when the signature does not verify,
    otherwise `Valid` while the trusted input is all zeros and `Received` once it is not. -/
def stateOf (verified : Bool) (trustedInput : Bytes 56) : EntryState :=
  if verified then (if trustedInput.1.all (· == 0) then .valid else .received) else .invalid

/-- What `Entry::decrypt_and_verify` reads from the decrypted `data`, given whether the signature
    verified. -/
def readEntry (data : Bytes decryptedEntrySize) (verified : Bool) :
    Except LegacyError (EntryState × Entry) :=
  if ((data.1.drop 164).take 24).all (· == 0) then .ok (.unused, blankEntry)
  else
    let trustedInput := subBytes data 64 56 (by decide)
    match RString.fromUtf8 ((data.1.drop 220).take 32),
        RString.fromUtf8 ((data.1.drop 252).take 80) with
    | none, _ => .error (.utf8 ((data.1.drop 220).take 32))
    | some _, none => .error (.utf8 ((data.1.drop 252).take 80))
    | some user, some note =>
      .ok (stateOf verified trustedInput,
        { spent := beRead ((data.1.drop 332).take 4) == 1
          trustedInput := trustedInput
          txid := subBytes data 120 32 (by decide)
          vout := UInt32.ofNat (beRead ((data.1.drop 152).take 4))
          amount := UInt64.ofNat (beRead ((data.1.drop 156).take 8))
          date := subBytes data 164 24 (by decide)
          blockhash := subBytes data 188 32 (by decide)
          user := user
          note := note })

/-- A read fails only on a user or a note that is not UTF-8. -/
theorem readEntry_error {data : Bytes decryptedEntrySize} {verified : Bool} {e : LegacyError}
    (h : readEntry data verified = .error e) : ∃ bs, e = .utf8 bs := by
  unfold readEntry at h
  split at h
  · cases h
  · split at h
    · cases h
      exact ⟨_, rfl⟩
    · cases h
      exact ⟨_, rfl⟩
    · cases h

/-- `e` holds the fields of the decrypted entry `data`, each at its offset. -/
structure ReadsAs (data : List UInt8) (e : Entry) : Prop where
  trustedInput : e.trustedInput.1 = (data.drop 64).take 56
  txid : e.txid.1 = (data.drop 120).take 32
  vout : beBytes 4 e.vout.toNat = (data.drop 152).take 4
  amount : beBytes 8 e.amount.toNat = (data.drop 156).take 8
  date : e.date.1 = (data.drop 164).take 24
  blockhash : e.blockhash.1 = (data.drop 188).take 32
  user : e.user.bytes = (data.drop 220).take 32
  note : e.note.bytes = (data.drop 252).take 80
  spent : e.spent = (beRead ((data.drop 332).take 4) == 1)

/-- **What a read gives.** A blank date reads as the blank entry; otherwise the read fails only on
    a user or a note that is not UTF-8, and gives the state of the signature check and the trusted
    input, and every field at its offset. -/
theorem readEntry_eq_ok {data : Bytes decryptedEntrySize} {verified : Bool} {st : EntryState}
    {e : Entry} (h : readEntry data verified = .ok (st, e)) :
    (((data.1.drop 164).take 24).all (· == 0) = true ∧ st = .unused ∧ e = blankEntry) ∨
    (((data.1.drop 164).take 24).all (· == 0) = false ∧
      st = stateOf verified (subBytes data 64 56 (by decide)) ∧ ReadsAs data.1 e) := by
  have hlen : data.1.length = 336 := data.2
  have h4 : beBytes 4 (beRead ((data.1.drop 152).take 4) % 2 ^ 32) = (data.1.drop 152).take 4 := by
    have := beBytes_beRead ((data.1.drop 152).take 4)
    rwa [List.length_take, List.length_drop, hlen, ← Nat.mod_eq_of_lt (beRead_lt _),
      List.length_take, List.length_drop, hlen] at this
  have h8 : beBytes 8 (beRead ((data.1.drop 156).take 8) % 2 ^ 64) = (data.1.drop 156).take 8 := by
    have := beBytes_beRead ((data.1.drop 156).take 8)
    rwa [List.length_take, List.length_drop, hlen, ← Nat.mod_eq_of_lt (beRead_lt _),
      List.length_take, List.length_drop, hlen] at this
  unfold readEntry at h
  split at h
  · cases h
    exact .inl ⟨‹_›, rfl, rfl⟩
  · rename_i hdate
    split at h
    · cases h
    · cases h
    · rename_i user note hu hn
      cases h
      refine .inr ⟨Bool.eq_false_iff.mpr hdate, rfl, rfl, rfl, ?_, ?_, rfl, rfl,
        (RString.fromUtf8_eq_some.mp hu), (RString.fromUtf8_eq_some.mp hn), rfl⟩
      · simpa only [u32_toNat_ofNat] using h4
      · simpa only [u64_toNat_ofNat] using h8

/-! ## 3. Round trips -/

/-- Two adjacent slices are one. -/
theorem take_drop_append (l : List UInt8) {a b m n k : Nat} (hb : b = a + m) (hk : k = m + n) :
    (l.drop a).take m ++ (l.drop b).take n = (l.drop a).take k := by
  subst hb hk
  rw [List.take_add, List.drop_drop]

theorem ReadsAs.vout_eq {data : List UInt8} {e : Entry} (hr : ReadsAs data e) :
    UInt32.ofNat (beRead ((data.drop 152).take 4)) = e.vout := by
  have hlt : e.vout.toNat < 256 ^ 4 := u32_toNat_lt e.vout
  rw [← hr.vout, beRead_beBytes, Nat.mod_eq_of_lt hlt, u32_ofNat_toNat]

theorem ReadsAs.amount_eq {data : List UInt8} {e : Entry} (hr : ReadsAs data e) :
    UInt64.ofNat (beRead ((data.drop 156).take 8)) = e.amount := by
  have hlt : e.amount.toNat < 256 ^ 8 := u64_toNat_lt e.amount
  rw [← hr.amount, beRead_beBytes, Nat.mod_eq_of_lt hlt, u64_ofNat_toNat]

/-- **A read succeeds exactly on its fields**: on an entry whose date is not all zeros, when `e`
    holds its fields at their offsets, the read gives `e` and the state of its trusted input. -/
theorem readEntry_of_readsAs {data : Bytes decryptedEntrySize} {e : Entry}
    (hd : ((data.1.drop 164).take 24).all (· == 0) = false) (hr : ReadsAs data.1 e)
    (verified : Bool) : readEntry data verified = .ok (stateOf verified e.trustedInput, e) := by
  have hti : subBytes data 64 56 (by decide) = e.trustedInput := Subtype.ext hr.trustedInput.symm
  unfold readEntry
  rw [if_neg (by rw [hd]; decide), ← hr.user, ← hr.note, RString.fromUtf8_bytes,
    RString.fromUtf8_bytes, hti, hr.vout_eq, hr.amount_eq, ← hr.spent]
  obtain ⟨spent, ti, txid, vout, amount, date, bh, user, note⟩ := e
  simp only [subBytes, ← hr.txid, ← hr.date, ← hr.blockhash]

/-- The entry as `decrypt_and_verify` reads it back: its user and note padded to 32 and 80
    bytes. -/
def Entry.padded (e : Entry) : Entry :=
  { e with user := e.user.padTo 32, note := e.note.padTo 80 }

theorem Entry.padded_of_len {e : Entry} (hu : e.user.len = 32) (hn : e.note.len = 80) :
    e.padded = e := by
  simp only [Entry.padded, RString.padTo_of_le hu.ge, RString.padTo_of_le hn.ge]

/-- **What a read of an entry that is not blank gives**: its fields at their offsets, a user and a
    note as wide as their fields, and a date that is not all zeros. -/
theorem readEntry_fields {data : Bytes decryptedEntrySize} {verified : Bool} {st : EntryState}
    {e : Entry} (h : readEntry data verified = .ok (st, e)) (hu : st ≠ .unused) :
    ReadsAs data.1 e ∧ e.user.len = 32 ∧ e.note.len = 80 ∧ e.date.1 ≠ List.replicate 24 0 := by
  have hlen : data.1.length = decryptedEntrySize := data.2
  rcases readEntry_eq_ok h with ⟨-, hs, -⟩ | ⟨hz, -, hr⟩
  · exact absurd hs hu
  · refine ⟨hr, ?_, ?_, fun hd => ?_⟩
    · rw [RString.len, hr.user, List.length_take, List.length_drop, hlen]
      rfl
    · rw [RString.len, hr.note, List.length_take, List.length_drop, hlen]
      rfl
    · rw [← hr.date, hd] at hz
      exact absurd hz (by decide)

/-- The piece `i` of a concatenation starts at the sum of the widths before it. -/
theorem slice_flatten {ps : List (List UInt8)} {ws : List Nat} (hw : ps.map List.length = ws)
    (i : Nat) (hi : i < ws.length) :
    (ps.flatten.drop (ws.take i).sum).take (ws.getD i 0) = ps.getD i [] := by
  subst hw
  have hi' : i < ps.length := List.length_map ps _ ▸ hi
  rw [List.getD_eq_getElem _ _ hi, List.getElem_map, List.getD_eq_getElem _ _ hi',
    List.drop_sum_flatten, List.drop_eq_getElem_cons hi', List.flatten_cons, List.take_left]

/-- The ten pieces `sign_and_encrypt` copies into the plaintext, in order. -/
def Entry.pieces (e : Entry) (sig : Bytes 64) : List (List UInt8) :=
  [sig.1, e.trustedInput.1, e.txid.1, beBytes 4 e.vout.toNat, beBytes 8 e.amount.toNat, e.date.1,
    e.blockhash.1, e.user.bytes ++ List.replicate (32 - e.user.len) 0,
    e.note.bytes ++ List.replicate (80 - e.note.len) 0, beBytes 4 (if e.spent then 1 else 0)]

theorem layout_eq_flatten (e : Entry) (sig : Bytes 64) : e.layout sig = (e.pieces sig).flatten := by
  simp only [Entry.layout, Entry.pieces, List.flatten_cons, List.flatten_nil, List.append_nil,
    List.append_assoc]

/-- The split points of the layout: the widths of its pieces, whose running sums are the offsets
    `decrypt_and_verify` reads at. -/
theorem map_length_pieces (e : Entry) (sig : Bytes 64) (huser : e.user.len ≤ 32)
    (hnote : e.note.len ≤ 80) :
    (e.pieces sig).map List.length = [64, 56, 32, 4, 8, 24, 32, 32, 80, 4] := by
  simp only [Entry.pieces, List.map_cons, List.map_nil, List.length_append, List.length_replicate,
    length_beBytes, sig.2, e.trustedInput.2, e.txid.2, e.date.2, e.blockhash.2, RString.len] at *
  congr <;> omega

theorem length_layout (e : Entry) (sig : Bytes 64) (huser : e.user.len ≤ 32)
    (hnote : e.note.len ≤ 80) : (e.layout sig).length = decryptedEntrySize := by
  rw [layout_eq_flatten, List.length_flatten, map_length_pieces e sig huser hnote]
  rfl

/-- The fields of a laid-out entry sit at their offsets, the user and the note with their
    padding. -/
theorem layout_readsAs (e : Entry) (sig : Bytes 64) (huser : e.user.len ≤ 32)
    (hnote : e.note.len ≤ 80) : ReadsAs (e.layout sig) e.padded := by
  have piece := slice_flatten (map_length_pieces e sig huser hnote)
  have hflag : ((e.pieces sig).flatten.drop 332).take 4 = beBytes 4 (if e.spent then 1 else 0) :=
    piece 9 (by decide)
  rw [layout_eq_flatten]
  refine ⟨(piece 1 (by decide)).symm, (piece 2 (by decide)).symm, (piece 3 (by decide)).symm,
    (piece 4 (by decide)).symm, (piece 5 (by decide)).symm, (piece 6 (by decide)).symm,
    (piece 7 (by decide)).symm, (piece 8 (by decide)).symm, ?_⟩
  show e.spent = _
  rw [hflag]
  cases e.spent <;> rfl

/-- **`decrypt_and_verify` reads back what `sign_and_encrypt` laid out**, for every entry whose
    user and note fit their fields and whose date is not all zeros, and every signature: every
    field, the user and the note padded with zeros to their widths, and the state the signature
    check and the trusted input give. -/
theorem readEntry_layout (e : Entry) (sig : Bytes 64) (verified : Bool)
    (huser : e.user.len ≤ 32) (hnote : e.note.len ≤ 80) (hdate : e.date.1 ≠ List.replicate 24 0) :
    readEntry ⟨e.layout sig, length_layout e sig huser hnote⟩ verified =
      .ok (stateOf verified e.trustedInput, e.padded) := by
  have hr := layout_readsAs e sig huser hnote
  refine @readEntry_of_readsAs ⟨e.layout sig, length_layout e sig huser hnote⟩ e.padded ?_ hr
    verified
  rw [← hr.date]
  exact Bool.eq_false_iff.mpr fun h =>
    hdate (((all_eq_zero_iff _).mp h).trans (congrArg (List.replicate · 0) e.padded.date.2))

/-- **Laying out an entry that was read rewrites its bytes 164 to 332 as they were**: whatever
    receive record and spent flag it is given, the date, the blockhash, the user and the note land
    where they were read from. -/
theorem layout_of_readsAs {data : List UInt8} {e : Entry} (hlen : data.length = decryptedEntrySize)
    (hr : ReadsAs data e) (sig : Bytes 64) (ti : Bytes 56) (txid : Bytes 32) (vout : UInt32)
    (amount : UInt64) (spent : Bool) :
    { e with
        trustedInput := ti, txid := txid, vout := vout, amount := amount, spent := spent }.layout sig =
      sig.1 ++ ti.1 ++ txid.1 ++ beBytes 4 vout.toNat ++ beBytes 8 amount.toNat ++
        (data.drop 164).take 168 ++ beBytes 4 (if spent then 1 else 0) := by
  have hu : 32 - e.user.len = 0 := by
    rw [RString.len, hr.user, List.length_take, List.length_drop, hlen]; rfl
  have hn : 80 - e.note.len = 0 := by
    rw [RString.len, hr.note, List.length_take, List.length_drop, hlen]; rfl
  have hmid : e.date.1 ++ e.blockhash.1 ++ e.user.bytes ++ e.note.bytes =
      (data.drop 164).take 168 := by
    rw [hr.date, hr.blockhash, hr.user, hr.note, @take_drop_append data 164 188 24 32 56 rfl rfl,
      @take_drop_append data 164 220 56 32 88 rfl rfl,
      @take_drop_append data 164 252 88 80 168 rfl rfl]
  simp only [Entry.layout, hu, hn, List.replicate_zero, List.append_nil, ← hmid, List.append_assoc]

end Icboc

end Icebox
