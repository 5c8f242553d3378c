import Icebox.Prim.Bytes

/-!
# Importing an ICBOC 1D entry

An ICBOC 1D wallet stores each address as a 336-byte entry, which the legacy
`Entry::sign_and_encrypt` (`wallet.rs`) lays out, signs and encrypts, and which
`ImportIcboc::execute` (`commands/importicboc/mod.rs`) decrypts and turns into the `time` and
`notes` of an `add_address` call. The two sides were written apart; this file checks that the
importer reads back what the writer laid out.

* `Entry`, `Entry.signAndEncryptInput` -- the plaintext `sign_and_encrypt` builds, field by field,
  with `copy_from_slice` (`copyFromSlice`, which panics on a range that does not fit);
* `importEntry` -- what the importer does with one decrypted entry: skip it when it is all zeros,
  otherwise decode the date as `time` and the bytes from offset 252 up to the first zero as
  `notes` (`notesEnd`, the loop that finds that zero);
* `signAndEncryptInput_eq` -- with a user of at most 32 bytes and a note of at most 80, the
  plaintext is the fields in order, each padded with zeros to its width;
* `importEntry_layout`, **`importEntry_signAndEncryptInput`** -- the importer recovers the date and
  the note, a note of 80 bytes included: its end is found at the first byte of the big-endian
  spent flag, which is zero.
-/

namespace Icebox

namespace Icboc

/-! ## 1. Byte buffers -/

/-- A Rust byte array `[u8; n]`. -/
abbrev Bytes (n : Nat) := {bs : List UInt8 // bs.length = n}

/-- `DECRYPTED_ENTRY_SIZE`. -/
def decryptedEntrySize : Nat := 336

/-- `dst[lo..hi].copy_from_slice(src)`: panics (`none`) unless `lo ≤ hi ≤ dst.len()` and
    `src.len() = hi - lo`. -/
def copyFromSlice (dst : List UInt8) (lo hi : Nat) (src : List UInt8) : Option (List UInt8) :=
  if lo ≤ hi ∧ hi ≤ dst.length ∧ src.length = hi - lo then
    some (dst.take lo ++ src ++ dst.drop hi)
  else none

/-- `BigEndian::write_uN`: the `n` bytes of `x`, most significant first. -/
def beBytes : Nat → Nat → List UInt8
  | 0, _ => []
  | n + 1, x => UInt8.ofNat (x / 256 ^ n) :: beBytes n x

@[simp] theorem length_beBytes (n x : Nat) : (beBytes n x).length = n := by
  induction n with
  | zero => rfl
  | succ n ih => simp [beBytes, ih]

/-- Copying into a zero-filled tail, `gap` bytes past its start, keeps what is before it. -/
theorem copyFromSlice_zeros (pre src : List UInt8) (gap m : Nat) {n lo hi : Nat}
    (hlo : lo = pre.length + gap) (hhi : hi = lo + src.length) (hn : n = gap + src.length + m) :
    copyFromSlice (pre ++ List.replicate n 0) lo hi src =
      some (pre ++ List.replicate gap 0 ++ src ++ List.replicate m 0) := by
  subst hlo hhi hn
  rw [copyFromSlice, if_pos ⟨by omega, by simp; omega, by omega⟩,
    List.take_append_eq_append_take, List.drop_append_eq_append_drop,
    List.take_of_length_le (Nat.le_add_right _ _),
    List.drop_eq_nil_of_le (by omega : pre.length ≤ pre.length + gap + src.length)]
  simp only [List.take_replicate, List.drop_replicate, List.length_replicate, Nat.min_self,
    List.append_assoc, List.nil_append]
  have hgap : (pre.length + gap - pre.length) ⊓ (gap + src.length + m) = gap := by
    rw [Nat.add_sub_cancel_left]; exact inf_eq_left.mpr (by omega)
  have hm : gap + src.length + m - (pre.length + gap + src.length - pre.length) = m := by omega
  rw [hgap, hm]

/-- Copying over the first bytes of a buffer, when they are zeros. -/
theorem copyFromSlice_front (src rest : List UInt8) {hi : Nat} (hhi : hi = src.length) :
    copyFromSlice (List.replicate hi 0 ++ rest) 0 hi src = some (src ++ rest) := by
  subst hhi
  rw [copyFromSlice, if_pos ⟨Nat.zero_le _, by simp, rfl⟩]
  simp

theorem bind_eq_of_eq_some {α β : Type} {x : Option α} {a : α} {f : α → Option β}
    (h : x = some a) : x >>= f = f a := by
  rw [h]; rfl

/-! ## 2. The writer: `Entry::sign_and_encrypt` -/

/-- The fields of the legacy `Entry` that `sign_and_encrypt` writes. -/
structure Entry where
  spent : Bool
  trustedInput : Bytes 56
  txid : Bytes 32
  vout : UInt32
  amount : UInt64
  date : Bytes 24
  blockhash : Bytes 32
  user : RString
  note : RString

/-- The plaintext `input` that `Entry::sign_and_encrypt` encrypts: the fields at the offsets of the
    layout table of `wallet.rs`, over zeros, then the dongle's signature `sig` of bytes 64 to 336
    in front. -/
def Entry.signAndEncryptInput (e : Entry) (sig : Bytes 64) : Option (List UInt8) := do
  let input := List.replicate decryptedEntrySize 0
  let input ← copyFromSlice input 64 120 e.trustedInput.1
  let input ← copyFromSlice input 120 152 e.txid.1
  let input ← copyFromSlice input 152 156 (beBytes 4 e.vout.toNat)
  let input ← copyFromSlice input 156 164 (beBytes 8 e.amount.toNat)
  let input ← copyFromSlice input 164 188 e.date.1
  let input ← copyFromSlice input 188 220 e.blockhash.1
  let input ← copyFromSlice input 220 (220 + e.user.len) e.user.bytes
  let input ← copyFromSlice input 252 (252 + e.note.len) e.note.bytes
  let input ← copyFromSlice input 332 336 (beBytes 4 (if e.spent then 1 else 0))
  copyFromSlice input 0 64 sig.1

/-- The plaintext as the fields in order, the user and the note padded with zeros to 32 and 80
    bytes. -/
def Entry.layout (e : Entry) (sig : Bytes 64) : List UInt8 :=
  sig.1 ++ e.trustedInput.1 ++ e.txid.1 ++ beBytes 4 e.vout.toNat ++ beBytes 8 e.amount.toNat ++
    e.date.1 ++ e.blockhash.1 ++ (e.user.bytes ++ List.replicate (32 - e.user.len) 0) ++
    (e.note.bytes ++ List.replicate (80 - e.note.len) 0) ++ beBytes 4 (if e.spent then 1 else 0)

/-- **What `sign_and_encrypt` lays out**: with a user of at most 32 bytes and a note of at most
    80, no copy panics and the plaintext is `Entry.layout`. -/
theorem signAndEncryptInput_eq (e : Entry) (sig : Bytes 64) (huser : e.user.len ≤ 32)
    (hnote : e.note.len ≤ 80) : e.signAndEncryptInput sig = some (e.layout sig) := by
  have h0 : List.replicate decryptedEntrySize (0 : UInt8) =
      List.replicate 64 0 ++ List.replicate 272 0 := by
    rw [← List.replicate_add]; rfl
  rw [Entry.signAndEncryptInput, h0,
    bind_eq_of_eq_some (copyFromSlice_zeros _ _ 0 216 ?_ ?_ ?_),
    bind_eq_of_eq_some (copyFromSlice_zeros _ _ 0 184 ?_ ?_ ?_),
    bind_eq_of_eq_some (copyFromSlice_zeros _ _ 0 180 ?_ ?_ ?_),
    bind_eq_of_eq_some (copyFromSlice_zeros _ _ 0 172 ?_ ?_ ?_),
    bind_eq_of_eq_some (copyFromSlice_zeros _ _ 0 148 ?_ ?_ ?_),
    bind_eq_of_eq_some (copyFromSlice_zeros _ _ 0 116 ?_ ?_ ?_),
    bind_eq_of_eq_some (copyFromSlice_zeros _ _ 0 (116 - e.user.len) ?_ ?_ ?_),
    bind_eq_of_eq_some (copyFromSlice_zeros _ _ (32 - e.user.len) (84 - e.note.len) ?_ ?_ ?_),
    bind_eq_of_eq_some (copyFromSlice_zeros _ _ (80 - e.note.len) 0 ?_ ?_ ?_)]
  · simp only [List.append_assoc]
    rw [copyFromSlice_front _ _ sig.2.symm]
    simp [Entry.layout]
  all_goals simp only [List.length_append, List.length_replicate, length_beBytes, e.trustedInput.2,
    e.txid.2, e.date.2, e.blockhash.2, sig.2, RString.len] at huser hnote ⊢
  all_goals omega

/-! ## 3. The reader: `ImportIcboc::execute`, one entry -/

/-- The notes loop of `ImportIcboc::execute`,
    `while endidx <= decrypted_entry.len() && decrypted_entry[endidx] != 0 { endidx += 1 }`, run
    over `rest`, the bytes from `endidx` on: the index of the first zero byte, or `none` when there
    is none, where `decrypted_entry[endidx]` at `endidx = len` panics. -/
def notesEnd : List UInt8 → Nat → Option Nat
  | [], _ => none
  | b :: rest, endidx => if b ≠ 0 then notesEnd rest (endidx + 1) else some endidx

/-- What `ImportIcboc::execute` does with one decrypted entry. -/
inductive EntryImport
  /-- An all-zero entry: nothing. -/
  | unused
  /-- `wallet.add_address(…, Some(i as u32), time, notes)`. -/
  | addAddress (time notes : RString)
  /-- `String::from_utf8` rejected bytes `164..188`: `"decoding timestamp from entry {i}"`. -/
  | timestampError (i : Nat)
  /-- `String::from_utf8` rejected the notes: `"decoding notes from entry {i}"`. -/
  | notesError (i : Nat)
  /-- `decrypted_entry[endidx]` out of bounds. -/
  | panic

/-- The body of the entry loop of `ImportIcboc::execute` for entry `i`, from the 336 bytes
    `aes256_decrypt_ctr` returns on. -/
def importEntry (i : Nat) (decryptedEntry : List UInt8) : EntryImport :=
  if decryptedEntry = List.replicate decryptedEntrySize 0 then .unused
  else
    match RString.fromUtf8 ((decryptedEntry.drop 164).take 24) with
    | none => .timestampError i
    | some time =>
      match notesEnd (decryptedEntry.drop 252) 252 with
      | none => .panic
      | some endidx =>
        match RString.fromUtf8 ((decryptedEntry.drop 252).take (endidx - 252)) with
        | none => .notesError i
        | some notes => .addAddress time notes


/-- The loop in closed form: it stops `k` plus the length of the run of non-zero bytes on, at the
    first zero byte, and runs off the end when there is none. -/
theorem notesEnd_eq : ∀ (l : List UInt8) (k : Nat), notesEnd l k =
    if ∀ b ∈ l, b ≠ 0 then none else some (k + (l.takeWhile (· != 0)).length)
  | [], _ => by simp [notesEnd]
  | b :: l, k => by
    by_cases hb : b = 0
    · simp [notesEnd, hb]
    · rw [notesEnd, if_pos hb, notesEnd_eq l (k + 1)]
      simp only [List.forall_mem_cons, hb, List.takeWhile_cons, bne_iff_ne, ne_eq,
        not_false_eq_true, true_and, if_true, List.length_cons]
      split_ifs <;> simp only [Option.some.injEq]; omega

/-- The loop stops at the first zero byte. -/
theorem notesEnd_append_zero : ∀ (l rest : List UInt8) (k : Nat), (∀ b ∈ l, b ≠ 0) →
    notesEnd (l ++ 0 :: rest) k = some (k + l.length) := fun l rest k h => by
  rw [notesEnd_eq, if_neg fun hall => hall 0 (by simp) rfl,
    List.takeWhile_append_of_pos fun b hb => bne_iff_ne.mpr (h b hb)]
  simp

theorem take_length_takeWhile (p : UInt8 → Bool) (l : List UInt8) :
    l.take (l.takeWhile p).length = l.takeWhile p :=
  calc l.take (l.takeWhile p).length
      = (l.takeWhile p ++ l.dropWhile p).take (l.takeWhile p).length := by
        rw [List.takeWhile_append_dropWhile]
    _ = l.takeWhile p := List.take_left' rfl

section Layout

variable (e : Entry) (sig : Bytes 64)

theorem layout_date : ((e.layout sig).drop 164).take 24 = e.date.1 := by
  have hsplit : e.layout sig = (sig.1 ++ e.trustedInput.1 ++ e.txid.1 ++ beBytes 4 e.vout.toNat ++
      beBytes 8 e.amount.toNat) ++ (e.date.1 ++ (e.blockhash.1 ++
      (e.user.bytes ++ List.replicate (32 - e.user.len) 0) ++
      (e.note.bytes ++ List.replicate (80 - e.note.len) 0) ++
      beBytes 4 (if e.spent then 1 else 0))) := by
    simp only [Entry.layout, List.append_assoc]
  rw [hsplit, List.drop_left' (by simp [sig.2, e.trustedInput.2, e.txid.2]),
    List.take_left' e.date.2]

theorem layout_notes (huser : e.user.len ≤ 32) :
    (e.layout sig).drop 252 =
      e.note.bytes ++
        (List.replicate (80 - e.note.len) 0 ++ beBytes 4 (if e.spent then 1 else 0)) := by
  have hsplit : e.layout sig = (sig.1 ++ e.trustedInput.1 ++ e.txid.1 ++ beBytes 4 e.vout.toNat ++
      beBytes 8 e.amount.toNat ++ e.date.1 ++ e.blockhash.1 ++
      (e.user.bytes ++ List.replicate (32 - e.user.len) 0)) ++ (e.note.bytes ++
      (List.replicate (80 - e.note.len) 0 ++ beBytes 4 (if e.spent then 1 else 0))) := by
    simp only [Entry.layout, List.append_assoc]
  rw [hsplit, List.drop_left']
  simp only [List.length_append, sig.2, e.trustedInput.2, e.txid.2, length_beBytes, e.date.2,
    e.blockhash.2, List.length_replicate]
  simp only [RString.len] at huser ⊢
  omega

/-- A date that is not all zeros makes the entry not all zeros. -/
theorem layout_ne_zeros (hdate : e.date.1 ≠ List.replicate 24 0) :
    e.layout sig ≠ List.replicate decryptedEntrySize 0 := fun h =>
  hdate (by rw [← layout_date e sig, h, decryptedEntrySize, List.drop_replicate,
    List.take_replicate]; rfl)

end Layout

/-- The spent flag, big-endian, starts with a zero byte. -/
theorem beBytes_flag (b : Bool) : ∃ rest, beBytes 4 (if b then 1 else 0) = 0 :: rest := by
  cases b <;> exact ⟨_, rfl⟩

/-- The importer reads the date and the note back from the layout, whatever the length of the
    note, when the note has no zero byte. -/
theorem importEntry_layout (e : Entry) (sig : Bytes 64) (i : Nat) (huser : e.user.len ≤ 32)
    (hzero : ∀ b ∈ e.note.bytes, b ≠ 0) (hdate : e.date.1 ≠ List.replicate 24 0)
    (hvalid : utf8Valid e.date.1 = true) :
    importEntry i (e.layout sig) = .addAddress ⟨e.date.1, hvalid⟩ e.note := by
  have hpad : ∃ rest, List.replicate (80 - e.note.len) 0 ++
      beBytes 4 (if e.spent then 1 else 0) = 0 :: rest := by
    rcases hn : 80 - e.note.len with _ | n
    · exact beBytes_flag e.spent
    · exact ⟨_, rfl⟩
  obtain ⟨rest, hrest⟩ := hpad
  have htime : RString.fromUtf8 e.date.1 = some ⟨e.date.1, hvalid⟩ :=
    (@RString.fromUtf8_eq_some e.date.1 ⟨e.date.1, hvalid⟩).mpr rfl
  simp only [importEntry, if_neg (layout_ne_zeros e sig hdate), layout_date, htime,
    layout_notes e sig huser, hrest, notesEnd_append_zero _ _ _ hzero, Nat.add_sub_cancel_left,
    List.take_left' rfl, RString.fromUtf8_bytes]

/-- **The importer reads back what `sign_and_encrypt` laid out.** For every entry whose user is at
    most 32 bytes and whose note is at most 80 bytes with no zero byte, whose date is valid UTF-8
    and not all zeros, and every signature: `sign_and_encrypt` lays the plaintext out without
    panicking, and the importer takes it as used, with the date as `time` and the note as `notes`
    -- a note of exactly 80 bytes included, whose end is the first byte of the spent flag. -/
theorem importEntry_signAndEncryptInput (e : Entry) (sig : Bytes 64) (i : Nat)
    (huser : e.user.len ≤ 32) (hnote : e.note.len ≤ 80) (hzero : ∀ b ∈ e.note.bytes, b ≠ 0)
    (hdate : e.date.1 ≠ List.replicate 24 0) (hvalid : utf8Valid e.date.1 = true) :
    ∃ input, e.signAndEncryptInput sig = some input ∧
      importEntry i input = .addAddress ⟨e.date.1, hvalid⟩ e.note :=
  ⟨e.layout sig, signAndEncryptInput_eq e sig huser hnote,
    importEntry_layout e sig i huser hzero hdate hvalid⟩

/-- An entry dated `2021-06-01 12:00:00+0000`, spent, with no user and a note of 80 `x`s. -/
def sampleEntry : Entry where
  spent := true
  trustedInput := ⟨List.replicate 56 0, List.length_replicate _ _⟩
  txid := ⟨List.replicate 32 7, List.length_replicate _ _⟩
  vout := 1
  amount := 5000
  date := ⟨[0x32, 0x30, 0x32, 0x31, 0x2d, 0x30, 0x36, 0x2d, 0x30, 0x31, 0x20, 0x31, 0x32, 0x3a,
    0x30, 0x30, 0x3a, 0x30, 0x30, 0x2b, 0x30, 0x30, 0x30, 0x30], rfl⟩
  blockhash := ⟨List.replicate 32 9, List.length_replicate _ _⟩
  user := ⟨[], rfl⟩
  note := ⟨List.replicate 80 0x78,
    utf8Valid_of_ascii _ fun b hb => by rw [List.eq_of_mem_replicate hb]; decide⟩

theorem importEntry_sample :
    sampleEntry.user.len ≤ 32 ∧ sampleEntry.note.len ≤ 80 ∧
    (∀ b ∈ sampleEntry.note.bytes, b ≠ 0) ∧ sampleEntry.date.1 ≠ List.replicate 24 0 ∧
    ∃ input, sampleEntry.signAndEncryptInput ⟨List.replicate 64 1, List.length_replicate _ _⟩ =
      some input ∧ importEntry 0 input = .addAddress ⟨sampleEntry.date.1, by decide⟩ sampleEntry.note :=
  ⟨by decide, by decide, by decide, by decide,
    importEntry_signAndEncryptInput sampleEntry ⟨List.replicate 64 1, List.length_replicate _ _⟩ 0
      (by decide) (by decide) (by decide) (by decide) (by decide)⟩

/-! ## 4. The notes scan on any entry -/

/-- What `ImportIcboc::execute` makes of any entry that is not blank and whose timestamp bytes are
    valid UTF-8, whatever its length: when a zero byte follows offset 252 the notes are the bytes
    before the first one; when none does, the scan reaches `endidx = decrypted_entry.len()`, which
    the guard `endidx <= decrypted_entry.len()` lets through, and `decrypted_entry[endidx]` panics. -/
theorem importEntry_notes (i : Nat) {e : List UInt8} (hz : e ≠ List.replicate decryptedEntrySize 0)
    (ht : utf8Valid ((e.drop 164).take 24) = true) :
    importEntry i e =
      if ∀ b ∈ e.drop 252, b ≠ 0 then .panic
      else match RString.fromUtf8 ((e.drop 252).takeWhile (· != 0)) with
        | none => .notesError i
        | some notes => .addAddress ⟨(e.drop 164).take 24, ht⟩ notes := by
  have htime := (@RString.fromUtf8_eq_some _ ⟨_, ht⟩).mpr rfl
  simp only [importEntry, if_neg hz, htime, notesEnd_eq]
  split_ifs
  · rfl
  · simp only [Nat.add_sub_cancel_left, take_length_takeWhile]

/-- A 336-byte entry of `a`s: not blank, with the timestamp `aaaa…`, and no zero byte from 252 on,
    as a corrupt or foreign file can hold. -/
def overrunEntry : List UInt8 := List.replicate decryptedEntrySize 0x61

/-- On `overrunEntry` the notes scan reads `decrypted_entry[336]`, one past the end, and panics. -/
theorem importEntry_overrun :
    overrunEntry.length = decryptedEntrySize ∧ overrunEntry ≠ List.replicate decryptedEntrySize 0 ∧
    utf8Valid ((overrunEntry.drop 164).take 24) = true ∧ (∀ b ∈ overrunEntry.drop 252, b ≠ 0) ∧
    ∀ i, importEntry i overrunEntry = .panic := by
  have hz : overrunEntry ≠ List.replicate decryptedEntrySize 0 := by decide
  have ht : utf8Valid ((overrunEntry.drop 164).take 24) = true := by decide
  have hall : ∀ b ∈ overrunEntry.drop 252, b ≠ 0 := by decide
  exact ⟨List.length_replicate _ _, hz, ht, hall,
    fun i => by rw [importEntry_notes i hz ht, if_pos hall]⟩

end Icboc

end Icebox
