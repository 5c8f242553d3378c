import Icebox.Serialize.Basic

/-!
# The length-prefixed codecs

Every other codec of `serialize.rs` writes a `u32` count before its payload and checks it against
a bound on both sides. They come in two families, each one definition here:

* `writeSeq`/`readSeq` -- `Vec`, `HashSet` and `HashMap`: a count of at most `MAX_VEC_ELEMS`
  elements, then the elements. A map or a set decodes by inserting each element read, one at a
  time, so a repeated key keeps the last value (`HashMap.insertAll`);
* `writeBytes`/`readBytes` -- `String` (at most `MAX_STRING_LEN` bytes, and UTF-8) and `Script`
  (at most `MAX_SCRIPTPUBKEY_SIZE`): a byte count, then the bytes;

and two codecs build on them: `derivationPath` (a vector of `u32` child numbers) and `publicKey`
(33 or 65 bytes, chosen by the marker byte).

For each codec: `_roundTrip` (what it writes reads back), `_read` (what its decoder accepts: the
bound, and elements its element decoder accepts), and `_reloads` (a value within the bound is
written and reads back). The error lemma `readBytes_exceeded` says that a bound check that fails
names the observed size and the bound.
-/

namespace Icebox

namespace Serialize

/-! ## 1. Bounds and their checks -/

/-- `MAX_SCRIPTPUBKEY_SIZE`. -/
def maxScriptpubkeySize : UInt32 := 50

/-- `MAX_VEC_ELEMS`. -/
def maxVecElems : UInt32 := 10000

/-- `MAX_STRING_LEN`. -/
def maxStringLen : UInt32 := 100000

/-- `MAX_DESCRIPTOR_LEN`. -/
def maxDescriptorLen : UInt32 := 64 * 1024

/-- An encoder's bound check, before it writes anything: `if self.len() > MAX as usize`. -/
def checkWrite (noun : Noun) (max : UInt32) (len : Nat) : Except IoError Unit :=
  if max.toNat < len then .error (.invalidData (.exceeded .writing noun (UInt32.ofNat len) max))
  else .ok ()

/-- A decoder's bound check on the count it has read: `if len32 > MAX`. -/
def checkRead (noun : Noun) (max len32 : UInt32) : Reader Unit :=
  if max < len32 then throw (.invalidData (.exceeded .reading noun len32 max)) else pure ()

theorem checkWrite_eq_ok {noun : Noun} {max : UInt32} {len : Nat} {u : Unit} :
    checkWrite noun max len = .ok u ↔ len ≤ max.toNat := by
  unfold checkWrite
  split <;> simp_all

theorem checkRead_run {noun : Noun} {max len32 : UInt32} (h : len32 ≤ max) (bs : List UInt8) :
    (checkRead noun max len32).run bs = .ok ((), bs) := by
  have : ¬ max < len32 := fun h' => Nat.not_le.mpr (u32_lt_iff.mp h') (u32_le_iff.mp h)
  simp only [checkRead, this, if_false]; rfl

theorem checkRead_inv {noun : Noun} {max len32 : UInt32} {bs bs' : List UInt8} {u : Unit}
    (h : (checkRead noun max len32).run bs = .ok (u, bs')) : len32 ≤ max ∧ bs' = bs := by
  unfold checkRead at h
  split at h
  · cases h
  · cases h
    exact ⟨u32_le_iff.mpr (Nat.le_of_not_lt fun h' => ‹¬ max < len32› (u32_lt_iff.mpr h')), rfl⟩

/-- A count within a bound reads back as itself. -/
theorem toNat_ofNat_of_le {max : UInt32} {n : Nat} (h : n ≤ max.toNat) :
    (UInt32.ofNat n).toNat = n := by
  have := u32_toNat_lt max
  rw [u32_toNat_ofNat, Nat.mod_eq_of_lt (by omega)]

theorem ofNat_le_of_le {max : UInt32} {n : Nat} (h : n ≤ max.toNat) : UInt32.ofNat n ≤ max := by
  rw [u32_le_iff, toNat_ofNat_of_le h]; exact h

/-! ## 2. `Vec`, `HashSet`, `HashMap` -/

section Seq

variable {α : Type}

/-- `for t in self { t.write_to(&mut w)?; }`. -/
def writeEach (w : α → Except IoError (List UInt8)) : List α → Except IoError (List UInt8)
  | [] => .ok []
  | a :: as => do
    let b ← w a
    let bs ← writeEach w as
    pure (b ++ bs)

/-- `for _ in 0..n { … Serialize::read_from(&mut r)? … }`: `n` elements, in order. -/
def readEach (r : Reader α) : Nat → Reader (List α)
  | 0 => pure []
  | n + 1 => do
    let a ← r
    let as ← readEach r n
    pure (a :: as)

/-- The write of `Vec`, `HashSet` and `HashMap`: the count as `u32`, checked against
    `MAX_VEC_ELEMS` first, then each element. -/
def writeSeq (noun : Noun) (w : α → Except IoError (List UInt8)) (xs : List α) :
    Except IoError (List UInt8) := do
  checkWrite noun maxVecElems xs.length
  let len ← u32.writeTo (UInt32.ofNat xs.length)
  let elems ← writeEach w xs
  pure (len ++ elems)

/-- The read of `Vec`, `HashSet` and `HashMap`: the count, checked against `MAX_VEC_ELEMS`, then
    that many elements. -/
def readSeq (noun : Noun) (r : Reader α) : Reader (List α) := do
  let len32 ← u32.readFrom
  checkRead noun maxVecElems len32
  readEach r len32.toNat

variable {w : α → Except IoError (List UInt8)} {r : Reader α}

/-- Each element reads back from what `w` writes of it. -/
def ReadsBack (w : α → Except IoError (List UInt8)) (r : Reader α) (x : α) : Prop :=
  ∀ b, w x = .ok b → ∀ rest, r.run (b ++ rest) = .ok (x, rest)

theorem readEach_writeEach : ∀ {xs : List α} {bs : List UInt8}, (∀ x ∈ xs, ReadsBack w r x) →
    writeEach w xs = .ok bs → ∀ rest, (readEach r xs.length).run (bs ++ rest) = .ok (xs, rest)
  | [], _, _, h, _ => by cases h; rfl
  | x :: xs, _, hr, h, rest => by
    obtain ⟨b, hb, h⟩ := bind_eq_ok.mp h
    obtain ⟨bs, hbs, h⟩ := bind_eq_ok.mp h
    cases h
    rw [List.length_cons, readEach, List.append_assoc,
      run_bind_ok (hr x (List.mem_cons_self x xs) b hb _),
      run_bind_ok (readEach_writeEach (fun y hy => hr y (List.mem_cons_of_mem x hy)) hbs rest)]
    rfl

theorem writeEach_append : ∀ {xs ys : List α} {bs : List UInt8}, writeEach w (xs ++ ys) = .ok bs →
    ∃ b₁ b₂, writeEach w xs = .ok b₁ ∧ writeEach w ys = .ok b₂ ∧ bs = b₁ ++ b₂
  | [], _, _, h => ⟨[], _, rfl, h, rfl⟩
  | x :: xs, ys, _, h => by
    obtain ⟨b, hb, h⟩ := bind_eq_ok.mp h
    obtain ⟨bs, hbs, h⟩ := bind_eq_ok.mp h
    cases h
    obtain ⟨b₁, b₂, h₁, h₂, rfl⟩ := @writeEach_append xs ys bs hbs
    exact ⟨b ++ b₁, b₂, by rw [writeEach, hb, h₁]; rfl, h₂, (List.append_assoc _ _ _).symm⟩

/-- Reading past elements that read back, into one that fails, fails with its error. -/
theorem readEach_writeEach_error : ∀ {xs : List α} {bs rest : List UInt8} {n : Nat} {e : IoError},
    (∀ x ∈ xs, ReadsBack w r x) → writeEach w xs = .ok bs → (readEach r n).run rest = .error e →
    (readEach r (xs.length + n)).run (bs ++ rest) = .error e
  | [], _, _, n, _, _, h, he => by cases h; rwa [List.length_nil, Nat.zero_add]
  | x :: xs, _, rest, n, _, hr, h, he => by
    obtain ⟨b, hb, h⟩ := bind_eq_ok.mp h
    obtain ⟨bs, hbs, h⟩ := bind_eq_ok.mp h
    cases h
    rw [List.length_cons, Nat.add_right_comm, readEach, List.append_assoc,
      run_bind_ok (hr x (List.mem_cons_self x xs) b hb _),
      run_bind_error (readEach_writeEach_error (fun y hy => hr y (List.mem_cons_of_mem x hy)) hbs he)]

theorem writeEach_ok : ∀ {xs : List α}, (∀ x ∈ xs, ∃ b, w x = .ok b) → ∃ bs, writeEach w xs = .ok bs
  | [], _ => ⟨[], rfl⟩
  | x :: xs, h => by
    obtain ⟨b, hb⟩ := h x (List.mem_cons_self x xs)
    obtain ⟨bs, hbs⟩ := writeEach_ok fun y hy => h y (List.mem_cons_of_mem x hy)
    exact ⟨b ++ bs, by rw [writeEach, hb, hbs]; rfl⟩

theorem readEach_inv : ∀ {n : Nat} {bs rest : List UInt8} {xs : List α},
    (readEach r n).run bs = .ok (xs, rest) →
    xs.length = n ∧ ∀ x ∈ xs, ∃ bs' rest', r.run bs' = .ok (x, rest')
  | 0, _, _, _, h => by cases h; exact ⟨rfl, fun _ h => absurd h (List.not_mem_nil _)⟩
  | n + 1, _, _, _, h => by
    obtain ⟨a, bs₁, ha, h⟩ := run_bind_inv h
    obtain ⟨as, bs₂, has, h⟩ := run_bind_inv h
    cases h
    obtain ⟨hlen, hmem⟩ := readEach_inv has
    refine ⟨by rw [List.length_cons, hlen], fun x hx => ?_⟩
    rcases List.mem_cons.mp hx with rfl | hx
    · exact ⟨_, _, ha⟩
    · exact hmem x hx

theorem readSeq_writeSeq {noun : Noun} {xs : List α} {bs : List UInt8}
    (hr : ∀ x ∈ xs, ReadsBack w r x) (h : writeSeq noun w xs = .ok bs) (rest : List UInt8) :
    (readSeq noun r).run (bs ++ rest) = .ok (xs, rest) := by
  obtain ⟨_, hc, h⟩ := bind_eq_ok.mp h
  obtain ⟨_, ⟨⟩, h⟩ := bind_eq_ok.mp h
  obtain ⟨body, hbody, h⟩ := bind_eq_ok.mp h
  cases h
  have hle := checkWrite_eq_ok.mp hc
  rw [readSeq, List.append_assoc, run_bind_ok (u32_readFrom _ _),
    run_bind_ok (checkRead_run (ofNat_le_of_le hle) _), toNat_ofNat_of_le hle]
  exact readEach_writeEach hr hbody rest

/-- **A sequence with an element that does not read back does not read back**: when the elements
    before it read back, reading what is written stops at it, with its error. -/
theorem readSeq_writeSeq_error {noun : Noun} {pre post : List α} {x : α} {bs : List UInt8}
    {e : IoError} (hr : ∀ y ∈ pre, ReadsBack w r y)
    (hx : ∀ b, w x = .ok b → ∀ rest, r.run (b ++ rest) = .error e)
    (h : writeSeq noun w (pre ++ x :: post) = .ok bs) (rest : List UInt8) :
    (readSeq noun r).run (bs ++ rest) = .error e := by
  obtain ⟨_, hc, h⟩ := bind_eq_ok.mp h
  obtain ⟨_, ⟨⟩, h⟩ := bind_eq_ok.mp h
  obtain ⟨body, hbody, h⟩ := bind_eq_ok.mp h
  cases h
  have hle := checkWrite_eq_ok.mp hc
  obtain ⟨bpre, bxs, hpre, hxs, rfl⟩ := writeEach_append hbody
  obtain ⟨bx, hbx, hxs⟩ := bind_eq_ok.mp hxs
  obtain ⟨bpost, -, hxs⟩ := bind_eq_ok.mp hxs
  cases hxs
  rw [readSeq, List.append_assoc, run_bind_ok (u32_readFrom _ _),
    run_bind_ok (checkRead_run (ofNat_le_of_le hle) _), toNat_ofNat_of_le hle, List.length_append,
    List.length_cons, List.append_assoc]
  refine readEach_writeEach_error hr hpre ?_
  rw [readEach, List.append_assoc]
  exact run_bind_error (hx bx hbx _)

theorem writeSeq_ok {noun : Noun} {xs : List α} (hlen : xs.length ≤ maxVecElems.toNat)
    (h : ∀ x ∈ xs, ∃ b, w x = .ok b) : ∃ bs, writeSeq noun w xs = .ok bs := by
  obtain ⟨body, hbody⟩ := writeEach_ok h
  refine ⟨u32Bytes (UInt32.ofNat xs.length) ++ body, ?_⟩
  rw [writeSeq, checkWrite, if_neg (Nat.not_lt.mpr hlen)]
  simp only [hbody]
  rfl

theorem readSeq_inv {noun : Noun} {bs rest : List UInt8} {xs : List α}
    (h : (readSeq noun r).run bs = .ok (xs, rest)) :
    xs.length ≤ maxVecElems.toNat ∧ ∀ x ∈ xs, ∃ bs' rest', r.run bs' = .ok (x, rest') := by
  obtain ⟨len32, _, -, h⟩ := run_bind_inv h
  obtain ⟨_, _, hc, h⟩ := run_bind_inv h
  obtain ⟨hlen, hmem⟩ := readEach_inv h
  exact ⟨hlen ▸ u32_le_iff.mp (checkRead_inv hc).1, hmem⟩

end Seq

/-- `impl Serialize for Vec<T>`. -/
def vec {α : Type} (c : Serialize α) : Serialize (List α) where
  writeTo xs := writeSeq .vector c.writeTo xs
  readFrom := readSeq .vector c.readFrom

/-- One entry of a map: the key, then the value. -/
def entry {K V : Type} (ck : Serialize K) (cv : Serialize V) : Serialize (K × V) where
  writeTo e := do
    let k ← ck.writeTo e.1
    let v ← cv.writeTo e.2
    pure (k ++ v)
  readFrom := do
    let k ← ck.readFrom
    let v ← cv.readFrom
    pure (k, v)

/-- `impl Serialize for HashMap<T, V>`: the entries in iteration order. `read_from` inserts each
    entry as it reads it, so a later entry with a repeated key overwrites the value of an earlier
    one; reading them all first and inserting them then is the same, as an error discards the
    map. -/
def hashMap {K V : Type} [DecidableEq K] (ck : Serialize K) (cv : Serialize V) :
    Serialize (HashMap K V) where
  writeTo m := writeSeq .map (entry ck cv).writeTo m.entries
  readFrom := do
    let es ← readSeq .map (entry ck cv).readFrom
    pure (HashMap.empty.insertAll es)

section Containers

variable {α K V : Type} {c : Serialize α} {ck : Serialize K} {cv : Serialize V}

theorem vec_roundTrip {xs : List α} (h : ∀ x ∈ xs, c.RoundTrip x) : (vec c).RoundTrip xs :=
  fun _ hw rest => readSeq_writeSeq h hw rest

theorem vec_read {xs : List α} (h : (vec c).Read xs) :
    xs.length ≤ maxVecElems.toNat ∧ ∀ x ∈ xs, c.Read x :=
  let ⟨_, _, h⟩ := h
  readSeq_inv h

theorem vec_reloads {xs : List α} (hlen : xs.length ≤ maxVecElems.toNat)
    (h : ∀ x ∈ xs, c.Reloads x) : (vec c).Reloads xs :=
  ⟨writeSeq_ok hlen fun x hx => (h x hx).1, vec_roundTrip fun x hx => (h x hx).2⟩

theorem entry_roundTrip {e : K × V} (hk : ck.RoundTrip e.1) (hv : cv.RoundTrip e.2) :
    (entry ck cv).RoundTrip e := by
  intro bs h rest
  obtain ⟨k, hk', h⟩ := bind_eq_ok.mp h
  obtain ⟨v, hv', h⟩ := bind_eq_ok.mp h
  cases h
  rw [entry, List.append_assoc, run_bind_ok (hk k hk' _), run_bind_ok (hv v hv' rest)]
  rfl

theorem entry_read {e : K × V} (h : (entry ck cv).Read e) : ck.Read e.1 ∧ cv.Read e.2 := by
  obtain ⟨_, _, h⟩ := h
  obtain ⟨k, _, hk, h⟩ := run_bind_inv h
  obtain ⟨v, _, hv, h⟩ := run_bind_inv h
  cases h
  exact ⟨⟨_, _, hk⟩, ⟨_, _, hv⟩⟩

theorem entry_reloads {e : K × V} (hk : ck.Reloads e.1) (hv : cv.Reloads e.2) :
    (entry ck cv).Reloads e := by
  obtain ⟨k, hk'⟩ := hk.1
  obtain ⟨v, hv'⟩ := hv.1
  exact ⟨⟨k ++ v, by simp only [entry, hk', hv']; rfl⟩, entry_roundTrip hk.2 hv.2⟩

variable [DecidableEq K]

/-- Decoding the entries of a map inserts them back in order: the map itself. -/
theorem insertAll_entries (m : HashMap K V) : HashMap.empty.insertAll m.entries = m :=
  HashMap.ext (HashMap.insertAll_of_nodup _ _ m.nodup)

theorem hashMap_roundTrip {m : HashMap K V}
    (h : ∀ e ∈ m.entries, ck.RoundTrip e.1 ∧ cv.RoundTrip e.2) : (hashMap ck cv).RoundTrip m := by
  intro bs hw rest
  rw [hashMap, run_bind_ok (readSeq_writeSeq (fun e he => entry_roundTrip (h e he).1 (h e he).2)
    hw rest), insertAll_entries]
  rfl

/-- **What a map decoder accepts**: at most `MAX_VEC_ELEMS` entries, whatever the stream repeats,
    each of a key and a value the element decoders accept. -/
theorem hashMap_read {m : HashMap K V} (h : (hashMap ck cv).Read m) :
    m.len ≤ maxVecElems.toNat ∧ ∀ e ∈ m.entries, ck.Read e.1 ∧ cv.Read e.2 := by
  obtain ⟨_, _, h⟩ := h
  obtain ⟨es, _, hes, h⟩ := run_bind_inv h
  cases h
  obtain ⟨hlen, hmem⟩ := readSeq_inv hes
  refine ⟨(HashMap.len_insertAll_le _ es).trans (by simpa [HashMap.len, HashMap.empty] using hlen),
    fun e he => ?_⟩
  rcases HashMap.mem_insertAll he with he | he
  · exact absurd he (List.not_mem_nil e)
  · exact entry_read (hmem e he)

theorem hashMap_reloads {m : HashMap K V} (hlen : m.len ≤ maxVecElems.toNat)
    (h : ∀ e ∈ m.entries, ck.Reloads e.1 ∧ cv.Reloads e.2) : (hashMap ck cv).Reloads m :=
  ⟨writeSeq_ok hlen fun e he => (entry_reloads (h e he).1 (h e he).2).1,
    hashMap_roundTrip fun e he => ⟨(h e he).1.2, (h e he).2.2⟩⟩

end Containers

/-! ## 3. `String` and `Script` -/

/-- The write of `String` and `Script`: the byte count as `u32`, checked against the bound first,
    then the bytes. -/
def writeBytes (noun : Noun) (max : UInt32) (bytes : List UInt8) : Except IoError (List UInt8) := do
  checkWrite noun max bytes.length
  let len ← u32.writeTo (UInt32.ofNat bytes.length)
  pure (len ++ bytes)

/-- The read of `String`, `Script` and the descriptor text: the byte count, checked against the
    bound, then that many bytes. -/
def readBytes (noun : Noun) (max : UInt32) : Reader (List UInt8) := do
  let len32 ← u32.readFrom
  checkRead noun max len32
  let dat ← readExact len32.toNat
  pure dat.1

/-- `impl Serialize for String`. -/
def string : Serialize RString where
  writeTo s := writeBytes .string maxStringLen s.bytes
  readFrom := do
    let bytes ← readBytes .string maxStringLen
    match RString.fromUtf8 bytes with
    | some s => pure s
    | none => throw (.invalidData .utf8)

/-- `impl Serialize for Script`. -/
def script : Serialize Script where
  writeTo s := writeBytes .script maxScriptpubkeySize s.bytes
  readFrom := do
    let bytes ← readBytes .script maxScriptpubkeySize
    pure ⟨bytes⟩

section Bytes

variable {noun : Noun} {max : UInt32}

theorem readBytes_append {bytes : List UInt8} (hlen : bytes.length ≤ max.toNat)
    (rest : List UInt8) :
    (readBytes noun max).run (u32Bytes (UInt32.ofNat bytes.length) ++ (bytes ++ rest)) =
      .ok (bytes, rest) := by
  rw [readBytes, run_bind_ok (u32_readFrom _ _), run_bind_ok (checkRead_run (ofNat_le_of_le hlen) _),
    run_bind_ok (readExact_append bytes rest (toNat_ofNat_of_le hlen).symm)]
  rfl

theorem writeBytes_eq_ok {bytes bs : List UInt8} :
    writeBytes noun max bytes = .ok bs ↔
      bytes.length ≤ max.toNat ∧ bs = u32Bytes (UInt32.ofNat bytes.length) ++ bytes := by
  by_cases h : bytes.length ≤ max.toNat
  · simp only [writeBytes, checkWrite, if_neg (Nat.not_lt.mpr h), h, true_and]
    exact ⟨fun e => (Except.ok.inj e).symm, fun e => e ▸ rfl⟩
  · simp only [writeBytes, checkWrite, if_pos (Nat.lt_of_not_le h), h, false_and, iff_false]
    rintro ⟨⟩

theorem readBytes_writeBytes {bytes bs : List UInt8} (h : writeBytes noun max bytes = .ok bs)
    (rest : List UInt8) : (readBytes noun max).run (bs ++ rest) = .ok (bytes, rest) := by
  obtain ⟨hlen, rfl⟩ := writeBytes_eq_ok.mp h
  rw [List.append_assoc]
  exact readBytes_append hlen rest

theorem readBytes_inv {bs rest bytes : List UInt8}
    (h : (readBytes noun max).run bs = .ok (bytes, rest)) : bytes.length ≤ max.toNat := by
  obtain ⟨len32, _, -, h⟩ := run_bind_inv h
  obtain ⟨_, _, hc, h⟩ := run_bind_inv h
  obtain ⟨dat, _, -, h⟩ := run_bind_inv h
  cases h
  rw [dat.2]
  exact u32_le_iff.mp (checkRead_inv hc).1

/-- **A decoder that reads a byte count above its bound fails, naming the count and the bound,
    before it reads a byte of the payload.** -/
theorem readBytes_exceeded {len32 : UInt32} (h : max < len32) (rest : List UInt8) :
    (readBytes noun max).run (u32Bytes len32 ++ rest) =
      .error (.invalidData (.exceeded .reading noun len32 max)) := by
  rw [readBytes, run_bind_ok (u32_readFrom _ _), checkRead, if_pos h]; rfl

end Bytes

theorem string_roundTrip (s : RString) : string.RoundTrip s := by
  intro bs h rest
  rw [string, run_bind_ok (readBytes_writeBytes h rest), RString.fromUtf8_bytes]
  rfl

theorem string_read {s : RString} (h : string.Read s) : s.len ≤ maxStringLen.toNat := by
  obtain ⟨_, _, h⟩ := h
  obtain ⟨bytes, _, hb, h⟩ := run_bind_inv h
  have hlen := readBytes_inv hb
  split at h
  · rename_i s' hs
    cases h
    rwa [RString.len, RString.fromUtf8_eq_some.mp hs]
  · cases h

theorem string_reloads {s : RString} (h : s.len ≤ maxStringLen.toNat) : string.Reloads s :=
  ⟨⟨_, writeBytes_eq_ok.mpr ⟨h, rfl⟩⟩, string_roundTrip s⟩

theorem script_roundTrip (s : Script) : script.RoundTrip s := by
  intro bs h rest
  rw [script, run_bind_ok (readBytes_writeBytes h rest)]
  rfl

theorem script_read {s : Script} (h : script.Read s) :
    s.bytes.length ≤ maxScriptpubkeySize.toNat := by
  obtain ⟨_, _, h⟩ := h
  obtain ⟨bytes, _, hb, h⟩ := run_bind_inv h
  cases h
  exact readBytes_inv hb

theorem script_reloads {s : Script} (h : s.bytes.length ≤ maxScriptpubkeySize.toNat) :
    script.Reloads s :=
  ⟨⟨_, writeBytes_eq_ok.mpr ⟨h, rfl⟩⟩, script_roundTrip s⟩

/-! ## 4. Public keys and derivation paths -/

/-- What the codec uses of `bitcoin::PublicKey`: `to_bytes`, the compressed form (a marker below
    `4`, then 32 bytes) or the uncompressed one (a marker of at least `4`, then 64 bytes), and
    `from_slice`, which parses either form back; the two facts are rust-bitcoin's. -/
structure KeyFormat (PublicKey : Type) where
  toBytes : PublicKey → List UInt8
  fromSlice : List UInt8 → Option PublicKey
  toBytes_form : ∀ k, ∃ m body, toBytes k = m :: body ∧
    (m.toNat < 4 ∧ body.length = 32 ∨ 4 ≤ m.toNat ∧ body.length = 64)
  fromSlice_toBytes : ∀ k, fromSlice (toBytes k) = some k

/-- `impl Serialize for PublicKey`: `write_into`, whose errors `Ok(…)` drops; and a read of the
    marker byte, then of 32 more bytes after a marker below `4` and of 64 more after any other. -/
def publicKey {PublicKey : Type} (kf : KeyFormat PublicKey) : Serialize PublicKey where
  writeTo k := .ok (kf.toBytes k)
  readFrom := do
    let first ← readExact 1
    let more ← readExact (if first.1.getD 0 0 < 4 then 32 else 64)
    match kf.fromSlice (first.1 ++ more.1) with
    | some k => pure k
    | none => throw (.invalidData .publicKey)

/-- `impl Serialize for DerivationPath`: the child numbers as a vector of `u32`, with the hardened
    bit folded in. -/
def derivationPath : Serialize DerivationPath where
  writeTo p := (vec u32).writeTo (p.childNumbers.map ChildNumber.toU32)
  readFrom := do
    let path ← (vec u32).readFrom
    pure ⟨path.map ChildNumber.ofU32⟩

theorem publicKey_roundTrip {PublicKey : Type} (kf : KeyFormat PublicKey) (k : PublicKey) :
    (publicKey kf).RoundTrip k := by
  rintro bs ⟨⟩ rest
  obtain ⟨m, body, hk, hform⟩ := kf.toBytes_form k
  have hlen : body.length = if m < 4 then 32 else 64 := by
    rcases hform with ⟨hm, hb⟩ | ⟨hm, hb⟩
    · rw [if_pos ((@u8_lt_iff m 4).mpr hm), hb]
    · rw [if_neg fun h => Nat.not_lt.mpr hm ((@u8_lt_iff m 4).mp h), hb]
  dsimp only [publicKey]
  rw [hk, List.cons_append, ← List.singleton_append, run_bind_ok (@readExact_append 1 [m] _ rfl)]
  dsimp only [List.getD_cons_zero]
  rw [run_bind_ok (readExact_append body rest hlen)]
  dsimp only
  rw [List.singleton_append, ← hk, kf.fromSlice_toBytes]
  rfl

theorem publicKey_reloads {PublicKey : Type} (kf : KeyFormat PublicKey) (k : PublicKey) :
    (publicKey kf).Reloads k :=
  ⟨⟨_, rfl⟩, publicKey_roundTrip kf k⟩

theorem derivationPath_roundTrip {p : DerivationPath}
    (h : ∀ c ∈ p.childNumbers, c.index.toNat < 2 ^ 31) : derivationPath.RoundTrip p := by
  intro bs hw rest
  rw [derivationPath, run_bind_ok (vec_roundTrip (fun x _ => u32_roundTrip x) bs hw rest),
    ChildNumber.map_ofU32_toU32 _ h]
  rfl

/-- **What the path decoder accepts**: at most `MAX_VEC_ELEMS` child numbers, each well formed. -/
theorem derivationPath_read {p : DerivationPath} (h : derivationPath.Read p) :
    p.childNumbers.length ≤ maxVecElems.toNat ∧ ∀ c ∈ p.childNumbers, c.index.toNat < 2 ^ 31 := by
  obtain ⟨_, _, h⟩ := h
  obtain ⟨path, _, hp, h⟩ := run_bind_inv h
  cases h
  refine ⟨by simpa using (vec_read ⟨_, _, hp⟩).1, fun c hc => ?_⟩
  obtain ⟨n, -, rfl⟩ := List.mem_map.mp hc
  exact ChildNumber.index_ofU32_lt n

theorem derivationPath_reloads {p : DerivationPath}
    (hlen : p.childNumbers.length ≤ maxVecElems.toNat)
    (h : ∀ c ∈ p.childNumbers, c.index.toNat < 2 ^ 31) : derivationPath.Reloads p :=
  ⟨writeSeq_ok (by simpa using hlen) fun _ _ => ⟨_, rfl⟩, derivationPath_roundTrip h⟩

end Serialize

end Icebox
