import Icebox.Icboc.Legacy

/-!
# The legacy wallet is an audit log

`wallet.rs` calls its wallet "really more of an audit log": once an entry has recorded the coins
it received, nothing but a new `update` of that index is to change what it says. This file proves
it for every other operation that writes, over whole runs:

* `plaintextAt`, `Recorded`, `signedFields`, `spentFlag` -- entry `i` as it decrypts, whether it
  records a receive (a date and a trusted input that are not all zeros), its bytes 64 to 332 (the
  signed fields but the spent flag), and its spent flag as `decrypt_and_verify` reads it;
* `Keeps w w'` -- the relation between a wallet and a later one: same network and account, no
  entry lost, and every recorded entry of `w` still decrypts, to the same signed fields, with a
  spent flag that stays set once set;
* one lemma per operation: `keeps_extend`, `keeps_receive`, `keeps_markSpent`,
  `keeps_rerandomize`, failed calls included (a call that fails part way keeps what it wrote);
* `AuditCall`, `AuditCall.execAll` and **`keeps_execAll`** -- every run of these calls keeps the
  log. `receive` rewrites an entry only when it reads `Valid` (its trusted input is all zeros),
  `mark_spent` re-signs the fields it read, `rerandomize` re-encrypts the same plaintexts
  (`rerandomizeFrom_plaintextAt`), and `extend` appends.
-/

namespace Icebox

namespace Icboc

/-! ## 1. Entries as they decrypt -/

/-- An entry that records a receive: its date is not all zeros (it is not blank) and neither is its
    trusted input (it does not read `Valid`). -/
def Recorded (p : List UInt8) : Prop :=
  ((p.drop 164).take 24).all (· == 0) = false ∧ ((p.drop 64).take 56).all (· == 0) = false

/-- Bytes 64 to 332: the fields the signature covers, but the spent flag. -/
def signedFields (p : List UInt8) : List UInt8 := (p.drop 64).take 268

/-- The spent flag, as `decrypt_and_verify` reads it. -/
def spentFlag (p : List UInt8) : Bool := beRead ((p.drop 332).take 4) == 1

/-- Whether an entry records a receive depends on its signed fields only. -/
theorem Recorded.of_signedFields {p p' : List UInt8} (he : signedFields p' = signedFields p)
    (h : Recorded p) : Recorded p' := by
  have hd : ∀ q : List UInt8, (q.drop 164).take 24 = ((signedFields q).drop 100).take 24 := by
    intro q
    rw [signedFields, List.drop_take, List.take_take, List.drop_drop]
    rfl
  have ht : ∀ q : List UInt8, (q.drop 64).take 56 = (signedFields q).take 56 := by
    intro q
    rw [signedFields, List.take_take]
    rfl
  rw [Recorded, hd, ht, he, ← hd, ← ht]
  exact h

section Plain

variable {PublicKey Addr : Type} (L : Ledger PublicKey) (P : Primitives PublicKey Addr)

/-- The plaintext of entry `i` of `w`, when there is such an entry and the Ledger gives its AES
    key. -/
def plaintextAt (w : EncryptedWallet) (i : Nat) : Option (Bytes decryptedEntrySize) :=
  w.entries[i]?.bind fun block => (decrypt L P w.network w.account i block).toOption

theorem plaintextAt_of_decrypt {w : EncryptedWallet} {i : Nat} {block : Bytes encryptedEntrySize}
    {p : Bytes decryptedEntrySize} (hb : w.entries[i]? = some block)
    (hd : decrypt L P w.network w.account i block = .ok p) : plaintextAt L P w i = some p := by
  rw [plaintextAt, hb, Option.some_bind, hd]
  rfl

/-- A lookup reads the plaintext of its entry. -/
theorem lookupEntry_eq_ok {w : EncryptedWallet} {i : Nat} {fe : FullEntry Addr}
    (h : lookupEntry L P w i = .ok fe) :
    ∃ p v, plaintextAt L P w i = some p ∧ readEntry p v = .ok (fe.state, fe.fields) := by
  unfold lookupEntry at h
  split at h
  · cases h
  · obtain ⟨p, v, -, hd, -, -, hr, -⟩ := decryptAndVerify_eq_ok L P h
    exact ⟨p, v, plaintextAt_of_decrypt L P (List.getElem?_eq_getElem _) hd, hr⟩

/-- An entry that reads `Valid` records no receive. -/
theorem not_recorded_of_valid {w : EncryptedWallet} {i : Nat} {fe : FullEntry Addr}
    (h : lookupEntry L P w i = .ok fe) (hv : fe.state = .valid) :
    ∀ p, plaintextAt L P w i = some p → ¬Recorded p.1 := by
  obtain ⟨q, v, hq, hr⟩ := lookupEntry_eq_ok L P h
  intro p hp hrec
  obtain rfl : q = p := Option.some.inj (hq.symm.trans hp)
  rcases readEntry_eq_ok hr with ⟨-, hu, -⟩ | ⟨-, hs, -⟩
  · rw [hv] at hu; cases hu
  · rw [hv, stateOf] at hs
    split at hs
    · split at hs
      · rename_i hz
        exact Bool.false_ne_true (hrec.2.symm.trans hz)
      · cases hs
    · cases hs

/-- Entry `i` keeps its record from `w` to `w'`: when it decrypts and records a receive in `w`, it
    decrypts in `w'` to the same signed fields, with its spent flag still set if it was. -/
def KeepsAt (w w' : EncryptedWallet) (i : Nat) : Prop :=
  ∀ p, plaintextAt L P w i = some p → Recorded p.1 →
    ∃ p', plaintextAt L P w' i = some p' ∧ signedFields p'.1 = signedFields p.1 ∧
      (spentFlag p.1 = true → spentFlag p'.1 = true)

/-- `w'` keeps the audit log of `w`. -/
structure Keeps (w w' : EncryptedWallet) : Prop where
  network : w'.network = w.network
  account : w'.account = w.account
  length : w.entries.length ≤ w'.entries.length
  entries : ∀ i, KeepsAt L P w w' i

theorem KeepsAt.of_eq {w w' : EncryptedWallet} {i : Nat}
    (h : plaintextAt L P w' i = plaintextAt L P w i) : KeepsAt L P w w' i :=
  fun p hp _ => ⟨p, h.trans hp, rfl, id⟩

theorem KeepsAt.of_not_recorded {w w' : EncryptedWallet} {i : Nat}
    (h : ∀ p, plaintextAt L P w i = some p → ¬Recorded p.1) : KeepsAt L P w w' i :=
  fun p hp hr => absurd hr (h p hp)

theorem KeepsAt.trans {w₁ w₂ w₃ : EncryptedWallet} {i : Nat} (h₁ : KeepsAt L P w₁ w₂ i)
    (h₂ : KeepsAt L P w₂ w₃ i) : KeepsAt L P w₁ w₃ i := by
  intro p hp hr
  obtain ⟨p₂, hp₂, he₂, hs₂⟩ := h₁ p hp hr
  obtain ⟨p₃, hp₃, he₃, hs₃⟩ := h₂ p₂ hp₂ (hr.of_signedFields he₂)
  exact ⟨p₃, hp₃, he₃.trans he₂, hs₃ ∘ hs₂⟩

theorem Keeps.refl (w : EncryptedWallet) : Keeps L P w w :=
  ⟨rfl, rfl, le_refl _, fun _ => KeepsAt.of_eq L P rfl⟩

theorem Keeps.trans {w₁ w₂ w₃ : EncryptedWallet} (h₁ : Keeps L P w₁ w₂) (h₂ : Keeps L P w₂ w₃) :
    Keeps L P w₁ w₃ :=
  ⟨h₂.network.trans h₁.network, h₂.account.trans h₁.account, h₁.length.trans h₂.length,
    fun i => (h₁.entries i).trans L P (h₂.entries i)⟩

/-- Wallets with the same network and account and the same plaintexts, `w'` perhaps longer, keep
    the log. -/
theorem Keeps.of_plaintextAt {w w' : EncryptedWallet} (hn : w'.network = w.network)
    (ha : w'.account = w.account) (hl : w.entries.length ≤ w'.entries.length)
    (h : ∀ i, i < w.entries.length → plaintextAt L P w' i = plaintextAt L P w i) :
    Keeps L P w w' := by
  refine ⟨hn, ha, hl, fun i => ?_⟩
  by_cases hi : i < w.entries.length
  · exact KeepsAt.of_eq L P (h i hi)
  · refine KeepsAt.of_not_recorded L P fun p hp => ?_
    rw [plaintextAt, List.getElem?_eq_none (Nat.le_of_not_lt hi), Option.none_bind] at hp
    cases hp

/-! ## 2. Writing one entry -/

theorem setEntry_eq_ok {w w' : EncryptedWallet} {i : Nat} {block : Bytes encryptedEntrySize}
    (h : w.setEntry i block = .ok w') :
    i < w.entries.length ∧ w' = { w with entries := w.entries.set i block } := by
  unfold EncryptedWallet.setEntry at h
  split at h
  · cases h
    exact ⟨‹_›, rfl⟩
  · cases h

/-- Writing entry `i` keeps the log when entry `i` keeps its record. -/
theorem Keeps.of_setEntry {w w' : EncryptedWallet} {i : Nat} {block : Bytes encryptedEntrySize}
    (h : w.setEntry i block = .ok w') (hi : KeepsAt L P w w' i) : Keeps L P w w' := by
  obtain ⟨-, rfl⟩ := setEntry_eq_ok h
  refine ⟨rfl, rfl, (List.length_set _ _ _).ge, fun j => ?_⟩
  by_cases hj : j = i
  · subst hj
    exact hi
  · exact KeepsAt.of_eq L P (by simp only [plaintextAt, List.getElem?_set_ne (Ne.symm hj)])

/-- Laying out again a read entry, with any spent flag: its signed fields, then the flag. -/
theorem layout_spent_eq {data : List UInt8} {e : Entry} (hlen : data.length = decryptedEntrySize)
    (hr : ReadsAs data e) (sig : Bytes 64) (spent : Bool) :
    { e with spent := spent }.layout sig =
      sig.1 ++ (signedFields data ++ beBytes 4 (if spent then 1 else 0)) := by
  have hmid : e.trustedInput.1 ++ e.txid.1 ++ beBytes 4 e.vout.toNat ++ beBytes 8 e.amount.toNat ++
      (data.drop 164).take 168 ++ beBytes 4 (if spent then 1 else 0) =
      signedFields data ++ beBytes 4 (if spent then 1 else 0) := by
    rw [hr.trustedInput, hr.txid, hr.vout, hr.amount, @take_drop_append data 64 120 56 32 88 rfl rfl,
      @take_drop_append data 64 152 88 4 92 rfl rfl, @take_drop_append data 64 156 92 8 100 rfl rfl,
      @take_drop_append data 64 164 100 168 268 rfl rfl]
    rfl
  refine (layout_of_readsAs hlen hr sig e.trustedInput e.txid e.vout e.amount spent).trans ?_
  rw [← hmid]
  simp only [List.append_assoc]

theorem length_signedFields {data : List UInt8} (hlen : data.length = decryptedEntrySize) :
    (signedFields data).length = 268 := by
  rw [signedFields, List.length_take, List.length_drop, hlen]
  rfl

theorem signedFields_append (sig : Bytes 64) {f : List UInt8} (hf : f.length = 268)
    (flag : List UInt8) : signedFields (sig.1 ++ (f ++ flag)) = f := by
  rw [signedFields, List.drop_left' sig.2, List.take_left' hf]

theorem spentFlag_append (sig : Bytes 64) {f : List UInt8} (hf : f.length = 268) (spent : Bool) :
    spentFlag (sig.1 ++ (f ++ beBytes 4 (if spent then 1 else 0))) = spent := by
  have hl : (sig.1 ++ f).length = 332 := by rw [List.length_append, sig.2, hf]
  rw [spentFlag, ← List.append_assoc, List.drop_left' hl,
    List.take_of_length_le (le_of_eq (length_beBytes _ _)), beRead_beBytes]
  cases spent <;> rfl

/-! ## 3. One lemma per operation -/

/-- The loop of `extend` only appends, however it ends. -/
theorem pushZeros_append (network : Network) (account : UInt32) :
    ∀ (k i : Nat) (entries : List (Bytes encryptedEntrySize)) (draws : Nat),
      ∃ new, (pushZeros L P network account i k entries draws).2.1 = entries ++ new
  | 0, _, entries, _ => ⟨[], (List.append_nil _).symm⟩
  | k + 1, i, entries, draws => by
    unfold pushZeros
    split
    · exact ⟨[], (List.append_nil _).symm⟩
    · rename_i block _ _
      obtain ⟨new, hnew⟩ := pushZeros_append network account k (i + 1) (entries ++ [block]) _
      exact ⟨block :: new, by rw [hnew, List.append_assoc, List.singleton_append]⟩

/-- `extend` only appends, a failed call included: the blocks it pushed before the failure stay. -/
theorem keeps_extend (n : Nat) (s : LegacySession) :
    Keeps L P s.wallet (extend L P n s).2.wallet := by
  unfold extend
  dsimp only
  split
  · exact Keeps.refl L P s.wallet
  · obtain ⟨new, hnew⟩ := pushZeros_append L P s.wallet.network s.wallet.account
      (n - s.wallet.entries.length) s.wallet.entries.length s.wallet.entries s.draws
    refine Keeps.of_plaintextAt L P rfl rfl (by dsimp only; rw [hnew, List.length_append]; omega)
      fun j hj => ?_
    simp only [plaintextAt, hnew, List.getElem?_append_left hj]

/-- The `Valid` arm of `receive` writes its entry, which records no receive, and the entry it
    returns reads `Received`. -/
theorem keeps_recordOutput (tx : Transaction) (i vout : Nat) (out : TxOut)
    (entry : FullEntry Addr) (s : LegacySession)
    (hv : ∀ p, plaintextAt L P s.wallet i = some p → ¬Recorded p.1) :
    (∀ entry', (recordOutput L P tx i vout out entry s).1 = .ok entry' →
      entry'.state = .received) ∧
      Keeps L P s.wallet (recordOutput L P tx i vout out entry s).2.wallet := by
  unfold recordOutput
  split
  · exact ⟨(fun _ h => by cases h), Keeps.refl L P s.wallet⟩
  · dsimp only
    split
    · exact ⟨(fun _ h => by cases h), Keeps.refl L P s.wallet⟩
    · split
      · exact ⟨(fun _ h => by cases h), Keeps.refl L P s.wallet⟩
      · rename_i w' hw
        exact ⟨(fun _ h => by cases h; rfl),
          Keeps.of_setEntry L P hw (KeepsAt.of_not_recorded L P hv)⟩

/-- The output loop of `receive` keeps the log when its entry records no receive while it reads
    `Valid`: it writes its entry only then, and after that the entry reads `Received`. -/
theorem keeps_receiveOutputs (tx : Transaction) (i : Nat) :
    ∀ (outs : List TxOut) (vout : Nat) (entry : FullEntry Addr) (s : LegacySession),
    (entry.state = .valid → ∀ p, plaintextAt L P s.wallet i = some p → ¬Recorded p.1) →
    Keeps L P s.wallet (receiveOutputs L P tx i vout outs entry s).2.wallet
  | [], _, _, s, _ => Keeps.refl L P s.wallet
  | out :: outs, vout, entry, s, hv => by
    rw [receiveOutputs]
    split
    · split
      · exact Keeps.refl L P s.wallet
      · exact Keeps.refl L P s.wallet
      · split
        · exact keeps_receiveOutputs tx i outs _ entry s hv
        · exact Keeps.refl L P s.wallet
      · rename_i hvalid
        have hr := keeps_recordOutput L P tx i vout out entry s (hv hvalid)
        split
        · rename_i s' heq
          rw [heq] at hr
          exact hr.2
        · rename_i entry' s' heq
          rw [heq] at hr
          exact hr.2.trans L P (keeps_receiveOutputs tx i outs _ entry' s' fun h => by
            rw [hr.1 entry' rfl] at h
            cases h)
    · exact keeps_receiveOutputs tx i outs _ entry s hv

theorem keeps_receiveFrom (tx : Transaction) :
    ∀ (i k : Nat) (s : LegacySession), Keeps L P s.wallet (receiveFrom L P tx i k s).2.wallet
  | _, 0, s => Keeps.refl L P s.wallet
  | i, k + 1, s => by
    unfold receiveFrom
    split
    · exact Keeps.refl L P s.wallet
    · rename_i entry he
      split
      · exact keeps_receiveFrom tx (i + 1) k s
      · have h := keeps_receiveOutputs L P tx i tx.output 0 entry s (not_recorded_of_valid L P he)
        split
        · rename_i s' heq
          rw [heq] at h
          exact h
        · rename_i s' heq
          rw [heq] at h
          exact h.trans L P (keeps_receiveFrom tx (i + 1) k s')

/-- `receive` rewrites an entry only when it reads `Valid`. -/
theorem keeps_receive (tx : Transaction) (s : LegacySession) :
    Keeps L P s.wallet (receive L P tx s).2.wallet :=
  keeps_receiveFrom L P tx 0 _ s

/-- `mark_spent` re-signs the fields it read, with the spent flag set. -/
theorem keeps_markSpent (index : Nat) (s : LegacySession) :
    Keeps L P s.wallet (markSpent L P index s).2.wallet := by
  unfold markSpent
  split
  · exact Keeps.refl L P s.wallet
  · rename_i fe hl
    split
    · exact Keeps.refl L P s.wallet
    · rename_i block d hs
      split
      · exact Keeps.refl L P s.wallet
      · rename_i w' hw
        refine Keeps.of_setEntry L P hw fun p hp hrec => ?_
        obtain ⟨q, v, hq, hr⟩ := lookupEntry_eq_ok L P hl
        obtain rfl : p = q := Option.some.inj (hp.symm.trans hq)
        have hu : fe.state ≠ .unused := fun hu => by
          rcases readEntry_eq_ok hr with ⟨hz, -, -⟩ | ⟨-, hs, -⟩
          · rw [hrec.1] at hz
            cases hz
          · rw [hu, stateOf] at hs
            split_ifs at hs
        obtain ⟨hra, huser, hnote, -⟩ := readEntry_fields hr hu
        have hlen : p.1.length = decryptedEntrySize := p.2
        obtain ⟨sig, -, hd⟩ := signAndEncrypt_eq_ok L P
          (show ({ fe.fields with spent := true } : Entry).user.len ≤ 32 from huser.le)
          (show ({ fe.fields with spent := true } : Entry).note.len ≤ 80 from hnote.le) hs
        obtain ⟨hlt, rfl⟩ := setEntry_eq_ok hw
        refine ⟨_, plaintextAt_of_decrypt L P (List.getElem?_set_self hlt) hd, ?_, fun _ => ?_⟩
        · simp only [layout_spent_eq hlen hra sig true]
          exact signedFields_append sig (length_signedFields hlen) _
        · simp only [layout_spent_eq hlen hra sig true]
          exact spentFlag_append sig (length_signedFields hlen) true

/-- Re-encrypting entry `i` with what it decrypts to leaves every plaintext as it was. -/
theorem plaintextAt_reencrypt {w : EncryptedWallet} {i : Nat}
    {block block' : Bytes encryptedEntrySize} {tmp : Bytes decryptedEntrySize} {draws d : Nat}
    (hb : w.entries[i]? = some block) (hd : decrypt L P w.network w.account i block = .ok tmp)
    (he : encrypt L P w.network w.account i tmp draws = (.ok block', d)) (j : Nat) :
    plaintextAt L P { w with entries := w.entries.set i block' } j = plaintextAt L P w j := by
  by_cases hj : j = i
  · subst hj
    have hlt : j < w.entries.length := (List.getElem?_eq_some_iff.mp hb).1
    rw [plaintextAt_of_decrypt L P hb hd]
    exact plaintextAt_of_decrypt L P (List.getElem?_set_self hlt) (decrypt_encrypt L P he)
  · simp only [plaintextAt, List.getElem?_set_ne (Ne.symm hj)]

/-- The loop of `rerandomize` leaves the network, the account, the number of entries and every
    plaintext as they were, however it ends. -/
theorem rerandomizeFrom_plaintextAt :
    ∀ (k i : Nat) (s : LegacySession),
    (rerandomizeFrom L P i k s).2.wallet.network = s.wallet.network ∧
      (rerandomizeFrom L P i k s).2.wallet.account = s.wallet.account ∧
      (rerandomizeFrom L P i k s).2.wallet.entries.length = s.wallet.entries.length ∧
      ∀ j, plaintextAt L P (rerandomizeFrom L P i k s).2.wallet j = plaintextAt L P s.wallet j
  | 0, _, _ => ⟨rfl, rfl, rfl, fun _ => rfl⟩
  | k + 1, i, s => by
    unfold rerandomizeFrom
    split
    · exact ⟨rfl, rfl, rfl, fun _ => rfl⟩
    · rename_i block hb
      split
      · exact ⟨rfl, rfl, rfl, fun _ => rfl⟩
      · rename_i tmp hd
        split
        · exact ⟨rfl, rfl, rfl, fun _ => rfl⟩
        · rename_i block' d he
          obtain ⟨hn, ha, hl, hp⟩ := rerandomizeFrom_plaintextAt k (i + 1)
            ⟨{ s.wallet with entries := s.wallet.entries.set i block' }, d⟩
          exact ⟨hn, ha, hl.trans (List.length_set _ _ _),
            fun j => (hp j).trans (plaintextAt_reencrypt L P hb hd he j)⟩

theorem keeps_rerandomize (s : LegacySession) :
    Keeps L P s.wallet (rerandomize L P s).2.wallet := by
  obtain ⟨hn, ha, hl, hp⟩ := rerandomizeFrom_plaintextAt L P s.wallet.entries.length 0 s
  exact Keeps.of_plaintextAt L P hn ha (le_of_eq hl.symm) fun j _ => hp j

end Plain

/-! ## 4. Runs -/

/-- The calls of the legacy wallet that write, `update` aside. -/
inductive AuditCall
  | extend (nEntries : Nat)
  | receive (tx : Transaction)
  | markSpent (index : Nat)
  | rerandomize

section Run

variable {PublicKey Addr : Type} (L : Ledger PublicKey) (P : Primitives PublicKey Addr)

/-- One call, on the session the last one left. -/
def AuditCall.exec : AuditCall → LegacySession → Except LegacyError Unit × LegacySession
  | .extend n, s => Icboc.extend L P n s
  | .receive tx, s => Icboc.receive L P tx s
  | .markSpent index, s => Icboc.markSpent L P index s
  | .rerandomize, s => Icboc.rerandomize L P s

/-- A run of calls, each on the session the last one left, whatever its outcome. -/
def AuditCall.execAll : List AuditCall → LegacySession → LegacySession
  | [], s => s
  | c :: cs, s => AuditCall.execAll cs (AuditCall.exec L P c s).2

theorem keeps_exec (c : AuditCall) (s : LegacySession) :
    Keeps L P s.wallet (AuditCall.exec L P c s).2.wallet := by
  cases c with
  | extend n => exact keeps_extend L P n s
  | receive tx => exact keeps_receive L P tx s
  | markSpent index => exact keeps_markSpent L P index s
  | rerandomize => exact keeps_rerandomize L P s

/-- **The legacy wallet is an audit log.** Over every run of `extend`, `receive`, `mark_spent` and
    `rerandomize`, calls that fail included, with any Ledger: the network, the account and every
    entry stay, and every entry that records a receive (a date and a trusted input that are not
    all zeros) decrypts at the end to the same bytes 64 to 332, its spent flag set if it was set
    at the start. -/
theorem keeps_execAll : ∀ (cs : List AuditCall) (s : LegacySession),
    Keeps L P s.wallet (AuditCall.execAll L P cs s).wallet
  | [], s => Keeps.refl L P s.wallet
  | c :: cs, s => (keeps_exec L P c s).trans L P (keeps_execAll cs _)

/-- **`rerandomize` changes no plaintext**: whatever its outcome, every entry decrypts to what it
    did before, in a wallet of the same network, account and size. -/
theorem rerandomize_plaintextAt (s : LegacySession) :
    (rerandomize L P s).2.wallet.network = s.wallet.network ∧
      (rerandomize L P s).2.wallet.account = s.wallet.account ∧
      (rerandomize L P s).2.wallet.entries.length = s.wallet.entries.length ∧
      ∀ i, plaintextAt L P (rerandomize L P s).2.wallet i = plaintextAt L P s.wallet i :=
  rerandomizeFrom_plaintextAt L P _ 0 s

end Run

end Icboc

end Icebox
