import Icebox.Icboc.Audit

/-!
# A transaction that pays one entry twice is never received

`EncryptedWallet::receive` keeps, for each entry, the `Entry` it looked up and updates it in
memory when it records an output. A transaction with two outputs to the address of an entry that
reads `Valid` therefore records the first, after which the entry reads `Received` with that
output's `vout`, and the second output fails the check that a `Received` entry was paid by this
very output: `DoubleReceive`. Failing does not undo the first write, and the next `receive` of the
transaction finds the entry `Received` and fails again at the second output.

* `Pays`, `recordOutput_eq_ok` -- the comparison of the loop, and what the `Valid` arm makes of
  the entry;
* `receiveOutputs_received`, `receiveOutputs_valid` -- the output loop fails on a `Received` entry
  paid again at a later output, and on a `Valid` entry paid twice;
* `OnlyAt` and its lemmas -- the loop for entry `j` writes entry `j` only, so the entries after
  it are looked up as they were;
* **`receive_pays_twice`** -- `receive` of a transaction that pays a `Valid` entry at two outputs
  never returns `Ok`.
-/

namespace Icebox

namespace Icboc

section Receive

variable {PublicKey Addr : Type} (L : Ledger PublicKey) (P : Primitives PublicKey Addr)

/-! ## 1. The output loop -/

/-- `out.script_pubkey == spk`, with `spk` the script of the address of `entry`. -/
def Pays (entry : FullEntry Addr) (out : TxOut) : Bool :=
  decide (out.scriptPubkey.bytes = (P.scriptPubkey entry.address).bytes)

theorem recordOutput_eq_ok {tx : Transaction} {i vout : Nat} {out : TxOut}
    {entry entry' : FullEntry Addr} {s s' : LegacySession}
    (h : recordOutput L P tx i vout out entry s = (.ok entry', s')) :
    entry'.state = .received ∧ entry'.address = entry.address ∧
      entry'.fields.vout = UInt32.ofNat vout := by
  unfold recordOutput at h
  split at h
  · cases h
  dsimp only at h
  split at h
  · cases h
  split at h
  · cases h
  cases h
  exact ⟨rfl, rfl, rfl⟩

/-- A `Received` entry that recorded output `v₀` fails the loop at any later output paying it. -/
theorem receiveOutputs_received (tx : Transaction) (i v₀ : Nat) :
    ∀ (outs : List TxOut) (vout : Nat) (entry : FullEntry Addr) (s : LegacySession),
    entry.state = .received → entry.fields.vout = UInt32.ofNat v₀ → v₀ < vout →
    vout + outs.length ≤ 2 ^ 32 → 0 < outs.countP (Pays P entry) →
    (receiveOutputs L P tx i vout outs entry s).1 ≠ .ok ()
  | [], _, _, _, _, _, _, _, hc => absurd hc (Nat.lt_irrefl 0)
  | out :: outs, vout, entry, s, hst, hv, hlt, hlen, hc => by
    rw [List.length_cons] at hlen
    rw [receiveOutputs]
    split
    · have hne : (entry.fields.vout == UInt32.ofNat vout) = false := by
        rw [beq_eq_false_iff_ne, hv, Ne, u32_eq_iff, u32_toNat_ofNat, u32_toNat_ofNat]
        omega
      simp only [hst, hne, Bool.and_false]
      exact fun h => by cases h
    · rename_i hpay
      have hc' : 0 < outs.countP (Pays P entry) := by
        rwa [List.countP_cons_of_neg _ _ (by simpa only [Pays, decide_eq_true_eq] using hpay)] at hc
      exact receiveOutputs_received tx i v₀ outs (vout + 1) entry s hst hv (by omega) (by omega) hc'

/-- A `Valid` entry paid at two outputs fails the loop: the first is recorded, the second is then
    a double receive. -/
theorem receiveOutputs_valid (tx : Transaction) (i : Nat) :
    ∀ (outs : List TxOut) (vout : Nat) (entry : FullEntry Addr) (s : LegacySession),
    entry.state = .valid → vout + outs.length ≤ 2 ^ 32 → 1 < outs.countP (Pays P entry) →
    (receiveOutputs L P tx i vout outs entry s).1 ≠ .ok ()
  | [], _, _, _, _, _, hc => absurd hc (Nat.not_lt_zero 1)
  | out :: outs, vout, entry, s, hst, hlen, hc => by
    rw [List.length_cons] at hlen
    rw [receiveOutputs]
    split
    · rename_i hpay
      rw [List.countP_cons_of_pos _ _ (by simpa only [Pays, decide_eq_true_eq] using hpay)] at hc
      simp only [hst]
      split
      · exact fun h => by cases h
      · rename_i entry' s' heq
        obtain ⟨hst', haddr, hv'⟩ := recordOutput_eq_ok L P heq
        have hpays : Pays P entry' = Pays P entry := by
          funext o
          simp only [Pays, haddr]
        exact receiveOutputs_received L P tx i vout outs (vout + 1) entry' s' hst' hv'
          (Nat.lt_succ_self vout) (by omega) (by rw [hpays]; omega)
    · rename_i hpay
      rw [List.countP_cons_of_neg _ _ (by simpa only [Pays, decide_eq_true_eq] using hpay)] at hc
      exact receiveOutputs_valid tx i outs (vout + 1) entry s hst (by omega) hc

/-! ## 2. The loop for entry `j` writes entry `j` only -/

/-- `w'` differs from `w` at most in entry `j`. -/
structure OnlyAt (j : Nat) (w w' : EncryptedWallet) : Prop where
  network : w'.network = w.network
  account : w'.account = w.account
  entries : ∀ i, i ≠ j → w'.entries[i]? = w.entries[i]?

theorem OnlyAt.refl (j : Nat) (w : EncryptedWallet) : OnlyAt j w w :=
  ⟨rfl, rfl, fun _ _ => rfl⟩

theorem OnlyAt.trans {j : Nat} {w₁ w₂ w₃ : EncryptedWallet} (h₁ : OnlyAt j w₁ w₂)
    (h₂ : OnlyAt j w₂ w₃) : OnlyAt j w₁ w₃ :=
  ⟨h₂.network.trans h₁.network, h₂.account.trans h₁.account,
    fun i hi => (h₂.entries i hi).trans (h₁.entries i hi)⟩

theorem OnlyAt.of_setEntry {j : Nat} {w w' : EncryptedWallet} {block : Bytes encryptedEntrySize}
    (h : w.setEntry j block = .ok w') : OnlyAt j w w' := by
  obtain ⟨-, rfl⟩ := setEntry_eq_ok h
  exact ⟨rfl, rfl, fun i hi => List.getElem?_set_ne (Ne.symm hi)⟩

/-- A lookup reads only the entry it looks up. -/
theorem lookupEntry_eq (w : EncryptedWallet) (i : Nat) :
    lookupEntry L P w i = match w.entries[i]? with
      | none => .error (.entryOutOfRange i)
      | some block => decryptAndVerify L P w.network w.account i block := by
  unfold lookupEntry
  split
  · rw [List.getElem?_eq_none (by omega)]
  · rw [List.getElem?_eq_getElem (by omega)]
    rfl

theorem OnlyAt.lookupEntry {j i : Nat} {w w' : EncryptedWallet} (h : OnlyAt j w w') (hi : i ≠ j) :
    lookupEntry L P w' i = lookupEntry L P w i := by
  rw [lookupEntry_eq, lookupEntry_eq, h.entries i hi, h.network, h.account]

theorem onlyAt_recordOutput (tx : Transaction) (j vout : Nat) (out : TxOut)
    (entry : FullEntry Addr) (s : LegacySession) :
    OnlyAt j s.wallet (recordOutput L P tx j vout out entry s).2.wallet := by
  unfold recordOutput
  split
  · exact OnlyAt.refl j s.wallet
  · dsimp only
    split
    · exact OnlyAt.refl j s.wallet
    · split
      · exact OnlyAt.refl j s.wallet
      · exact OnlyAt.of_setEntry ‹_›

theorem onlyAt_receiveOutputs (tx : Transaction) (j : Nat) :
    ∀ (outs : List TxOut) (vout : Nat) (entry : FullEntry Addr) (s : LegacySession),
    OnlyAt j s.wallet (receiveOutputs L P tx j vout outs entry s).2.wallet
  | [], _, _, s => OnlyAt.refl j s.wallet
  | out :: outs, vout, entry, s => by
    rw [receiveOutputs]
    split
    · split
      · exact OnlyAt.refl j s.wallet
      · exact OnlyAt.refl j s.wallet
      · split
        · exact onlyAt_receiveOutputs tx j outs _ entry s
        · exact OnlyAt.refl j s.wallet
      · have h := onlyAt_recordOutput L P tx j vout out entry s
        split
        · rename_i heq
          rw [heq] at h
          exact h
        · rename_i entry' s' heq
          rw [heq] at h
          exact h.trans (onlyAt_receiveOutputs tx j outs _ entry' s')
    · exact onlyAt_receiveOutputs tx j outs _ entry s

/-! ## 3. The entry loop -/

theorem receiveFrom_pays_twice (tx : Transaction) {i : Nat} {fe : FullEntry Addr}
    (hv : fe.state = .valid) (htwice : 1 < tx.output.countP (Pays P fe))
    (hlen : tx.output.length ≤ 2 ^ 32) :
    ∀ (k j : Nat) (s : LegacySession), j ≤ i → i < j + k →
      lookupEntry L P s.wallet i = .ok fe → (receiveFrom L P tx j k s).1 ≠ .ok ()
  | 0, _, _, hj, hk, _ => absurd hk (by omega)
  | k + 1, j, s, hj, hk, hfe => by
    unfold receiveFrom
    split
    · exact fun h => by cases h
    · rename_i entry he
      rcases Nat.lt_or_eq_of_le hj with hj | rfl
      · have hne : i ≠ j := Nat.ne_of_gt hj
        split
        · exact receiveFrom_pays_twice tx hv htwice hlen k (j + 1) s hj (by omega) hfe
        · have h := onlyAt_receiveOutputs L P tx j tx.output 0 entry s
          split
          · exact fun h => by cases h
          · rename_i s' heq
            rw [heq] at h
            exact receiveFrom_pays_twice tx hv htwice hlen k (j + 1) s' hj (by omega)
              ((h.lookupEntry L P hne).trans hfe)
      · obtain rfl : entry = fe := Except.ok.inj (he.symm.trans hfe)
        rw [if_neg (by rw [hv]; decide)]
        have h := receiveOutputs_valid L P tx j tx.output 0 entry s hv (by omega) htwice
        split
        · exact fun h => by cases h
        · rename_i s' heq
          rw [heq] at h
          exact absurd rfl h

/-- **A transaction that pays a `Valid` entry at two outputs is never received.** Whatever the
    Ledger and the rest of the wallet, `receive` of a transaction with at most `2^32` outputs, two
    of which pay the address of an entry that reads `Valid`, returns an error: at the latest, the
    second output is a `DoubleReceive`, after the first has been written to the entry. -/
theorem receive_pays_twice {tx : Transaction} {s : LegacySession} {i : Nat} {fe : FullEntry Addr}
    (hfe : lookupEntry L P s.wallet i = .ok fe) (hv : fe.state = .valid)
    (htwice : 1 < tx.output.countP (Pays P fe)) (hlen : tx.output.length ≤ 2 ^ 32) :
    (receive L P tx s).1 ≠ .ok () := by
  have hi : i < s.wallet.entries.length := by
    unfold lookupEntry at hfe
    split at hfe
    · cases hfe
    · omega
  exact receiveFrom_pays_twice L P tx hv htwice hlen _ 0 s (Nat.zero_le i) (by omega) hfe

/-- A transaction paying the empty script at two outputs. -/
def paidTwice : Transaction :=
  ⟨⟨List.replicate 32 0, List.length_replicate _ _⟩, [], [⟨1, ⟨[]⟩⟩, ⟨2, ⟨[]⟩⟩]⟩

set_option maxRecDepth 20000 in
theorem receive_pays_twice_sample : ∃ fe,
    lookupEntry zeroLedger plainPrimitives labelledSession.wallet 0 = .ok fe ∧ fe.state = .valid ∧
    1 < paidTwice.output.countP (Pays plainPrimitives fe) ∧ paidTwice.output.length ≤ 2 ^ 32 ∧
    (receive zeroLedger plainPrimitives paidTwice labelledSession).1 ≠ .ok () := by
  refine ⟨?fe, ?hfe, ?hv, ?htwice, ?hlen,
    receive_pays_twice zeroLedger plainPrimitives ?hfe ?hv ?htwice ?hlen⟩
  case hfe => exact rfl
  case hv => rfl
  case htwice => decide
  case hlen => decide

end Receive

end Icboc

end Icebox
