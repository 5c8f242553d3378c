import Icebox.Icboc.Legacy

/-!
# Coin selection: `EncryptedWallet::get_inputs_and_change`

To pay the outputs of a `spend::Spend`, the legacy wallet scans its entries in order. The first
`Unused` entry becomes the change output, and `Received` entries that are not spent are taken as
inputs while the amount found falls short of the outputs plus the fee of the size estimated so
far. The scan quits early once it has both. After the scan it fails on too little, drops a change
below `CHANGE_DUST`, and otherwise writes the change into the last output. Every sum and product
is on `u64`, checked (`u64Checked`): an overflow panics.

* `Spend`, `Selection`, `sumValues`, `wanted`, `selectEntry`, `selectFrom`, `getInputsAndChange`
  -- the function as the source runs it, its `total_amount` loop, the amount the loop looks for,
  the counters and the body of the loop, with what the function does to `spend` on every path,
  failures included;
* `Picked` -- what the loop has done after the entries before `i`: the inputs it appended read
  `Received` and not spent; the amount found is their sum, below `2^64`; the size estimate grew by
  150 bytes for each; and the change output, once there is one, is that of the first `Unused`
  entry;
* `picked_selectEntry`, `picked_selectFrom` -- one entry, then the whole loop, keep it;
* **`getInputsAndChange_ok`** -- what a call that succeeds leaves: inputs worth the outputs, the
  fee and the change, and a change output of the first `Unused` entry unless the change is dust;
* **`getInputsAndChange_walletFull`** -- with no `Unused` entry and change above the dust, the
  call fails with `WalletFull` after writing the change into the last output it was given;
* **`getInputsAndChange_total_overflow`** -- outputs worth `2^64` or more panic before the spend
  is touched.
-/

namespace Icebox

namespace Icboc

/-- The part of `spend::Spend` that `get_inputs_and_change` reads and writes (`spend.rs` is not
    under `src/`). An input is kept as the entry `spend::Input::from_entry` is built from; the
    change amount, a `u64`, is only ever written a checked `u64` value. -/
structure Spend (Addr : Type) where
  input : List (FullEntry Addr)
  output : List TxOut
  changePath : List UInt32
  changeAmount : Nat
  changeVout : UInt32

/-- The counters of the loop of `get_inputs_and_change`: `found_amount` and `size_bytes` are `u64`,
    and every operation on them is checked. -/
structure Selection where
  foundAmount : Nat
  foundChange : Bool
  sizeBytes : Nat

/-- The sum of the output values, as numbers. -/
def Spend.totalAmount {Addr : Type} (spend : Spend Addr) : Nat :=
  (spend.output.map (·.value.toNat)).sum

/-- `13 + ((spend.output.len() + 1) * 34)`: the size estimate before any input. -/
def Spend.baseSize {Addr : Type} (spend : Spend Addr) : Nat := 13 + (spend.output.length + 1) * 34

/-- The fee the loop estimates for `spend` with `n` inputs, at `fee_rate` per 1000 bytes. -/
def Spend.fee {Addr : Type} (spend : Spend Addr) (feeRate n : Nat) : Nat :=
  (spend.baseSize + 150 * n) * feeRate / 1000

/-- The sum of the amounts of some entries. -/
def amountOf {Addr : Type} (picked : List (FullEntry Addr)) : Nat :=
  (picked.map fun e => e.fields.amount.toNat).sum

/-- The `total_amount` loop of `get_inputs_and_change`: `total_amount += output.value` over the
    outputs, on `u64`. -/
def sumValues : List TxOut → Nat → Except LegacyError Nat
  | [], total => .ok total
  | out :: outs, total =>
    match u64Checked (total + out.value.toNat) with
    | .error e => .error e
    | .ok total => sumValues outs total

/-- `total_amount + (size_bytes * fee_rate / 1000)`, the amount the loop looks for, on `u64`. -/
def wanted (totalAmount sizeBytes feeRate : Nat) : Except LegacyError Nat :=
  match u64Checked (sizeBytes * feeRate) with
  | .error e => .error e
  | .ok fee => u64Checked (totalAmount + fee / 1000)

theorem u64Checked_error {n : Nat} {e : LegacyError} (h : u64Checked n = .error e) :
    e = .panic := by
  unfold u64Checked at h
  split at h <;> cases h
  rfl

/-- The values added one by one on `u64`: their sum, unless it passes `u64::MAX` (each prefix sum
    is at most the whole, so the first overflow is there exactly when the whole overflows). -/
theorem sumValues_eq : ∀ (outs : List TxOut) (total : Nat), total < 2 ^ 64 →
    sumValues outs total = u64Checked (total + (outs.map (·.value.toNat)).sum)
  | [], total, h => by rw [sumValues, List.map_nil, List.sum_nil, Nat.add_zero, u64Checked_of_lt h]
  | out :: outs, total, h => by
    rw [sumValues, List.map_cons, List.sum_cons, ← Nat.add_assoc]
    by_cases hlt : total + out.value.toNat < 2 ^ 64
    · rw [u64Checked_of_lt hlt]
      exact sumValues_eq outs _ hlt
    · rw [u64Checked_of_le (by omega), u64Checked_of_le (by omega)]

theorem sumValues_error {outs : List TxOut} {e : LegacyError} (h : sumValues outs 0 = .error e) :
    e = .panic := by
  rw [sumValues_eq outs 0 (by norm_num)] at h
  exact u64Checked_error h

theorem wanted_error {totalAmount sizeBytes feeRate : Nat} {e : LegacyError}
    (h : wanted totalAmount sizeBytes feeRate = .error e) : e = .panic := by
  unfold wanted at h
  split at h
  · cases h; exact u64Checked_error ‹_›
  · exact u64Checked_error h

section Select

variable {PublicKey Addr : Type} (L : Ledger PublicKey) (P : Primitives PublicKey Addr)

/-! ## 1. The function -/

/-- The body of the loop of `get_inputs_and_change` for the entry `entry`, at `i`. A picked input
    is pushed before its size and amount are added. -/
def selectEntry (w : EncryptedWallet) (totalAmount feeRate i : Nat) (entry : FullEntry Addr)
    (sel : Selection) (spend : Spend Addr) : Except LegacyError Selection × Spend Addr :=
  match entry.state with
  | .unused =>
    if !sel.foundChange then
      (.ok { sel with foundChange := true },
        { spend with
          output := spend.output ++ [⟨0, P.scriptPubkey entry.address⟩]
          changePath := bip32Path w.network w.account .address (UInt32.ofNat i) })
    else (.ok sel, spend)
  | .invalid => (.ok sel, spend)
  | .valid => (.ok sel, spend)
  | .received =>
    if !entry.fields.spent then
      match wanted totalAmount sel.sizeBytes feeRate with
      | .error e => (.error e, spend)
      | .ok want =>
        if sel.foundAmount < want then
          let spend := { spend with input := spend.input ++ [entry] }
          match u64Checked (sel.sizeBytes + 150) with
          | .error e => (.error e, spend)
          | .ok size =>
            match u64Checked (sel.foundAmount + entry.fields.amount.toNat) with
            | .error e => (.error e, spend)
            | .ok found => (.ok ⟨found, sel.foundChange, size⟩, spend)
        else (.ok sel, spend)
    else (.ok sel, spend)

/-- The loop of `get_inputs_and_change` over the `k` entries from `i` on, with its early quit,
    whose sum is computed only once there is a change output. -/
def selectFrom (w : EncryptedWallet) (totalAmount feeRate : Nat) :
    Nat → Nat → Selection → Spend Addr → Except LegacyError Selection × Spend Addr
  | _, 0, sel, spend => (.ok sel, spend)
  | i, k + 1, sel, spend =>
    match lookupEntry L P w i with
    | .error e => (.error e, spend)
    | .ok entry =>
      match selectEntry P w totalAmount feeRate i entry sel spend with
      | (.error e, spend) => (.error e, spend)
      | (.ok sel, spend) =>
        if sel.foundChange then
          match wanted totalAmount sel.sizeBytes feeRate with
          | .error e => (.error e, spend)
          | .ok want =>
            if want ≤ sel.foundAmount then (.ok sel, spend)
            else selectFrom w totalAmount feeRate (i + 1) k sel spend
        else selectFrom w totalAmount feeRate (i + 1) k sel spend

/-- `EncryptedWallet::get_inputs_and_change`, with `CHANGE_DUST` (from `constants.rs`, not under
    `src/`) as `changeDust`. The size estimate is computed on a 64-bit `usize`; its steps only
    grow, so checking the result checks each. `spend.output.len() as u32 - 1` panics where the
    length is a multiple of `2^32`. -/
def getInputsAndChange (changeDust : UInt64) (w : EncryptedWallet) (feeRate : UInt64)
    (spend : Spend Addr) : Except LegacyError Unit × Spend Addr :=
  match u64Checked spend.baseSize with
  | .error e => (.error e, spend)
  | .ok sizeBytes =>
    match sumValues spend.output 0 with
    | .error e => (.error e, spend)
    | .ok totalAmount =>
      match selectFrom L P w totalAmount feeRate.toNat 0 w.entries.length
          ⟨0, false, sizeBytes⟩ spend with
      | (.error e, spend) => (.error e, spend)
      | (.ok sel, spend) =>
        match wanted totalAmount sel.sizeBytes feeRate.toNat with
        | .error e => (.error e, spend)
        | .ok totalNeeded =>
          if sel.foundAmount < totalNeeded then
            (.error (.insufficientFunds sel.foundAmount totalNeeded), spend)
          else
            let computedChange := sel.foundAmount - totalNeeded
            if computedChange < changeDust.toNat then
              (.ok (), { spend with
                changeAmount := 0
                changePath := List.replicate 5 0
                output := if sel.foundChange then spend.output.dropLast else spend.output })
            else
              let spend := { spend with changeAmount := computedChange }
              match spend.output.getLast? with
              | none => (.error .panic, spend)
              | some last =>
                let spend := { spend with
                  output := spend.output.dropLast ++ [{ last with value := UInt64.ofNat computedChange }] }
                if UInt32.ofNat spend.output.length = 0 then (.error .panic, spend)
                else
                  let spend := { spend with changeVout := UInt32.ofNat spend.output.length - 1 }
                  if !sel.foundChange then (.error .walletFull, spend) else (.ok (), spend)

/-! ## 2. What the loop has done -/

/-- Entries `0` to `j - 1` all read, and none reads `Unused`. -/
def NoUnusedBefore (w : EncryptedWallet) (j : Nat) : Prop :=
  ∀ j' < j, ∃ fe : FullEntry Addr, lookupEntry L P w j' = .ok fe ∧ fe.state ≠ .unused

/-- `j` is the first entry that reads `Unused`, and `spend` has its change output of value `v`
    after the outputs of `spend₀`, and its path. -/
def ChangeAt (w : EncryptedWallet) (spend₀ spend : Spend Addr) (v : UInt64) (j : Nat) : Prop :=
  ∃ fe : FullEntry Addr, lookupEntry L P w j = .ok fe ∧ fe.state = .unused ∧
    NoUnusedBefore L P w j ∧ spend.output = spend₀.output ++ [⟨v, P.scriptPubkey fe.address⟩] ∧
    spend.changePath = bip32Path w.network w.account .address (UInt32.ofNat j)

/-- The change part of the loop's state after the entries before `i`: a change output of value 0
    for the first `Unused` entry once `found_change`, and before that no output, no path and no
    `Unused` entry. -/
def ChangeState (w : EncryptedWallet) (spend₀ spend : Spend Addr) (i : Nat) : Bool → Prop
  | true => ∃ j < i, ChangeAt L P w spend₀ spend 0 j
  | false => spend.output = spend₀.output ∧ spend.changePath = spend₀.changePath ∧
      NoUnusedBefore L P w i

/-- What the loop has done after the entries before `i`, from `spend₀` with the size estimate
    `size₀`: `picked` are the inputs it appended. -/
structure Picked (w : EncryptedWallet) (size₀ : Nat) (spend₀ : Spend Addr) (i : Nat)
    (picked : List (FullEntry Addr)) (sel : Selection) (spend : Spend Addr) : Prop where
  input : spend.input = spend₀.input ++ picked
  received : ∀ e ∈ picked, e.state = .received ∧ e.fields.spent = false
  found : sel.foundAmount = amountOf picked
  fits : sel.foundAmount < 2 ^ 64
  size : sel.sizeBytes = size₀ + 150 * picked.length
  change : ChangeState L P w spend₀ spend i sel.foundChange
  changeAmount : spend.changeAmount = spend₀.changeAmount
  changeVout : spend.changeVout = spend₀.changeVout

theorem Picked.start (w : EncryptedWallet) (size₀ : Nat) (spend₀ : Spend Addr) :
    Picked L P w size₀ spend₀ 0 [] ⟨0, false, size₀⟩ spend₀ :=
  ⟨(List.append_nil _).symm, fun _ h => absurd h (List.not_mem_nil _), rfl, by norm_num, rfl,
    ⟨rfl, rfl, fun _ h => absurd h (Nat.not_lt_zero _)⟩, rfl, rfl⟩

theorem NoUnusedBefore.succ {w : EncryptedWallet} {i : Nat} {entry : FullEntry Addr}
    (h : NoUnusedBefore L P w i) (he : lookupEntry L P w i = .ok entry)
    (hs : entry.state ≠ .unused) : NoUnusedBefore L P w (i + 1) := by
  intro j hj
  rcases Nat.lt_succ_iff_lt_or_eq.mp hj with hj | rfl
  · exact h j hj
  · exact ⟨entry, he, hs⟩

/-- An entry that leaves the counters and the spend as they are. -/
theorem Picked.skip {w : EncryptedWallet} {size₀ i : Nat} {spend₀ spend : Spend Addr}
    {picked : List (FullEntry Addr)} {sel : Selection} {entry : FullEntry Addr}
    (hp : Picked L P w size₀ spend₀ i picked sel spend) (he : lookupEntry L P w i = .ok entry)
    (hu : entry.state = .unused → sel.foundChange = true) :
    Picked L P w size₀ spend₀ (i + 1) picked sel spend := by
  refine { hp with change := ?_ }
  have hc := hp.change
  cases hfc : sel.foundChange <;> rw [hfc] at hc
  · exact ⟨hc.1, hc.2.1, hc.2.2.succ L P he fun h => Bool.false_ne_true (hfc ▸ hu h)⟩
  · obtain ⟨j, hj, hch⟩ := hc
    exact ⟨j, Nat.lt_succ_of_lt hj, hch⟩

/-- A `Received` entry not spent, taken as an input, when the amount found with it fits `u64`. -/
theorem Picked.pick {w : EncryptedWallet} {size₀ i : Nat} {spend₀ spend : Spend Addr}
    {picked : List (FullEntry Addr)} {sel : Selection} {entry : FullEntry Addr}
    (hp : Picked L P w size₀ spend₀ i picked sel spend) (he : lookupEntry L P w i = .ok entry)
    (hs : entry.state = .received) (hsp : entry.fields.spent = false)
    (hfit : sel.foundAmount + entry.fields.amount.toNat < 2 ^ 64) :
    Picked L P w size₀ spend₀ (i + 1) (picked ++ [entry])
      ⟨sel.foundAmount + entry.fields.amount.toNat, sel.foundChange, sel.sizeBytes + 150⟩
      { spend with input := spend.input ++ [entry] } := by
  have hk := hp.skip L P he fun h => absurd (hs.symm.trans h) (by decide)
  refine ⟨by rw [hp.input, List.append_assoc], fun e he' => ?_, ?_, hfit, ?_, hk.change,
    hp.changeAmount, hp.changeVout⟩
  · rcases List.mem_append.mp he' with he' | he'
    · exact hp.received e he'
    · rw [List.mem_singleton.mp he']
      exact ⟨hs, hsp⟩
  · simp only [amountOf, List.map_append, List.sum_append, List.map_cons, List.map_nil,
      List.sum_cons, List.sum_nil, Nat.add_zero, hp.found]
  · simp only [hp.size, List.length_append, List.length_singleton]
    ring

/-- The first `Unused` entry, made the change output. -/
theorem Picked.takeChange {w : EncryptedWallet} {size₀ i : Nat} {spend₀ spend : Spend Addr}
    {picked : List (FullEntry Addr)} {sel : Selection} {entry : FullEntry Addr}
    (hp : Picked L P w size₀ spend₀ i picked sel spend) (he : lookupEntry L P w i = .ok entry)
    (hs : entry.state = .unused) (hfc : sel.foundChange = false) :
    Picked L P w size₀ spend₀ (i + 1) picked { sel with foundChange := true }
      { spend with
        output := spend.output ++ [⟨0, P.scriptPubkey entry.address⟩]
        changePath := bip32Path w.network w.account .address (UInt32.ofNat i) } := by
  have hc := hp.change
  rw [hfc] at hc
  obtain ⟨ho, -, hno⟩ := hc
  exact ⟨hp.input, hp.received, hp.found, hp.fits, hp.size,
    ⟨i, Nat.lt_succ_self i, entry, he, hs, hno, by rw [ho], rfl⟩, hp.changeAmount, hp.changeVout⟩

/-- **One entry keeps the invariant**, when the body returns without a panic. -/
theorem picked_selectEntry (totalAmount feeRate : Nat) {w : EncryptedWallet} {size₀ i : Nat}
    {spend₀ spend spend' : Spend Addr} {picked : List (FullEntry Addr)} {sel sel' : Selection}
    {entry : FullEntry Addr} (hp : Picked L P w size₀ spend₀ i picked sel spend)
    (he : lookupEntry L P w i = .ok entry)
    (h : selectEntry P w totalAmount feeRate i entry sel spend = (.ok sel', spend')) :
    ∃ picked', Picked L P w size₀ spend₀ (i + 1) picked' sel' spend' := by
  unfold selectEntry at h
  have hskip : entry.state ≠ .unused → Picked L P w size₀ spend₀ (i + 1) picked sel spend :=
    fun hs => hp.skip L P he fun h => absurd h hs
  split at h
  · rename_i hs
    cases hfc : sel.foundChange <;> simp only [hfc, Bool.not_false, Bool.not_true, if_true,
      if_false, Prod.mk.injEq, Except.ok.injEq, reduceCtorEq] at h <;> obtain ⟨rfl, rfl⟩ := h
    · exact ⟨picked, hp.takeChange L P he hs hfc⟩
    · exact ⟨picked, hp.skip L P he fun _ => hfc⟩
  · cases h
    exact ⟨picked, hskip (by simp [*])⟩
  · cases h
    exact ⟨picked, hskip (by simp [*])⟩
  · rename_i hs
    split at h
    · rename_i hsp
      split at h
      · cases h
      split at h
      · dsimp only at h
        split at h
        · cases h
        rename_i size hsize
        split at h
        · cases h
        rename_i found hfound
        cases h
        obtain ⟨rfl, -⟩ := u64Checked_eq_ok.mp hsize
        obtain ⟨rfl, hfit⟩ := u64Checked_eq_ok.mp hfound
        exact ⟨_, hp.pick L P he hs (by simpa using hsp) hfit⟩
      · cases h
        exact ⟨picked, hskip (by simp [*])⟩
    · cases h
      exact ⟨picked, hskip (by simp [*])⟩

/-- The body fails only on a panic: an overflow. -/
theorem selectEntry_error {w : EncryptedWallet} {totalAmount feeRate i : Nat}
    {entry : FullEntry Addr} {sel : Selection} {spend spend' : Spend Addr} {e : LegacyError}
    (h : selectEntry P w totalAmount feeRate i entry sel spend = (.error e, spend')) :
    e = .panic := by
  unfold selectEntry at h
  split at h
  · split at h <;> cases h
  · cases h
  · cases h
  · split at h
    · split at h
      · cases h; exact wanted_error ‹_›
      split at h
      · dsimp only at h
        split at h
        · cases h; exact u64Checked_error ‹_›
        split at h
        · cases h; exact u64Checked_error ‹_›
        · cases h
      · cases h
    · cases h

/-- **The loop keeps the invariant**: when it ends without a failure it has gone through every
    entry, or it quit early with a change output. -/
theorem picked_selectFrom {w : EncryptedWallet} {size₀ totalAmount feeRate : Nat}
    {spend₀ : Spend Addr} :
    ∀ (k i : Nat) (picked : List (FullEntry Addr)) (sel : Selection) (spend : Spend Addr),
    Picked L P w size₀ spend₀ i picked sel spend →
    ∀ {sel' : Selection} {spend' : Spend Addr},
    selectFrom L P w totalAmount feeRate i k sel spend = (.ok sel', spend') →
    ∃ i' picked', Picked L P w size₀ spend₀ i' picked' sel' spend' ∧
      (sel'.foundChange = false → i' = i + k)
  | 0, i, picked, sel, spend, hp, _, _, h => by
    cases h
    exact ⟨i, picked, hp, fun _ => rfl⟩
  | k + 1, i, picked, sel, spend, hp, _, _, h => by
    unfold selectFrom at h
    split at h
    · cases h
    rename_i entry he
    split at h
    · cases h
    rename_i sel₁ spend₁ hs
    obtain ⟨picked₁, hp₁⟩ := picked_selectEntry L P totalAmount feeRate hp he hs
    have hrest : ∀ {sel' : Selection} {spend' : Spend Addr},
        selectFrom L P w totalAmount feeRate (i + 1) k sel₁ spend₁ = (.ok sel', spend') →
        ∃ i' picked', Picked L P w size₀ spend₀ i' picked' sel' spend' ∧
          (sel'.foundChange = false → i' = i + (k + 1)) := fun h => by
      obtain ⟨i', picked', hp', hi⟩ := picked_selectFrom k (i + 1) _ _ _ hp₁ h
      exact ⟨i', picked', hp', fun hf => (hi hf).trans (by omega)⟩
    split at h
    · rename_i hfc
      split at h
      · cases h
      split at h
      · cases h
        exact ⟨i + 1, picked₁, hp₁, fun hf => absurd hfc (by rw [hf]; decide)⟩
      · exact hrest h
    · exact hrest h

/-! ## 3. What the call leaves -/

/-- A lookup never fails with `WalletFull`. -/
theorem lookupEntry_ne_walletFull (w : EncryptedWallet) (i : Nat) :
    lookupEntry L P w i ≠ .error .walletFull := fun h => by
  rcases lookupEntry_error L P h with h | ⟨_, h⟩ | h | h | ⟨_, h⟩ <;> cases h

/-- The loop fails only where a lookup fails, or on an overflow. -/
theorem selectFrom_error {w : EncryptedWallet} {totalAmount feeRate : Nat} :
    ∀ {k i : Nat} {sel : Selection} {spend spend' : Spend Addr} {e : LegacyError},
    selectFrom L P w totalAmount feeRate i k sel spend = (.error e, spend') →
      (∃ j, lookupEntry L P w j = .error e) ∨ e = .panic
  | 0, _, _, _, _, _, h => by cases h
  | k + 1, i, sel, spend, _, _, h => by
    unfold selectFrom at h
    split at h
    · rename_i e' he
      cases h
      exact .inl ⟨i, he⟩
    split at h
    · cases h
      exact .inr (selectEntry_error P ‹_›)
    split at h
    · split at h
      · cases h
        exact .inr (wanted_error ‹_›)
      split at h
      · cases h
      · exact selectFrom_error h
    · exact selectFrom_error h

/-- The size estimate and the sum of the outputs, computed before the loop, are their values. -/
theorem getInputsAndChange_start {spend : Spend Addr} {sizeBytes totalAmount : Nat}
    (hs : u64Checked spend.baseSize = .ok sizeBytes)
    (ht : sumValues spend.output 0 = .ok totalAmount) :
    sizeBytes = spend.baseSize ∧ totalAmount = spend.totalAmount := by
  rw [sumValues_eq _ 0 (by norm_num), Nat.zero_add] at ht
  exact ⟨(u64Checked_eq_ok.mp hs).1.symm, (u64Checked_eq_ok.mp ht).1.symm⟩

/-- A spend of one output of 1000 to the script `[1]`. -/
def spendSample : Spend Unit := ⟨[], [⟨1000, ⟨[1]⟩⟩], [], 0, 0⟩

/-- **`WalletFull` after overwriting an output.** A call fails with `WalletFull` only when every
    entry reads and none reads `Unused` and the change is at least the dust; and by then it has
    written the change into the value of the last output it was given (it panics when there is
    none) and set the change amount. -/
theorem getInputsAndChange_walletFull {changeDust feeRate : UInt64} {w : EncryptedWallet}
    {spend spend' : Spend Addr}
    (h : getInputsAndChange L P changeDust w feeRate spend = (.error .walletFull, spend')) :
    NoUnusedBefore L P w w.entries.length ∧ changeDust.toNat ≤ spend'.changeAmount ∧
      ∃ last, spend.output.getLast? = some last ∧
        spend'.output = spend.output.dropLast ++
          [{ last with value := UInt64.ofNat spend'.changeAmount }] := by
  unfold getInputsAndChange at h
  split at h
  · cases h
    cases u64Checked_error ‹_›
  rename_i sizeBytes hsize
  split at h
  · cases h
    cases sumValues_error ‹_›
  rename_i totalAmount htotal
  obtain ⟨rfl, rfl⟩ := getInputsAndChange_start hsize htotal
  split at h
  · rename_i e spend₁ hs
    cases h
    rcases selectFrom_error L P hs with ⟨i, hl⟩ | h
    · exact absurd hl (lookupEntry_ne_walletFull L P w i)
    · cases h
  rename_i sel spend₁ hs
  obtain ⟨i, picked, hp, hi⟩ :=
    picked_selectFrom L P _ 0 [] _ _ (Picked.start L P w spend.baseSize spend) hs
  have hc := hp.change
  split at h
  · cases h
    cases wanted_error ‹_›
  split at h
  · cases h
  dsimp only at h
  split at h
  · cases h
  rename_i hnd
  split at h
  · cases h
  rename_i last hlast
  split at h
  · cases h
  split at h
  · rename_i hfc
    cases h
    simp only [Bool.not_eq_true'] at hfc
    rw [hfc] at hc
    obtain ⟨ho, -, hno⟩ := hc
    rw [hi hfc, Nat.zero_add] at hno
    rw [ho] at hlast
    exact ⟨hno, Nat.le_of_not_lt hnd, last, hlast, by rw [ho]⟩
  · cases h

set_option maxRecDepth 20000 in
theorem getInputsAndChange_walletFull_sample : ∃ spend',
    getInputsAndChange fundingLedger plainPrimitives 546 fundedSession.wallet 1000 spendSample =
      (.error .walletFull, spend') ∧
    NoUnusedBefore fundingLedger plainPrimitives fundedSession.wallet
      fundedSession.wallet.entries.length ∧ (546 : UInt64).toNat ≤ spend'.changeAmount ∧
      ∃ last, spendSample.output.getLast? = some last ∧
        spend'.output = spendSample.output.dropLast ++
          [{ last with value := UInt64.ofNat spend'.changeAmount }] := by
  refine ⟨?spend', ?h, getInputsAndChange_walletFull fundingLedger plainPrimitives ?h⟩
  case h => exact rfl

/-- **Outputs worth `2^64` or more panic**: the `total_amount` loop overflows, whatever the
    wallet, before the call touches the spend. -/
theorem getInputsAndChange_total_overflow (changeDust feeRate : UInt64) (w : EncryptedWallet)
    {spend : Spend Addr} (h : 2 ^ 64 ≤ spend.totalAmount) :
    getInputsAndChange L P changeDust w feeRate spend = (.error .panic, spend) := by
  unfold getInputsAndChange
  split
  · rename_i e he
    rw [u64Checked_error he]
  · rw [sumValues_eq _ 0 (by norm_num), Nat.zero_add, ← Spend.totalAmount, u64Checked_of_le h]

/-- Two outputs, of `u64::MAX` and of 1. -/
def spendOverflow : Spend Unit := ⟨[], [⟨0xffffffffffffffff, ⟨[]⟩⟩, ⟨1, ⟨[]⟩⟩], [], 0, 0⟩

theorem getInputsAndChange_total_overflow_sample :
    2 ^ 64 ≤ spendOverflow.totalAmount ∧
    getInputsAndChange fundingLedger plainPrimitives 546 fundedSession.wallet 1000 spendOverflow =
      (.error .panic, spendOverflow) :=
  ⟨by decide, getInputsAndChange_total_overflow fundingLedger plainPrimitives 546 1000 _ (by decide)⟩

end Select

end Icboc

end Icebox
