import Icebox.Wallet.Ops

/-!
# Scanning blocks

`scan_block` is three nested loops: transactions in block order, each transaction's outputs, then
its inputs. This file flattens a scan into the events it reads, in scan order, and states what
the loops compute from them:

* `ScanEvent`, `Block.events` -- the scan order: for each transaction, an `output` event per output
  (at outpoint `(txid, vout as u32)`), then an `input` event per input;
* `applyEvent` -- what one event does to `txos`; `scanTxs_txos`: the loops are the left fold of
  `applyEvent` over the events;
* `track` -- the same fold seen from one outpoint (`get?_foldl_applyEvent`);
* `foldl_track_of_unmatched`, `foldl_track_of_last_match` -- the closed form: the entry at `o` is the
  Txo built by the last matching output at `o`, marked spent by the last input spending `o` after
  it (`markSpent`), or, with no matching output, the initial entry marked spent by the last input;
* `scanBlock_received`, `scanBlock_spent` -- the sets one call returns;
* **`scanBlocks_semantics`** -- all of it for a sequence of blocks.
-/

namespace Icebox

/-- One step of a scan. -/
inductive ScanEvent
  | output (outpoint : OutPoint) (out : TxOut) (height : UInt64)
  | input (previousOutput : OutPoint) (spender : Txid) (height : UInt64)
deriving DecidableEq

/-- The output events of a transaction, numbering its outputs from `vout`. -/
def outputEvents (txid : Txid) (height : UInt64) : Nat → List TxOut → List ScanEvent
  | _, [] => []
  | vout, out :: outs =>
    .output ⟨txid, UInt32.ofNat vout⟩ out height :: outputEvents txid height (vout + 1) outs

/-- The input events of a transaction. -/
def inputEvents (txid : Txid) (height : UInt64) (ins : List TxIn) : List ScanEvent :=
  ins.map fun i => .input i.previousOutput txid height

/-- The events of a transaction: all its outputs, then its inputs. -/
def Transaction.events (tx : Transaction) (height : UInt64) : List ScanEvent :=
  outputEvents tx.txid height 0 tx.output ++ inputEvents tx.txid height tx.input

/-- The events of a block at a height, in scan order. -/
def Block.events (b : Block) (height : UInt64) : List ScanEvent :=
  b.txdata.flatMap fun tx => tx.events height

/-! ## 1. One event at a time -/

section Events

variable (c : ScriptPubkeyCache)

/-- An output at `o` whose script the cache knows. -/
def matchesAt (o : OutPoint) : ScanEvent → Bool
  | .output o' out _ => o' = o && c.spks.contains out.scriptPubkey
  | .input .. => false

/-- An input spending `o`. -/
def spendsAt (o : OutPoint) : ScanEvent → Bool
  | .output .. => false
  | .input p _ _ => p = o

/-- The spending transaction and height of an input spending `o`. -/
def spendOf (o : OutPoint) : ScanEvent → Option (Txid × UInt64)
  | .output .. => none
  | .input p sp h => if p = o then some (sp, h) else none

/-- `t` marked spent by the last input spending `o` among `evs`, if there is one. -/
def markSpent (evs : List ScanEvent) (o : OutPoint) (t : Txo) : Txo :=
  match (evs.filterMap (spendOf o)).getLast? with
  | some (sp, h) => t.setSpent sp h
  | none => t

@[simp] theorem markSpent_outpoint (evs : List ScanEvent) (o : OutPoint) (t : Txo) :
    (markSpent evs o t).outpoint = t.outpoint := by
  unfold markSpent; split <;> rfl

@[simp] theorem markSpent_descriptorIdx (evs : List ScanEvent) (o : OutPoint) (t : Txo) :
    (markSpent evs o t).descriptorIdx = t.descriptorIdx := by
  unfold markSpent; split <;> rfl

@[simp] theorem markSpent_wildcardIdx (evs : List ScanEvent) (o : OutPoint) (t : Txo) :
    (markSpent evs o t).wildcardIdx = t.wildcardIdx := by
  unfold markSpent; split <;> rfl

/-- What one event does to `txos`. -/
def applyEvent (txos : HashMap OutPoint Txo) : ScanEvent → HashMap OutPoint Txo
  | .output o out h =>
    match c.spks.get? out.scriptPubkey with
    | some (didx, widx) => txos.insert o (Txo.new didx widx o out.value h)
    | none => txos
  | .input p sp h => txos.modify p (·.setSpent sp h)

/-- What one event does to the entry at `o`. -/
def track (o : OutPoint) (t : Option Txo) : ScanEvent → Option Txo
  | .output o' out h =>
    if o' = o then
      match c.spks.get? out.scriptPubkey with
      | some (didx, widx) => some (Txo.new didx widx o out.value h)
      | none => t
    else t
  | .input p sp h => if p = o then t.map (·.setSpent sp h) else t

theorem get?_applyEvent (txos : HashMap OutPoint Txo) (o : OutPoint) (ev : ScanEvent) :
    (applyEvent c txos ev).get? o = track c o (txos.get? o) ev := by
  cases ev with
  | output o' out h =>
    simp only [applyEvent, track]
    by_cases ho : o' = o
    · subst ho; split <;> simp_all
    · split <;> simp [ho, Ne.symm ho]
  | input p sp h =>
    by_cases hp : p = o
    · subst hp; simp [applyEvent, track]
    · simp [applyEvent, track, hp, Ne.symm hp]

theorem get?_foldl_applyEvent (o : OutPoint) (evs : List ScanEvent) (txos : HashMap OutPoint Txo) :
    (evs.foldl (applyEvent c) txos).get? o = evs.foldl (track c o) (txos.get? o) := by
  induction evs generalizing txos with
  | nil => rfl
  | cons ev evs ih => simp [ih, get?_applyEvent]

theorem markSpent_cons_of_spendOf {o : OutPoint} {ev : ScanEvent} {sp : Txid} {h : UInt64}
    (he : spendOf o ev = some (sp, h)) (evs : List ScanEvent) :
    markSpent (ev :: evs) o = fun t => markSpent evs o (t.setSpent sp h) := by
  funext t
  unfold markSpent
  rw [List.filterMap_cons_some he, List.getLast?_cons]
  cases (evs.filterMap (spendOf o)).getLast? <;> rfl

theorem markSpent_cons_of_spendOf_none {o : OutPoint} {ev : ScanEvent}
    (he : spendOf o ev = none) (evs : List ScanEvent) :
    markSpent (ev :: evs) o = markSpent evs o := by
  funext t
  unfold markSpent
  rw [List.filterMap_cons_none he]

/-- **With no matching output at `o`**, the entry at `o` is the initial one marked spent by the last
    input spending `o`. -/
theorem foldl_track_of_unmatched (o : OutPoint) :
    ∀ (evs : List ScanEvent) (t : Option Txo), (∀ ev ∈ evs, matchesAt c o ev = false) →
    evs.foldl (track c o) t = t.map (markSpent evs o)
  | [], t, _ => by cases t <;> rfl
  | ev :: evs, t, h => by
    have ih := foldl_track_of_unmatched o evs
    have hev := h ev (List.mem_cons_self ev evs)
    simp only [List.foldl_cons]
    rw [ih _ fun e he => h e (List.mem_cons_of_mem ev he)]
    cases ev with
    | output o' out ht =>
      have hs : spendOf o (.output o' out ht) = none := rfl
      rw [markSpent_cons_of_spendOf_none hs]
      by_cases ho : o' = o
      · subst ho
        have hn : c.spks.get? out.scriptPubkey = none := by
          simpa [matchesAt, HashMap.contains, Option.isSome_iff_ne_none] using hev
        simp [track, hn]
      · simp [track, ho]
    | input p sp ht =>
      by_cases hp : p = o
      · subst hp
        have hs : spendOf p (.input p sp ht) = some (sp, ht) := by simp [spendOf]
        cases t <;> simp [track, markSpent_cons_of_spendOf hs]
      · have hs : spendOf o (.input p sp ht) = none := by simp [spendOf, hp]
        simp [track, hp, markSpent_cons_of_spendOf_none hs]

/-- **After the last matching output at `o`**, the entry at `o` is the Txo it built, marked spent
    by the last input spending `o` that follows it. -/
theorem foldl_track_of_last_match {o : OutPoint} {out : TxOut} {h : UInt64} {didx widx : UInt32}
    (hc : c.spks.get? out.scriptPubkey = some (didx, widx)) (pre post : List ScanEvent)
    (hpost : ∀ ev ∈ post, matchesAt c o ev = false) (t : Option Txo) :
    (pre ++ .output o out h :: post).foldl (track c o) t =
      some (markSpent post o (Txo.new didx widx o out.value h)) := by
  rw [List.foldl_append, List.foldl_cons, foldl_track_of_unmatched c o post _ hpost]
  simp [track, hc]

/-- What holds of the entry at `o` before the events, of every Txo a matching output at `o` among
    them builds, and survives `set_spent`, holds of the entry after them. -/
theorem foldl_track_induct (o : OutPoint) (P : Txo → Prop) (evs : List ScanEvent)
    (hnew : ∀ out h didx widx, ScanEvent.output o out h ∈ evs →
      c.spks.get? out.scriptPubkey = some (didx, widx) → P (Txo.new didx widx o out.value h))
    (hspent : ∀ t sp h, P t → P (t.setSpent sp h)) :
    ∀ t₀ : Option Txo, (∀ t, t₀ = some t → P t) → ∀ t, evs.foldl (track c o) t₀ = some t → P t := by
  induction evs with
  | nil => exact fun t₀ h0 => h0
  | cons ev evs ih =>
    intro t₀ h0
    refine ih (fun out h didx widx hm => hnew out h didx widx (List.mem_cons_of_mem ev hm)) _ ?_
    intro t ht
    cases ev with
    | output o' out h =>
      simp only [track] at ht
      split at ht
      · split at ht
        · rename_i didx widx hg
          cases ht
          subst o'
          exact hnew out h didx widx (List.mem_cons_self _ _) hg
        · exact h0 t ht
      · exact h0 t ht
    | input p sp h =>
      simp only [track] at ht
      split at ht
      · obtain ⟨t', h', rfl⟩ := Option.map_eq_some'.mp ht
        exact hspent t' sp h (h0 t' h')
      · exact h0 t ht

/-- The entry at `o` exists exactly when it did before or a matching output at `o` was scanned. -/
theorem isSome_foldl_track (o : OutPoint) :
    ∀ (evs : List ScanEvent) (t : Option Txo),
    (evs.foldl (track c o) t).isSome = (t.isSome || evs.any (matchesAt c o))
  | [], t => by simp
  | ev :: evs, t => by
    rw [List.foldl_cons, isSome_foldl_track o evs, List.any_cons]
    cases ev with
    | output o' out ht =>
      by_cases ho : o' = o
      · subst ho
        simp only [track, if_true, matchesAt, HashMap.contains]
        split <;> simp_all
      · simp [track, matchesAt, ho]
    | input p sp ht => by_cases hp : p = o <;> simp [track, matchesAt, hp]

/-- Some input spending `o` is scanned while `o` is tracked. -/
def spentIn (o : OutPoint) : Option Txo → List ScanEvent → Bool
  | _, [] => false
  | t, ev :: evs => (spendsAt o ev && t.isSome) || spentIn o (track c o t ev) evs

theorem spentIn_append (o : OutPoint) (t : Option Txo) (l₁ l₂ : List ScanEvent) :
    spentIn c o t (l₁ ++ l₂) = (spentIn c o t l₁ || spentIn c o (l₁.foldl (track c o) t) l₂) := by
  induction l₁ generalizing t with
  | nil => simp [spentIn]
  | cons ev l₁ ih => simp [spentIn, ih, Bool.or_assoc]

/-- **`o` is spent in `evs`** exactly when an input spending it comes after `o` is tracked: before
    the events, or after a matching output at `o`. -/
theorem spentIn_iff (o : OutPoint) : ∀ (evs : List ScanEvent) (t : Option Txo),
    spentIn c o t evs = true ↔ ∃ pre ev post, evs = pre ++ ev :: post ∧ spendsAt o ev = true ∧
      (t.isSome ∨ ∃ e ∈ pre, matchesAt c o e = true)
  | [], t => by simp [spentIn]
  | ev :: evs, t => by
    have ih := spentIn_iff o evs (track c o t ev)
    have hs := isSome_foldl_track c o [ev] t
    simp only [List.foldl_cons, List.foldl_nil, List.any_cons, List.any_nil, Bool.or_false] at hs
    simp only [spentIn, Bool.or_eq_true, Bool.and_eq_true, ih, hs]
    constructor
    · rintro (⟨hsp, ht⟩ | ⟨pre, e, post, rfl, he, hm⟩)
      · exact ⟨[], ev, evs, rfl, hsp, .inl ht⟩
      · refine ⟨ev :: pre, e, post, rfl, he, ?_⟩
        rcases hm with (hm | hm) | ⟨e', he', hm'⟩
        · exact .inl hm
        · exact .inr ⟨ev, List.mem_cons_self ev pre, hm⟩
        · exact .inr ⟨e', List.mem_cons_of_mem ev he', hm'⟩
    · rintro ⟨pre, e, post, hev, he, hm⟩
      cases pre with
      | nil =>
        simp only [List.nil_append, List.cons.injEq] at hev
        obtain ⟨rfl, rfl⟩ := hev
        simp at hm
        exact .inl ⟨he, hm⟩
      | cons e₀ pre =>
        simp only [List.cons_append, List.cons.injEq] at hev
        obtain ⟨rfl, rfl⟩ := hev
        refine .inr ⟨pre, e, post, rfl, he, ?_⟩
        rcases hm with hm | ⟨e', he', hm'⟩
        · exact .inl (.inl hm)
        · rcases List.mem_cons.mp he' with rfl | he'
          · exact .inl (.inr hm')
          · exact .inr ⟨e', he', hm'⟩

theorem spentIn_of_not_spends (o : OutPoint) : ∀ (evs : List ScanEvent) (t : Option Txo),
    (∀ ev ∈ evs, spendsAt o ev = false) → spentIn c o t evs = false
  | [], _, _ => rfl
  | ev :: evs, t, h => by
    simp [spentIn, h ev (List.mem_cons_self ev evs),
      spentIn_of_not_spends o evs _ fun e he => h e (List.mem_cons_of_mem ev he)]

theorem spentIn_inputEvents (o : OutPoint) (txid : Txid) (height : UInt64) :
    ∀ (ins : List TxIn) (t : Option Txo),
    spentIn c o t (inputEvents txid height ins) = (t.isSome && ins.any (·.previousOutput = o))
  | [], t => by simp [spentIn, inputEvents]
  | i :: ins, t => by
    have ih := spentIn_inputEvents o txid height ins
    by_cases hp : i.previousOutput = o
    · cases t <;> simp_all [spentIn, inputEvents, spendsAt, track]
    · simp_all [spentIn, inputEvents, spendsAt, track]

end Events

/-! ## 2. The loops of `scan_block` -/

theorem mem_outputEvents {txid : Txid} {height : UInt64} {ev : ScanEvent} :
    ∀ {vout : Nat} {outs : List TxOut}, ev ∈ outputEvents txid height vout outs →
    ∃ o out, out ∈ outs ∧ ev = .output o out height
  | _, [], h => absurd h (List.not_mem_nil _)
  | _, out :: _, h => by
    rcases List.mem_cons.mp h with rfl | h
    · exact ⟨_, out, List.mem_cons_self _ _, rfl⟩
    · obtain ⟨o, out', hout, rfl⟩ := mem_outputEvents h
      exact ⟨o, out', List.mem_cons_of_mem _ hout, rfl⟩

theorem outputEvents_append_singleton (txid : Txid) (height : UInt64) (out : TxOut) :
    ∀ (vout : Nat) (outs : List TxOut), outputEvents txid height vout (outs ++ [out]) =
      outputEvents txid height vout outs ++
        [.output ⟨txid, UInt32.ofNat (vout + outs.length)⟩ out height]
  | vout, [] => rfl
  | vout, o :: outs => by
    show ScanEvent.output _ o height :: outputEvents txid height (vout + 1) (outs ++ [out]) = _
    rw [outputEvents_append_singleton txid height out (vout + 1) outs, List.length_cons,
      Nat.add_right_comm, ← Nat.add_assoc]
    rfl

section Loops

variable (c : ScriptPubkeyCache) (txid : Txid) (height : UInt64)

theorem scanOutputs_txos : ∀ (vout : Nat) (outs : List TxOut) (txos : HashMap OutPoint Txo)
    (received : HashSet OutPoint), (scanOutputs c txid height vout outs txos received).1 =
      (outputEvents txid height vout outs).foldl (applyEvent c) txos
  | _, [], _, _ => rfl
  | vout, out :: outs, txos, received => by
    rcases hc : c.spks.get? out.scriptPubkey with _ | ⟨didx, widx⟩ <;>
      simp only [scanOutputs, outputEvents, List.foldl_cons, applyEvent, hc] <;>
      exact scanOutputs_txos _ outs _ _

theorem scanOutputs_received : ∀ (vout : Nat) (outs : List TxOut) (txos : HashMap OutPoint Txo)
    (received : HashSet OutPoint) (o : OutPoint),
    (scanOutputs c txid height vout outs txos received).2.contains o =
      (received.contains o || (outputEvents txid height vout outs).any (matchesAt c o))
  | _, [], _, _, o => by simp [scanOutputs, outputEvents]
  | vout, out :: outs, txos, received, o => by
    have ih := scanOutputs_received (vout + 1) outs
    rcases hc : c.spks.get? out.scriptPubkey with _ | ⟨didx, widx⟩
    · have hm : c.spks.contains out.scriptPubkey = false := by simp [HashMap.contains, hc]
      simp only [scanOutputs, outputEvents, List.any_cons, matchesAt, hc, ih, hm, Bool.and_false,
        Bool.false_or]
    · have hm : c.spks.contains out.scriptPubkey = true := by simp [HashMap.contains, hc]
      simp only [scanOutputs, outputEvents, List.any_cons, matchesAt, hc, ih, hm, Bool.and_true,
        HashSet.contains_insert]
      by_cases ho : (⟨txid, UInt32.ofNat vout⟩ : OutPoint) = o
      · subst ho; simp
      · simp [ho, Ne.symm ho]

theorem scanInputs_txos : ∀ (ins : List TxIn) (txos : HashMap OutPoint Txo)
    (spent : HashSet OutPoint),
    (scanInputs txid height ins txos spent).1 = (inputEvents txid height ins).foldl (applyEvent c) txos
  | [], _, _ => rfl
  | i :: ins, txos, spent => by
    simp only [scanInputs, inputEvents, List.map_cons, List.foldl_cons, applyEvent]
    by_cases hc : txos.contains i.previousOutput = true
    · rw [if_pos hc]; exact scanInputs_txos ins _ _
    · rw [if_neg hc, HashMap.modify_of_not_contains _ (by simpa using hc)]
      exact scanInputs_txos ins _ _

theorem scanInputs_spent : ∀ (ins : List TxIn) (txos : HashMap OutPoint Txo)
    (spent : HashSet OutPoint) (o : OutPoint),
    (scanInputs txid height ins txos spent).2.contains o =
      (spent.contains o || (txos.contains o && ins.any (·.previousOutput = o)))
  | [], _, _, o => by simp [scanInputs]
  | i :: ins, txos, spent, o => by
    simp only [scanInputs, List.any_cons]
    split
    · rename_i hc
      rw [scanInputs_spent]
      by_cases hp : i.previousOutput = o
      · subst hp; simp [hc]
      · simp [hp, Ne.symm hp]
    · rename_i hc
      rw [scanInputs_spent]
      by_cases hp : i.previousOutput = o
      · subst hp; simp_all
      · simp [hp]

theorem scanTxs_txos (txs : List Transaction) : ∀ (txos : HashMap OutPoint Txo)
    (received spent : HashSet OutPoint), (scanTxs c height txs txos received spent).1 =
      (txs.flatMap fun tx => tx.events height).foldl (applyEvent c) txos := by
  induction txs with
  | nil => intros; rfl
  | cons tx txs ih =>
    intro txos received spent
    simp only [scanTxs, ih, scanInputs_txos c, scanOutputs_txos c, List.flatMap_cons,
      Transaction.events, List.foldl_append]

theorem scanTxs_received (txs : List Transaction) (o : OutPoint) : ∀ (txos : HashMap OutPoint Txo)
    (received spent : HashSet OutPoint), (scanTxs c height txs txos received spent).2.1.contains o =
      (received.contains o || (txs.flatMap fun tx => tx.events height).any (matchesAt c o)) := by
  induction txs with
  | nil => intros; simp [scanTxs]
  | cons tx txs ih =>
    intro txos received spent
    have hin : (inputEvents tx.txid height tx.input).any (matchesAt c o) = false := by
      simp [inputEvents, matchesAt]
    simp only [scanTxs, ih, scanOutputs_received c, List.flatMap_cons, Transaction.events,
      List.any_append, hin, Bool.or_false, Bool.or_assoc]

theorem scanTxs_spent (txs : List Transaction) (o : OutPoint) : ∀ (txos : HashMap OutPoint Txo)
    (received spent : HashSet OutPoint), (scanTxs c height txs txos received spent).2.2.contains o =
      (spent.contains o || spentIn c o (txos.get? o) (txs.flatMap fun tx => tx.events height)) := by
  induction txs with
  | nil => intros; simp [scanTxs, spentIn]
  | cons tx txs ih =>
    intro txos received spent
    have hout : ∀ t, spentIn c o t (outputEvents tx.txid height 0 tx.output) = false := fun t =>
      spentIn_of_not_spends c o _ _ fun ev hev => by
        obtain ⟨o', out, -, rfl⟩ := mem_outputEvents hev; rfl
    simp only [scanTxs]
    rw [ih, scanInputs_spent, scanInputs_txos c, scanOutputs_txos c]
    simp only [List.flatMap_cons, Transaction.events, List.append_assoc, spentIn_append, hout,
      spentIn_inputEvents, get?_foldl_applyEvent, HashMap.contains, Bool.false_or, Bool.or_assoc]

end Loops

/-! ## 3. Blocks -/

section Blocks

variable {Desc PublicKey : Type} (c : ScriptPubkeyCache)

/-- `scan_block` writes `txos` only: the fold of `applyEvent` over the block's events. -/
theorem scanBlock_wallet (b : Block) (h : UInt64) (w : Wallet Desc PublicKey) :
    (scanBlock b h c w).2 = { w with txos := (b.events h).foldl (applyEvent c) w.txos } := by
  simp [scanBlock, scanTxs_txos, Block.events]

/-- `scan_block` succeeds, with the received and the spent outpoints of the block. -/
theorem scanBlock_result (b : Block) (h : UInt64) (w : Wallet Desc PublicKey) :
    ∃ received spent, (scanBlock b h c w).1 = .ok (received, spent) ∧
      (∀ o, received.contains o = (b.events h).any (matchesAt c o)) ∧
      (∀ o, spent.contains o = spentIn c o (w.txos.get? o) (b.events h)) :=
  ⟨_, _, rfl, fun o => by simp [scanTxs_received, Block.events],
    fun o => by simp [scanTxs_spent, Block.events]⟩

theorem mem_outputEvents_of_getElem? {txid : Txid} {height : UInt64} :
    ∀ (vout v : Nat) {outs : List TxOut} {out : TxOut}, outs[v]? = some out →
    ScanEvent.output ⟨txid, UInt32.ofNat (vout + v)⟩ out height ∈ outputEvents txid height vout outs
  | _, _, [], _, h => by cases h
  | vout, 0, _ :: _, _, h => by
    simp only [List.getElem?_cons_zero, Option.some.injEq] at h
    subst h; exact List.mem_cons_self _ _
  | vout, v + 1, _ :: _, _, h => by
    have : ScanEvent.output ⟨txid, UInt32.ofNat (vout + 1 + v)⟩ _ height ∈ _ :=
      mem_outputEvents_of_getElem? (vout + 1) v (by simpa using h)
    rw [Nat.add_right_comm] at this
    exact List.mem_cons_of_mem _ this

/-- The output at position `v` of a transaction of the block is scanned at `(txid, v as u32)`. -/
theorem mem_events_of_getElem? {b : Block} {h : UInt64} {tx : Transaction} (htx : tx ∈ b.txdata)
    {v : Nat} {out : TxOut} (hv : tx.output[v]? = some out) :
    ScanEvent.output ⟨tx.txid, UInt32.ofNat v⟩ out h ∈ b.events h :=
  List.mem_flatMap.mpr ⟨tx, htx,
    List.mem_append_left _ (by simpa using mem_outputEvents_of_getElem? 0 v hv)⟩

/-- **`scan_block` records every payment to a script the cache knows**: its outpoint is received,
    and tracked afterwards. -/
theorem scanBlock_records (b : Block) (h : UInt64) (w : Wallet Desc PublicKey) {tx : Transaction}
    (htx : tx ∈ b.txdata) {v : Nat} {out : TxOut} (hv : tx.output[v]? = some out)
    (hc : c.spks.contains out.scriptPubkey) :
    ∃ received spent, (scanBlock b h c w).1 = .ok (received, spent) ∧
      received.contains ⟨tx.txid, UInt32.ofNat v⟩ ∧
      (scanBlock b h c w).2.txos.contains ⟨tx.txid, UInt32.ofNat v⟩ := by
  have hm : (b.events h).any (matchesAt c ⟨tx.txid, UInt32.ofNat v⟩) :=
    List.any_eq_true.mpr ⟨_, mem_events_of_getElem? htx hv, by simp [matchesAt, hc]⟩
  obtain ⟨received, spent, hr, hrec, -⟩ := scanBlock_result c b h w
  refine ⟨received, spent, hr, by rw [hrec]; exact hm, ?_⟩
  rw [scanBlock_wallet, HashMap.contains, get?_foldl_applyEvent, isSome_foldl_track, hm,
    Bool.or_true]

/-- `scan_block` with the cache `c` on each `(block, height)` in turn: every call's result, and the
    wallet at the end. -/
def scanBlocks : List (Block × UInt64) → Wallet Desc PublicKey →
    List (Except Error (HashSet OutPoint × HashSet OutPoint)) × Wallet Desc PublicKey
  | [], w => ([], w)
  | (b, h) :: bs, w =>
    let r := scanBlock b h c w
    let rs := scanBlocks bs r.2
    (r.1 :: rs.1, rs.2)

/-- The events of a sequence of blocks, in scan order. -/
def blocksEvents (bs : List (Block × UInt64)) : List ScanEvent :=
  bs.flatMap fun bh => bh.1.events bh.2

theorem scanBlocks_wallet : ∀ (bs : List (Block × UInt64)) (w : Wallet Desc PublicKey),
    (scanBlocks c bs w).2 = { w with txos := (blocksEvents bs).foldl (applyEvent c) w.txos }
  | [], w => rfl
  | (b, h) :: bs, w => by
    simp [scanBlocks, scanBlocks_wallet bs, scanBlock_wallet, blocksEvents, List.foldl_append]

/-- **Scan semantics.** Scanning a sequence of blocks with one cache `c`, from any wallet, the final
    entry at an outpoint `o` is (a) the Txo built from the last scanned output at `o` whose script
    `c` knows, marked spent by the last input spending `o` after it, or (b), with no such output,
    the initial entry marked spent by the last input spending `o`; nothing but `txos` changes.
    Every call succeeds; its received set holds the outpoints of the block's matching outputs, its
    spent set the outpoints its inputs spend while they are tracked. -/
theorem scanBlocks_semantics (w : Wallet Desc PublicKey) (bs : List (Block × UInt64)) :
    (∀ o pre out h post didx widx, blocksEvents bs = pre ++ .output o out h :: post →
      c.spks.get? out.scriptPubkey = some (didx, widx) →
      (∀ ev ∈ post, matchesAt c o ev = false) →
      (scanBlocks c bs w).2.txos.get? o =
        some (markSpent post o (Txo.new didx widx o out.value h))) ∧
    (∀ o, (∀ ev ∈ blocksEvents bs, matchesAt c o ev = false) →
      (scanBlocks c bs w).2.txos.get? o = (w.txos.get? o).map (markSpent (blocksEvents bs) o)) ∧
    (scanBlocks c bs w).2 = { w with txos := (scanBlocks c bs w).2.txos } ∧
    (∀ (b : Block) (h : UInt64) (w₀ : Wallet Desc PublicKey), ∃ received spent,
      (scanBlock b h c w₀).1 = .ok (received, spent) ∧
      (∀ o, received.contains o = true ↔ ∃ ev ∈ b.events h, matchesAt c o ev = true) ∧
      (∀ o, spent.contains o = true ↔ ∃ pre ev post, b.events h = pre ++ ev :: post ∧
        spendsAt o ev = true ∧ ((w₀.txos.get? o).isSome ∨ ∃ e ∈ pre, matchesAt c o e = true))) := by
  refine ⟨fun o pre out h post didx widx he hc hpost => ?_, fun o hno => ?_,
    by rw [scanBlocks_wallet], fun b h w₀ => ?_⟩
  · rw [scanBlocks_wallet, get?_foldl_applyEvent, he]
    exact foldl_track_of_last_match c hc pre post hpost _
  · rw [scanBlocks_wallet, get?_foldl_applyEvent]
    exact foldl_track_of_unmatched c o _ _ hno
  · obtain ⟨received, spent, hr, hrec, hsp⟩ := scanBlock_result c b h w₀
    exact ⟨received, spent, hr, fun o => by simp [hrec],
      fun o => by rw [hsp, spentIn_iff]⟩

end Blocks

end Icebox
