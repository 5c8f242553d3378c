import Icebox.Wallet.Register
import Icebox.Wallet.Scan
import Icebox.Wallet.Index
import Icebox.Wallet.Reference

/-!
# Runs of the wallet

A run is a sequence of calls of `add_descriptor`, `add_address`, `script_pubkey_cache` and
`scan_block` on one wallet, each succeeding or failing; a failed call keeps what it wrote before
the failure, and the next call sees it. A run reaches a `World`: the session, and two records that
no call reads, the indices `script_pubkey_cache` has returned and the outputs `scan_block` has
looked at.

* `Run adm W W'` -- the runs from `W` to `W'` whose every call `adm` admits where it is made;
  `Run.invariant` is the induction every invariant below goes through;
* `exec_cores` -- a call leaves the registered `(desc, low, high)` as they are or appends one that
  was not there; `exec_extends` -- it keeps every cached key. Together: `Keeps`;
* `Slot.keep` -- `Keeps` keeps every `Slot`, a descriptor position and an index of its range
  whose script the key cache computes;
* **`descriptors_append_only`** -- the descriptor list of a run.
-/

namespace Icebox

/-- `(desc, low, high)`: what a registered descriptor is identified by. -/
def Descriptor.core {Desc : Type} (d : Descriptor Desc) : Desc × UInt32 × UInt32 :=
  (d.desc, d.low, d.high)

/-- A call of the wallet's API that writes to it. -/
inductive Call (Desc : Type)
  | addDescriptor (desc : Desc) (low high : UInt32)
  | addAddress (descriptorIdx : UInt32) (wildcardIdx : Option UInt32) (time notes : RString)
  | scriptPubkeyCache
  | scanBlock (block : Block) (height : UInt64) (cache : ScriptPubkeyCache)

/-- The outputs among scan events, with their outpoints. -/
def outputsOf : List ScanEvent → List (OutPoint × TxOut)
  | [] => []
  | .output o out _ :: evs => (o, out) :: outputsOf evs
  | .input .. :: evs => outputsOf evs

@[simp] theorem outputsOf_cons_output (o : OutPoint) (out : TxOut) (h : UInt64)
    (evs : List ScanEvent) : outputsOf (.output o out h :: evs) = (o, out) :: outputsOf evs := rfl

@[simp] theorem outputsOf_nil : outputsOf [] = [] := rfl

@[simp] theorem outputsOf_append (l₁ l₂ : List ScanEvent) :
    outputsOf (l₁ ++ l₂) = outputsOf l₁ ++ outputsOf l₂ := by
  induction l₁ with
  | nil => rfl
  | cons ev l ih => cases ev <;> simp [outputsOf, ih]

@[simp] theorem outputsOf_inputEvents (txid : Txid) (h : UInt64) (ins : List TxIn) :
    outputsOf (inputEvents txid h ins) = [] := by
  induction ins with
  | nil => rfl
  | cons i ins ih => simpa [inputEvents, outputsOf] using ih

theorem mem_outputsOf {o : OutPoint} {out : TxOut} {h : UInt64} :
    ∀ {evs : List ScanEvent}, ScanEvent.output o out h ∈ evs → (o, out) ∈ outputsOf evs
  | [], hm => absurd hm (List.not_mem_nil _)
  | ev :: evs, hm => by
    rcases List.mem_cons.mp hm with rfl | ht
    · exact List.mem_cons_self _ _
    · have := mem_outputsOf ht
      cases ev <;> simp only [outputsOf] <;> first
        | exact List.mem_cons_of_mem _ this | exact this

/-- The last output scanned at `o`. -/
def lastScanned (o : OutPoint) (scanned : List (OutPoint × TxOut)) : Option TxOut :=
  scanned.foldl (fun acc p => if p.1 = o then some p.2 else acc) none

theorem lastScanned_append_singleton (o : OutPoint) (out : TxOut) (l : List (OutPoint × TxOut)) :
    lastScanned o (l ++ [(o, out)]) = some out := by
  rw [lastScanned, List.foldl_append, List.foldl_cons, List.foldl_nil, if_pos rfl]

/-- An outpoint that was scanned has a last scanned output, one of those scanned at it. -/
theorem lastScanned_of_mem {o : OutPoint} {out : TxOut} {l : List (OutPoint × TxOut)}
    (h : (o, out) ∈ l) : ∃ out', lastScanned o l = some out' ∧ (o, out') ∈ l := by
  induction l using List.reverseRecOn with
  | nil => exact absurd h (List.not_mem_nil _)
  | append_singleton l p ih =>
    obtain ⟨o', v⟩ := p
    by_cases ho : o' = o
    · subst ho
      exact ⟨v, lastScanned_append_singleton o' v l, List.mem_append_right _ (List.mem_singleton_self _)⟩
    · have hl : lastScanned o (l ++ [(o', v)]) = lastScanned o l := by
        rw [lastScanned, List.foldl_append, List.foldl_cons, List.foldl_nil, if_neg ho]; rfl
      rcases List.mem_append.mp h with h | h
      · obtain ⟨out', h1, h2⟩ := ih h
        exact ⟨out', hl.trans h1, List.mem_append_left _ h2⟩
      · exact absurd (Prod.mk.inj (List.mem_singleton.mp h)).1.symm ho

/-- The state a run reaches. -/
structure World (Desc PublicKey : Type) where
  session : Session Desc PublicKey
  /-- Every index `script_pubkey_cache` has returned, oldest first. -/
  caches : List ScriptPubkeyCache
  /-- Every output `scan_block` has looked at, with its outpoint, in scan order. -/
  scanned : List (OutPoint × TxOut)

/-- `Wallet::new()`, with a dongle that has answered `requests` before. -/
def World.init {Desc PublicKey : Type} (requests : List DerivationPath) : World Desc PublicKey :=
  ⟨⟨Wallet.new, requests⟩, [], []⟩

/-! ## 1. What every call keeps -/

section Keep

variable {Desc PublicKey : Type}

/-- The registered triples stay in place, and every cached key stays. -/
structure Keeps (w w' : Wallet Desc PublicKey) : Prop where
  cores : w.descriptors.map Descriptor.core <+: w'.descriptors.map Descriptor.core
  cache : CacheExtends w.keyCache w'.keyCache

theorem Keeps.refl (w : Wallet Desc PublicKey) : Keeps w w :=
  ⟨List.prefix_refl _, CacheExtends.refl _⟩

theorem Keeps.trans {w w' w'' : Wallet Desc PublicKey} (h : Keeps w w') (h' : Keeps w' w'') :
    Keeps w w'' :=
  ⟨h.cores.trans h'.cores, h.cache.trans h'.cache⟩

/-- A kept position still holds a descriptor with the same `(desc, low, high)`. -/
theorem Keeps.getElem? {w w' : Wallet Desc PublicKey} (h : Keeps w w') {j : Nat}
    {d : Descriptor Desc} (hd : w.descriptors[j]? = some d) :
    ∃ d', w'.descriptors[j]? = some d' ∧ d'.core = d.core := by
  have h1 : (w.descriptors.map Descriptor.core)[j]? = some d.core := by simp [hd]
  obtain ⟨t, ht⟩ := h.cores
  have h2 : (w'.descriptors.map Descriptor.core)[j]? = some d.core := by
    rw [← ht, List.getElem?_append_left (List.getElem?_eq_some_iff.mp h1).1, h1]
  rwa [List.getElem?_map, Option.map_eq_some'] at h2

variable (ms : Miniscript Desc PublicKey)

theorem Slot.keep {w w' : Wallet Desc PublicKey} (h : Keeps w w') {j : Nat} {i : UInt32}
    {spk : Script} (hs : Slot ms w j i spk) : Slot ms w' j i spk := by
  obtain ⟨d, hd, hl, hh, hs⟩ := hs
  obtain ⟨d', hd', hc⟩ := h.getElem? hd
  simp only [Descriptor.core, Prod.mk.injEq] at hc
  obtain ⟨h1, h2, h3⟩ := hc
  exact ⟨d', hd', h2 ▸ hl, h3 ▸ hh, h1 ▸ cachedScript_mono ms h.cache hs⟩

/-- Writing `next_idx` keeps every triple. -/
theorem map_core_set {ds : List (Descriptor Desc)} {j : Nat} {d : Descriptor Desc}
    (hd : ds[j]? = some d) (n : UInt32) :
    (ds.set j { d with nextIdx := n }).map Descriptor.core = ds.map Descriptor.core := by
  ext k : 1
  by_cases hk : j = k
  · subst hk
    obtain ⟨hj, rfl⟩ := List.getElem?_eq_some_iff.mp hd
    simp [hj, Descriptor.core]
  · simp [hk]

end Keep

/-! ## 2. Calls and runs -/

section Run

variable {Desc PublicKey : Type} [DecidableEq Desc] (ms : Miniscript Desc PublicKey)
  (dev : Device PublicKey)

/-- One call. -/
def World.exec (W : World Desc PublicKey) : Call Desc → World Desc PublicKey
  | .addDescriptor desc low high =>
    { W with session := (addDescriptor ms dev desc low high W.session).2 }
  | .addAddress i w time notes =>
    { W with session := (addAddress ms dev i w time notes W.session).2 }
  | .scriptPubkeyCache =>
    match scriptPubkeyCache ms dev W.session with
    | (.ok c, s) => { W with session := s, caches := W.caches ++ [c] }
    | (.error _, s) => { W with session := s }
  | .scanBlock b h c =>
    { W with
      session := { W.session with wallet := (scanBlock b h c W.session.wallet).2 }
      scanned := W.scanned ++ outputsOf (b.events h) }

/-- The runs from `W` to `W'` whose every call `adm` admits in the world it is made in. -/
inductive Run (adm : World Desc PublicKey → Call Desc → Prop) (W : World Desc PublicKey) :
    World Desc PublicKey → Prop
  | refl : Run adm W W
  | step {W' : World Desc PublicKey} (c : Call Desc) : Run adm W W' → adm W' c →
      Run adm W (W'.exec ms dev c)

/-- What every admitted call preserves holds at the end of every run that starts with it. -/
theorem Run.invariant {adm : World Desc PublicKey → Call Desc → Prop}
    (P : World Desc PublicKey → Prop) (hs : ∀ W c, P W → adm W c → P (W.exec ms dev c))
    {W W' : World Desc PublicKey} (h : Run ms dev adm W W') (hW : P W) : P W' := by
  induction h with
  | refl => exact hW
  | step c _ ha ih => exact hs _ c ih ha

theorem Run.trans {adm : World Desc PublicKey → Call Desc → Prop} {W W' W'' : World Desc PublicKey}
    (h : Run ms dev adm W W') (h' : Run ms dev adm W' W'') : Run ms dev adm W W'' := by
  induction h' with
  | refl => exact h
  | step c _ ha ih => exact .step c ih ha

/-- The calls `cs`, one after another. -/
def World.execAll (W : World Desc PublicKey) (cs : List (Call Desc)) : World Desc PublicKey :=
  cs.foldl (World.exec ms dev) W

/-- Every sequence of calls is a run when every call is admitted. -/
theorem run_execAll : ∀ (W : World Desc PublicKey) (cs : List (Call Desc)),
    Run ms dev (fun _ _ => True) W (W.execAll ms dev cs)
  | W, [] => .refl
  | W, c :: cs => by
    have h := run_execAll (W.exec ms dev c) cs
    exact (Run.step c .refl trivial).trans ms dev h

theorem exec_scriptPubkeyCache_session (W : World Desc PublicKey) :
    (W.exec ms dev .scriptPubkeyCache).session = (scriptPubkeyCache ms dev W.session).2 := by
  rcases h : scriptPubkeyCache ms dev W.session with ⟨_ | _, _⟩ <;> simp [World.exec, h]

theorem exec_scriptPubkeyCache_scanned (W : World Desc PublicKey) :
    (W.exec ms dev .scriptPubkeyCache).scanned = W.scanned := by
  rcases h : scriptPubkeyCache ms dev W.session with ⟨_ | _, _⟩ <;> simp [World.exec, h]

theorem exec_scanBlock_keys (W : World Desc PublicKey) (b : Block) (h : UInt64)
    (c : ScriptPubkeyCache) : (W.exec ms dev (.scanBlock b h c)).session.keys = W.session.keys :=
  rfl

/-- A cache a run holds was there before the call, or the call has just built it. -/
theorem mem_exec_caches {W : World Desc PublicKey} {c : Call Desc} {cache : ScriptPubkeyCache}
    (h : cache ∈ (W.exec ms dev c).caches) :
    cache ∈ W.caches ∨ c = .scriptPubkeyCache ∧
      scriptPubkeyCache ms dev W.session = (.ok cache, (W.exec ms dev c).session) := by
  cases c with
  | scriptPubkeyCache =>
    rcases hc : scriptPubkeyCache ms dev W.session with ⟨_ | c, s⟩ <;>
      simp only [World.exec, hc, List.mem_append, List.mem_singleton] at h ⊢
    · exact .inl h
    · rcases h with h | rfl
      · exact .inl h
      · simp
  | _ => exact .inl h

/-- **Each call leaves the registered triples as they are, or appends one that was not there.** -/
theorem exec_cores (W : World Desc PublicKey) (c : Call Desc) :
    (W.exec ms dev c).session.wallet.descriptors.map Descriptor.core =
      W.session.wallet.descriptors.map Descriptor.core ∨
    ∃ k ∉ W.session.wallet.descriptors.map Descriptor.core,
      (W.exec ms dev c).session.wallet.descriptors.map Descriptor.core =
        W.session.wallet.descriptors.map Descriptor.core ++ [k] := by
  cases c with
  | addDescriptor desc low high =>
    rcases addDescriptor_cases ms dev desc low high W.session with h | ⟨hn, ks, -, -, h⟩
    · exact .inl (by rw [World.exec, h.descriptors])
    · refine .inr ⟨(desc, low, high), fun hk => hn ?_, by simp [World.exec, h, Descriptor.core]⟩
      obtain ⟨d, hd, he⟩ := List.mem_map.mp hk
      simp only [Descriptor.core, Prod.mk.injEq] at he
      exact ⟨d, hd, he⟩
  | addAddress i w t n =>
    refine .inl ?_
    simp only [World.exec, addAddress_descriptors]
    split
    · rfl
    · exact map_core_set ‹_› _
  | scriptPubkeyCache =>
    exact .inl (by rw [exec_scriptPubkeyCache_session, (scriptPubkeyCache_keysOnly ms dev _).descriptors])
  | scanBlock b h cache => exact .inl (by simp [World.exec, scanBlock_wallet])

/-- Each call keeps every cached key. -/
theorem exec_extends (W : World Desc PublicKey) (c : Call Desc) :
    CacheExtends W.session.wallet.keyCache (W.exec ms dev c).session.wallet.keyCache := by
  cases c with
  | addDescriptor => exact addDescriptor_extends ms dev _ _ _ _
  | addAddress => exact addAddress_extends ms dev _ _ _ _ _
  | scriptPubkeyCache =>
    rw [exec_scriptPubkeyCache_session]; exact (scriptPubkeyCache_keysOnly ms dev _).2
  | scanBlock b h cache =>
    simp only [World.exec, scanBlock_wallet]; exact CacheExtends.refl _

theorem exec_keeps (W : World Desc PublicKey) (c : Call Desc) :
    Keeps W.session.wallet (W.exec ms dev c).session.wallet := by
  refine ⟨?_, exec_extends ms dev W c⟩
  rcases exec_cores ms dev W c with h | ⟨k, -, h⟩
  · rw [h]
  · rw [h]; exact List.prefix_append _ _

theorem run_keeps {adm : World Desc PublicKey → Call Desc → Prop} {W W' : World Desc PublicKey}
    (h : Run ms dev adm W W') : Keeps W.session.wallet W'.session.wallet := by
  induction h with
  | refl => exact Keeps.refl _
  | step c _ _ ih => exact ih.trans (exec_keeps ms dev _ c)

/-! ## 3. The descriptor list -/

theorem cores_nodup {adm : World Desc PublicKey → Call Desc → Prop} {r : List DerivationPath}
    {W : World Desc PublicKey} (h : Run ms dev adm (World.init r) W) :
    (W.session.wallet.descriptors.map Descriptor.core).Nodup := by
  refine Run.invariant ms dev (fun W => (W.session.wallet.descriptors.map Descriptor.core).Nodup)
    (fun W c hW _ => ?_) h List.nodup_nil
  rcases exec_cores ms dev W c with h | ⟨k, hk, h⟩ <;> rw [h]
  · exact hW
  · exact List.nodup_append.mpr ⟨hW, List.nodup_singleton k, List.disjoint_singleton.mpr hk⟩

/-- **The descriptor list is append-only and holds no triple twice.** Along every run from
    `Wallet::new()`, with calls succeeding or failing, the `(desc, low, high)` of a later list
    extend those of an earlier one at its end (only `next_idx` is ever written in place), and no
    `(desc, low, high)` appears twice. -/
theorem descriptors_append_only {adm : World Desc PublicKey → Call Desc → Prop}
    {r : List DerivationPath} {W W' : World Desc PublicKey}
    (h : Run ms dev adm (World.init r) W) (h' : Run ms dev adm W W') :
    W.session.wallet.descriptors.map Descriptor.core <+:
      W'.session.wallet.descriptors.map Descriptor.core ∧
    (W'.session.wallet.descriptors.map Descriptor.core).Nodup :=
  ⟨(run_keeps ms dev h').cores, cores_nodup ms dev (h.trans ms dev h')⟩

/-- Two overlapping registrations of one template, then an allocation. -/
def sampleRun : List (Call Nat) :=
  [.addDescriptor 0 0 2, .addDescriptor 0 1 3, .addAddress 0 none .empty .empty]

theorem descriptors_append_only_sample :
    Run refMiniscript refDevice (fun _ _ => True) (World.init []) (World.init []) ∧
    Run refMiniscript refDevice (fun _ _ => True) (World.init [])
      ((World.init []).execAll refMiniscript refDevice sampleRun) ∧
    ((World.init [] : World Nat DerivationPath).session.wallet.descriptors.map Descriptor.core <+:
      ((World.init []).execAll refMiniscript refDevice sampleRun).session.wallet.descriptors.map
        Descriptor.core ∧
    (((World.init []).execAll refMiniscript refDevice sampleRun).session.wallet.descriptors.map
      Descriptor.core).Nodup) :=
  ⟨.refl, run_execAll _ _ _ _,
    descriptors_append_only refMiniscript refDevice .refl (run_execAll _ _ _ _)⟩

end Run

end Icebox
