import Icebox.Prim.Bytes

/-!
# `HashMap` and `HashSet`

A `std::collections::HashMap` is read as the list of its entries in iteration order, with distinct
keys (`HashMap.nodup`): a value with a repeated key cannot be built. Its iteration order is
unspecified; this model fixes one, the order of first insertion, which is all the wallet code can
observe through the codec. Everything the engine does with a map goes through four operations:

* `get?` (`get`), `insert` (a present key keeps its place and takes the new value, a new key goes
  last), `modify` (`get_mut` followed by an update in place) and `len`;
* `get?_insert`, `get?_modify` say what each does to every lookup; later files never unfold them;
* `insertAll_of_nodup`: inserting the entries of a key-distinct list, one at a time, into a map
  none of whose keys they repeat appends them in order. This is what makes decoding a map
  reproduce it (`Serialize/Collections.lean`); `mem_insertAll` and `len_insertAll_le` say what
  decoding a list with repeated keys can give.

A `HashSet` is a map to `Unit`, as in the standard library.
-/

namespace Icebox

/-- The value stored at the first entry with key `k`. -/
def lookup {K V : Type} [DecidableEq K] (k : K) : List (K × V) → Option V
  | [] => none
  | (k', v) :: es => if k' = k then some v else lookup k es

section Lookup

variable {K V : Type} [DecidableEq K]

@[simp] theorem lookup_cons_self (k : K) (v : V) (es : List (K × V)) :
    lookup k ((k, v) :: es) = some v := by
  simp [lookup]

theorem lookup_eq_none {k : K} {es : List (K × V)} : lookup k es = none ↔ k ∉ es.map Prod.fst := by
  induction es with
  | nil => simp [lookup]
  | cons e es ih =>
    obtain ⟨k', v⟩ := e
    by_cases h : k' = k
    · simp [lookup, h]
    · simp only [lookup, if_neg h, ih, List.map_cons, List.mem_cons, not_or]
      exact ⟨fun h2 => ⟨fun e => h e.symm, h2⟩, fun h2 => h2.2⟩

theorem lookup_append (k : K) (es fs : List (K × V)) :
    lookup k (es ++ fs) = (lookup k es).or (lookup k fs) := by
  induction es with
  | nil => simp [lookup]
  | cons e es ih =>
    obtain ⟨k', v⟩ := e
    by_cases h : k' = k <;> simp [lookup, h, ih]

/-- `lookup` finds an entry whenever the key occurs. -/
theorem lookup_of_mem {k : K} {v : V} :
    ∀ {es : List (K × V)}, (k, v) ∈ es → ∃ v', lookup k es = some v' ∧ (k, v') ∈ es
  | [], h => absurd h (List.not_mem_nil _)
  | (k', v') :: es, h => by
    by_cases hk : k' = k
    · subst hk; exact ⟨v', by simp [lookup], List.mem_cons_self _ _⟩
    · rcases List.mem_cons.mp h with h | h
      · exact absurd (Prod.mk.inj h).1.symm hk
      · obtain ⟨v'', h1, h2⟩ := lookup_of_mem h
        exact ⟨v'', by simp [lookup, hk, h1], List.mem_cons_of_mem _ h2⟩

/-- Updating the value at key `k` in place. -/
theorem lookup_update (k k' : K) (f : V → V) (es : List (K × V)) :
    lookup k' (es.map fun e => (e.1, if e.1 = k then f e.2 else e.2)) =
      if k' = k then (lookup k es).map f else lookup k' es := by
  induction es with
  | nil => simp [lookup]
  | cons e es ih =>
    obtain ⟨k₀, v₀⟩ := e
    simp only [List.map_cons, lookup, ih]
    by_cases h₀ : k₀ = k <;> by_cases h : k' = k
    · simp [h₀, h]
    · simp [h₀, h, Ne.symm h]
    · simp [h₀, h, Ne.symm h₀]
    · simp [h₀, h]

theorem keys_update (k : K) (f : V → V) (es : List (K × V)) :
    (es.map fun e => (e.1, if e.1 = k then f e.2 else e.2)).map Prod.fst = es.map Prod.fst := by
  simp [List.map_map, Function.comp_def]

/-- **The first entry with key `k` of a list made by `f` from sources in descending `lt` order is
    the one of the greatest source with that key.** Read on a reversed list of inserted entries,
    this is "the last insert wins, and the last is the greatest". -/
theorem lookup_filterMap_of_pairwise {α : Type} {lt : α → α → Prop}
    (hlt : ∀ a b, lt a b → ¬lt b a) (f : α → Option (K × V)) (k : K) (v : V) :
    ∀ {l : List α}, l.Pairwise (fun a b => lt b a) →
      (lookup k (l.filterMap f) = some v ↔
        ∃ a ∈ l, f a = some (k, v) ∧ ∀ a' ∈ l, ∀ v', f a' = some (k, v') → a' = a ∨ lt a' a)
  | [], _ => by simp [lookup]
  | a :: l, hl => by
    obtain ⟨hgt, hl⟩ := List.pairwise_cons.mp hl
    by_cases ha : ∃ w, f a = some (k, w)
    · obtain ⟨w, hw⟩ := ha
      rw [List.filterMap_cons_some hw, lookup_cons_self, Option.some.injEq]
      constructor
      · rintro rfl
        exact ⟨a, List.mem_cons_self a l, hw, fun b hb _ _ => (List.mem_cons.mp hb).imp id (hgt b)⟩
      · rintro ⟨b, hb, hfb, hmax⟩
        rcases hmax a (List.mem_cons_self a l) w hw with rfl | hab
        · exact congrArg Prod.snd (Option.some.inj (hw.symm.trans hfb))
        · rcases List.mem_cons.mp hb with rfl | hb
          · exact absurd hab (hlt _ _ hab)
          · exact absurd (hgt b hb) (hlt _ _ hab)
    · push_neg at ha
      have hskip : lookup k ((a :: l).filterMap f) = lookup k (l.filterMap f) := by
        rcases hfa : f a with _ | ⟨k', w⟩
        · rw [List.filterMap_cons_none hfa]
        · rw [List.filterMap_cons_some hfa, lookup, if_neg]
          rintro rfl
          exact ha w hfa
      rw [hskip, lookup_filterMap_of_pairwise hlt f k v hl]
      constructor
      · rintro ⟨b, hb, hfb, hmax⟩
        refine ⟨b, List.mem_cons_of_mem a hb, hfb, fun b' hb' w hw => ?_⟩
        rcases List.mem_cons.mp hb' with rfl | hb'
        · exact absurd hw (ha w)
        · exact hmax b' hb' w hw
      · rintro ⟨b, hb, hfb, hmax⟩
        rcases List.mem_cons.mp hb with rfl | hb
        · exact absurd hfb (ha v)
        · exact ⟨b, hb, hfb, fun b' hb' w hw => hmax b' (List.mem_cons_of_mem a hb') w hw⟩

end Lookup

/-- `std::collections::HashMap`: its entries in iteration order; the keys are distinct. -/
structure HashMap (K V : Type) where
  entries : List (K × V)
  nodup : (entries.map Prod.fst).Nodup

namespace HashMap

variable {K V : Type}

theorem ext {m m' : HashMap K V} (h : m.entries = m'.entries) : m = m' := by
  cases m; cases m'; cases h; rfl

variable [DecidableEq K]

/-- `HashMap::new`. -/
def empty : HashMap K V := ⟨[], List.nodup_nil⟩

/-- The keys, in iteration order. -/
def keys (m : HashMap K V) : List K := m.entries.map Prod.fst

/-- `HashMap::len`. -/
def len (m : HashMap K V) : Nat := m.entries.length

/-- `HashMap::get`. -/
def get? (m : HashMap K V) (k : K) : Option V := lookup k m.entries

/-- `HashMap::contains_key`. -/
def contains (m : HashMap K V) (k : K) : Bool := (m.get? k).isSome

/-- `HashMap::insert`: a present key takes the new value in place, a new key goes last. -/
def insert (m : HashMap K V) (k : K) (v : V) : HashMap K V :=
  if h : k ∈ m.keys then
    ⟨m.entries.map fun e => (e.1, if e.1 = k then v else e.2),
      (keys_update k (fun _ => v) m.entries).symm ▸ m.nodup⟩
  else
    ⟨m.entries ++ [(k, v)], by
      rw [List.map_append, List.nodup_append]
      exact ⟨m.nodup, List.nodup_singleton _, fun a ha hb => h (by simp_all [keys])⟩⟩

/-- `HashMap::get_mut` at `k` followed by the update `f`; nothing happens when `k` is absent. -/
def modify (m : HashMap K V) (k : K) (f : V → V) : HashMap K V :=
  ⟨m.entries.map fun e => (e.1, if e.1 = k then f e.2 else e.2),
    (keys_update k f m.entries).symm ▸ m.nodup⟩

@[simp] theorem get?_empty (k : K) : (empty : HashMap K V).get? k = none := rfl

@[simp] theorem contains_empty (k : K) : (empty : HashMap K V).contains k = false := rfl

theorem mem_keys {m : HashMap K V} {k : K} : k ∈ m.keys ↔ (m.get? k).isSome := by
  rw [← Option.ne_none_iff_isSome, Ne, get?, lookup_eq_none, not_not]; rfl

@[simp] theorem get?_insert (m : HashMap K V) (k k' : K) (v : V) :
    (m.insert k v).get? k' = if k' = k then some v else m.get? k' := by
  unfold insert
  split
  · rename_i h
    obtain ⟨v₀, hv₀⟩ := Option.isSome_iff_exists.mp (mem_keys.mp h)
    simp only [get?, lookup_update k k' (fun _ => v)]
    split <;> simp_all [get?]
  · rename_i h
    simp only [get?, lookup_append]
    by_cases hk : k' = k
    · subst hk; simp [lookup_eq_none.mpr h, lookup]
    · simp [hk, Ne.symm hk, lookup]

@[simp] theorem get?_modify (m : HashMap K V) (k k' : K) (f : V → V) :
    (m.modify k f).get? k' = if k' = k then (m.get? k).map f else m.get? k' :=
  lookup_update k k' f m.entries

theorem keys_modify (m : HashMap K V) (k : K) (f : V → V) : (m.modify k f).keys = m.keys :=
  keys_update k f m.entries

@[simp] theorem contains_modify (m : HashMap K V) (k k' : K) (f : V → V) :
    (m.modify k f).contains k' = m.contains k' := by
  by_cases h : k' = k
  · subst h; simp [contains]
  · simp [contains, h]

theorem modify_of_not_contains {m : HashMap K V} {k : K} (f : V → V) (h : m.contains k = false) :
    m.modify k f = m := by
  apply ext
  refine (List.map_congr_left fun e he => ?_).trans (List.map_id _)
  have : e.1 ≠ k := by
    rintro rfl
    have : (lookup e.1 m.entries).isSome := by
      rw [← Option.ne_none_iff_isSome, Ne, lookup_eq_none, not_not]; exact List.mem_map_of_mem _ he
    simp_all [contains, get?]
  simp [this]

theorem contains_iff {m : HashMap K V} {k : K} : m.contains k = true ↔ k ∈ m.keys := by
  rw [contains, mem_keys]

@[simp] theorem contains_insert (m : HashMap K V) (k k' : K) (v : V) :
    (m.insert k v).contains k' = (k' = k || m.contains k') := by
  by_cases h : k' = k <;> simp [contains, h]

theorem insert_of_not_mem {m : HashMap K V} {k : K} (v : V) (h : k ∉ m.keys) :
    (m.insert k v).entries = m.entries ++ [(k, v)] := by
  simp [insert, h]

theorem len_insert_le (m : HashMap K V) (k : K) (v : V) : (m.insert k v).len ≤ m.len + 1 := by
  unfold insert len; split <;> simp

/-- Inserting each entry of `l`, in order, as a decoder does. -/
def insertAll (m : HashMap K V) : List (K × V) → HashMap K V
  | [] => m
  | (k, v) :: l => insertAll (m.insert k v) l

/-- **Inserting key-distinct fresh entries appends them in order.** -/
theorem insertAll_of_nodup : ∀ (m : HashMap K V) (l : List (K × V)),
    (m.keys ++ l.map Prod.fst).Nodup → (m.insertAll l).entries = m.entries ++ l
  | m, [], _ => by simp [insertAll]
  | m, (k, v) :: l, h => by
    have hk : k ∉ m.keys := by
      intro hm; exact (List.nodup_append.mp h).2.2 hm (List.mem_cons_self k _)
    have h' : ((m.insert k v).keys ++ l.map Prod.fst).Nodup := by
      simpa [keys, insert_of_not_mem v hk, List.append_assoc] using h
    rw [insertAll, insertAll_of_nodup _ l h', insert_of_not_mem v hk, List.append_assoc]; rfl

/-- An entry of `m.insert k v` is an entry of `m` or `(k, v)`. -/
theorem mem_insert {m : HashMap K V} {k : K} {v : V} {e : K × V} (h : e ∈ (m.insert k v).entries) :
    e ∈ m.entries ∨ e = (k, v) := by
  unfold insert at h
  split at h
  · obtain ⟨e₀, he₀, rfl⟩ := List.mem_map.mp h
    by_cases hk : e₀.1 = k
    · exact .inr (by rw [if_pos hk, hk])
    · exact .inl (by rw [if_neg hk]; exact he₀)
  · rcases List.mem_append.mp h with h | h
    · exact .inl h
    · exact .inr (List.mem_singleton.mp h)

/-- An entry of `m.insertAll l` is an entry of `m` or of `l`. -/
theorem mem_insertAll : ∀ {m : HashMap K V} {l : List (K × V)} {e : K × V},
    e ∈ (m.insertAll l).entries → e ∈ m.entries ∨ e ∈ l
  | _, [], _, h => .inl h
  | m, (k, v) :: l, e, h => by
    rcases @mem_insertAll (m.insert k v) l e h with h | h
    · rcases mem_insert h with h | rfl
      · exact .inl h
      · exact .inr (List.mem_cons_self _ _)
    · exact .inr (List.mem_cons_of_mem _ h)

/-- **The last insert wins**: a lookup after `insertAll` reads the last entry of `l` with the key,
    and `m` when there is none. -/
theorem get?_insertAll : ∀ (m : HashMap K V) (l : List (K × V)) (k : K),
    (m.insertAll l).get? k = (lookup k l.reverse).or (m.get? k)
  | m, [], k => by simp [insertAll, lookup]
  | m, (k', v) :: l, k => by
    rw [insertAll, get?_insertAll _ l k, get?_insert, List.reverse_cons, lookup_append,
      Option.or_assoc]
    by_cases h : k = k'
    · subst h; simp [lookup]
    · simp [lookup, h, Ne.symm h]

theorem contains_insertAll (m : HashMap K V) (l : List (K × V)) (k : K) :
    (m.insertAll l).contains k = true ↔ k ∈ l.map Prod.fst ∨ m.contains k = true := by
  simp only [contains, get?_insertAll, Option.isSome_or, Bool.or_eq_true,
    ← Option.ne_none_iff_isSome, ne_eq, lookup_eq_none, not_not, List.map_reverse,
    List.mem_reverse]

theorem insertAll_append : ∀ (m : HashMap K V) (l l' : List (K × V)),
    m.insertAll (l ++ l') = (m.insertAll l).insertAll l'
  | _, [], _ => rfl
  | m, (k, v) :: l, l' => insertAll_append (m.insert k v) l l'

/-- **Inserting the entries `f` makes from sources sorted by an asymmetric `lt`, in order, into an
    empty map leaves at each key the entry of the greatest source with that key.** -/
theorem get?_insertAll_filterMap {α : Type} {lt : α → α → Prop} (hlt : ∀ a b, lt a b → ¬lt b a)
    (f : α → Option (K × V)) {l : List α} (hl : l.Pairwise lt) (k : K) (v : V) :
    ((empty : HashMap K V).insertAll (l.filterMap f)).get? k = some v ↔
      ∃ a ∈ l, f a = some (k, v) ∧ ∀ a' ∈ l, ∀ v', f a' = some (k, v') → a' = a ∨ lt a' a := by
  rw [get?_insertAll, get?_empty, Option.or_none, ← List.filterMap_reverse,
    lookup_filterMap_of_pairwise hlt f k v (List.pairwise_reverse.mpr hl)]
  simp only [List.mem_reverse]

theorem len_insertAll_le : ∀ (m : HashMap K V) (l : List (K × V)),
    (m.insertAll l).len ≤ m.len + l.length
  | m, [] => by simp [insertAll]
  | m, (k, v) :: l => by
    have := len_insertAll_le (m.insert k v) l
    have := len_insert_le m k v
    simp only [insertAll, List.length_cons]; omega

end HashMap

/-- `std::collections::HashSet`: a map to `Unit`. -/
abbrev HashSet (K : Type) := HashMap K Unit

/-- `HashSet::insert`. -/
def HashSet.insert {K : Type} [DecidableEq K] (s : HashSet K) (k : K) : HashSet K :=
  HashMap.insert s k ()

@[simp] theorem HashSet.contains_insert {K : Type} [DecidableEq K] (s : HashSet K) (k k' : K) :
    (s.insert k).contains k' = (k' = k || s.contains k') :=
  HashMap.contains_insert s k k' ()

end Icebox
