import Mathlib

/-!
# Rust primitives: machine integers, `String`, `u32` ranges

The wallet code works on `u8`, `u32` and `u64`, on `String`s, and iterates `low..high` over `u32`.
This file fixes how each of them is read:

* the machine integers are Lean's `UInt8`, `UInt32` and `UInt64`; `as` casts are `ofNat` of the
  value (`ofNat` wraps), and every arithmetic fact goes through `toNat` (`u32_toNat_ofNat`, …),
  where `omega` closes it;
* a Rust `String` is a byte list that `utf8Valid` accepts (`RString`); `String::from_utf8` is
  `RString.fromUtf8`. The validator accepts exactly the well-formed byte sequences of the Unicode
  standard (Table 3-7), which is what `core::str::from_utf8` checks;
* `u32Range lo hi` is the iterator `lo..hi` over `u32`, empty when `hi ≤ lo` (`mem_u32Range`);
* `cmpMax` is `core::cmp::max` on `u32`.
-/

namespace Icebox

/-! ## 1. Machine integers through `toNat` -/

@[simp] theorem u8_toNat_ofNat (n : Nat) : (UInt8.ofNat n).toNat = n % 256 := by
  simp [UInt8.toNat, UInt8.ofNat]

@[simp] theorem u32_toNat_ofNat (n : Nat) : (UInt32.ofNat n).toNat = n % 2 ^ 32 := by
  simp [UInt32.toNat, UInt32.ofNat]

@[simp] theorem u64_toNat_ofNat (n : Nat) : (UInt64.ofNat n).toNat = n % 2 ^ 64 := by
  simp [UInt64.toNat, UInt64.ofNat]

theorem u8_toNat_lt (b : UInt8) : b.toNat < 256 := b.toBitVec.isLt

theorem u32_toNat_lt (x : UInt32) : x.toNat < 2 ^ 32 := x.toBitVec.isLt

theorem u64_toNat_lt (x : UInt64) : x.toNat < 2 ^ 64 := x.toBitVec.isLt

theorem u32_le_iff {x y : UInt32} : x ≤ y ↔ x.toNat ≤ y.toNat := by
  simp [UInt32.le_def, BitVec.le_def, UInt32.toNat]

theorem u32_lt_iff {x y : UInt32} : x < y ↔ x.toNat < y.toNat := by
  simp [UInt32.lt_def, BitVec.lt_def, UInt32.toNat]

theorem u8_lt_iff {x y : UInt8} : x < y ↔ x.toNat < y.toNat := by
  simp [UInt8.lt_def, BitVec.lt_def, UInt8.toNat]

theorem u32_eq_iff {x y : UInt32} : x = y ↔ x.toNat = y.toNat :=
  ⟨congrArg _, UInt32.toNat.inj⟩

@[simp] theorem u32_ofNat_toNat (x : UInt32) : UInt32.ofNat x.toNat = x :=
  UInt32.toNat.inj ((u32_toNat_ofNat _).trans (Nat.mod_eq_of_lt (u32_toNat_lt x)))

@[simp] theorem u8_ofNat_toNat (b : UInt8) : UInt8.ofNat b.toNat = b :=
  UInt8.toNat.inj ((u8_toNat_ofNat _).trans (Nat.mod_eq_of_lt (u8_toNat_lt b)))

@[simp] theorem u64_ofNat_toNat (x : UInt64) : UInt64.ofNat x.toNat = x :=
  UInt64.toNat.inj ((u64_toNat_ofNat _).trans (Nat.mod_eq_of_lt (u64_toNat_lt x)))

/-- `core::cmp::max` on `u32`: the second argument unless the first is greater. -/
def cmpMax (a b : UInt32) : UInt32 := if a ≤ b then b else a

/-- For a leading byte, the number of continuation bytes that follow it and the range the first
    of them must lie in; `none` for a byte that cannot start a character. -/
def utf8Lead (b : Nat) : Option (Nat × Nat × Nat) :=
  if b ≤ 0x7F then some (0, 0, 0)
  else if 0xC2 ≤ b ∧ b ≤ 0xDF then some (1, 0x80, 0xBF)
  else if b = 0xE0 then some (2, 0xA0, 0xBF)
  else if 0xE1 ≤ b ∧ b ≤ 0xEC then some (2, 0x80, 0xBF)
  else if b = 0xED then some (2, 0x80, 0x9F)
  else if 0xEE ≤ b ∧ b ≤ 0xEF then some (2, 0x80, 0xBF)
  else if b = 0xF0 then some (3, 0x90, 0xBF)
  else if 0xF1 ≤ b ∧ b ≤ 0xF3 then some (3, 0x80, 0xBF)
  else if b = 0xF4 then some (3, 0x80, 0x8F)
  else none

/-- The byte lies in `lo ..= hi`. -/
def inRange (lo hi : Nat) (b : UInt8) : Bool := lo ≤ b.toNat && b.toNat ≤ hi

/-- `core::str::from_utf8` succeeds on the bytes. -/
def utf8Valid : List UInt8 → Bool
  | [] => true
  | b :: rest =>
    match utf8Lead b.toNat, rest with
    | some (0, _, _), rest => utf8Valid rest
    | some (1, lo, hi), c1 :: rest => inRange lo hi c1 && utf8Valid rest
    | some (2, lo, hi), c1 :: c2 :: rest =>
      inRange lo hi c1 && inRange 0x80 0xBF c2 && utf8Valid rest
    | some (3, lo, hi), c1 :: c2 :: c3 :: rest =>
      inRange lo hi c1 && inRange 0x80 0xBF c2 && inRange 0x80 0xBF c3 && utf8Valid rest
    | _, _ => false

/-- Bytes below `0x80` (ASCII) are valid UTF-8. -/
theorem utf8Valid_of_ascii : ∀ bs : List UInt8, (∀ b ∈ bs, b.toNat < 0x80) → utf8Valid bs = true
  | [], _ => rfl
  | b :: rest, h => by
    have hb : utf8Lead b.toNat = some (0, 0, 0) := by
      rw [utf8Lead, if_pos (Nat.le_of_lt_succ (h b (List.mem_cons_self b rest)))]
    rw [utf8Valid.eq_2 b rest 0 0 hb]
    exact utf8Valid_of_ascii rest fun c hc => h c (List.mem_cons_of_mem b hc)

/-- Two valid byte strings joined are valid: no character spans the seam. -/
theorem utf8Valid_append (l₂ : List UInt8) (h₂ : utf8Valid l₂ = true) :
    ∀ l₁, utf8Valid l₁ = true → utf8Valid (l₁ ++ l₂) = true := by
  intro l₁
  induction l₁ using utf8Valid.induct with
  | case1 => exact fun _ => h₂
  | case2 b _ _ rest hb ih =>
    rw [List.cons_append, utf8Valid.eq_2 _ _ _ _ hb, utf8Valid.eq_2 _ _ _ _ hb]
    exact ih
  | case3 b lo hi c1 rest hb ih =>
    simp only [List.cons_append, utf8Valid.eq_3 _ _ _ _ _ hb, Bool.and_eq_true]
    exact fun h => ⟨h.1, ih h.2⟩
  | case4 b lo hi c1 c2 rest hb ih =>
    simp only [List.cons_append, utf8Valid.eq_4 _ _ _ _ _ _ hb, Bool.and_eq_true]
    exact fun h => ⟨h.1, ih h.2⟩
  | case5 b lo hi c1 c2 c3 rest hb ih =>
    simp only [List.cons_append, utf8Valid.eq_5 _ _ _ _ _ _ _ hb, Bool.and_eq_true]
    exact fun h => ⟨h.1, ih h.2⟩
  | case6 b rest h0 h1 h2 h3 =>
    rw [utf8Valid.eq_6 b rest h0 h1 h2 h3]
    exact fun h => absurd h Bool.false_ne_true

/-- A Rust `String`: its bytes, which are valid UTF-8. -/
structure RString where
  bytes : List UInt8
  valid : utf8Valid bytes = true
deriving DecidableEq

/-- `String::len`: the length in bytes. -/
def RString.len (s : RString) : Nat := s.bytes.length

/-- `s` followed by zero bytes up to `n` bytes: what `String::from_utf8` gives back for a
    zero-padded field of width `n` that holds `s`. -/
def RString.padTo (s : RString) (n : Nat) : RString :=
  ⟨s.bytes ++ List.replicate (n - s.len) 0, utf8Valid_append _
    (utf8Valid_of_ascii _ fun b hb => by rw [List.eq_of_mem_replicate hb]; decide) _ s.valid⟩

theorem RString.padTo_of_le {s : RString} {n : Nat} (h : n ≤ s.len) : s.padTo n = s := by
  cases s with
  | mk bytes valid =>
    simp only [RString.padTo, RString.len] at h ⊢
    simp only [Nat.sub_eq_zero_of_le h, List.replicate_zero, List.append_nil]

/-- `String::from_utf8`. -/
def RString.fromUtf8 (bs : List UInt8) : Option RString :=
  if h : utf8Valid bs = true then some ⟨bs, h⟩ else none

@[simp] theorem RString.fromUtf8_bytes (s : RString) : RString.fromUtf8 s.bytes = some s := by
  simp [RString.fromUtf8, s.valid]

theorem RString.fromUtf8_eq_some {bs : List UInt8} {s : RString} :
    RString.fromUtf8 bs = some s ↔ s.bytes = bs := by
  unfold RString.fromUtf8
  split
  · rename_i h
    constructor
    · rintro ⟨⟩; rfl
    · intro e; cases s; cases e; rfl
  · rename_i h
    simp only [reduceCtorEq, false_iff]
    intro e
    exact h (e ▸ s.valid)

/-! ## 3. `lo..hi` over `u32` -/

/-- The values `lo..hi` yields, in order. -/
def u32Range (lo hi : UInt32) : List UInt32 :=
  (List.range' lo.toNat (hi.toNat - lo.toNat)).map UInt32.ofNat

theorem mem_u32Range {lo hi i : UInt32} : i ∈ u32Range lo hi ↔ lo ≤ i ∧ i < hi := by
  simp only [u32Range, List.mem_map, List.mem_range', u32_le_iff, u32_lt_iff]
  constructor
  · rintro ⟨n, ⟨k, hk, rfl⟩, rfl⟩
    have := u32_toNat_lt hi
    simp only [u32_toNat_ofNat, Nat.one_mul]
    omega
  · rintro ⟨h1, h2⟩
    exact ⟨i.toNat, ⟨i.toNat - lo.toNat, by omega, by omega⟩, by simp⟩

/-- `lo..hi` counts up. -/
theorem u32Range_pairwise (lo hi : UInt32) : (u32Range lo hi).Pairwise (· < ·) := by
  refine List.pairwise_map.mpr ((List.pairwise_lt_range' _ _).imp_of_mem fun ha hb hab => ?_)
  have := u32_toNat_lt hi
  rw [List.mem_range'_1] at ha hb
  rw [u32_lt_iff, u32_toNat_ofNat, u32_toNat_ofNat, Nat.mod_eq_of_lt (by omega),
    Nat.mod_eq_of_lt (by omega)]
  exact hab

@[simp] theorem length_u32Range (lo hi : UInt32) :
    (u32Range lo hi).length = hi.toNat - lo.toNat := by
  simp [u32Range]

end Icebox
