import Mathlib.Data.List.AList
import Mathlib.Data.Finset.Sort
import Mathlib.Data.String.Basic
import Mathlib.Data.Rat.Floor
import Mathlib.Tactic

/-!
# The Python values the engine computes with

Dictionaries with string keys, sets of strings and the truth value of an optional
string, with the lemmas the engine's proofs read them through. Every function is
executable by structural recursion.
-/

namespace TurboCopy

/-- A dictionary with string keys. -/
abbrev Dict (α : Type) := AList fun _ : String => α

namespace Dict

variable {α : Type} [DecidableEq α]

/-- Equality of dictionaries by their entries, in a form that evaluates. -/
instance : DecidableEq (Dict α) := fun a b =>
  decidable_of_iff (a.entries = b.entries) AList.ext_iff.symm

/-- The value under a key, kept at `AList.lookup` but at a constant type. -/
abbrev get? (d : Dict α) (k : String) : Option α := AList.lookup k d

/-- `d.setdefault(k, v)`. -/
def setdefault (d : Dict α) (k : String) (v : α) : Dict α :=
  match AList.lookup k d with
  | some _ => d
  | none => AList.insert k v d

/-- Remove every key whose value is `v`. -/
def eraseValue (d : Dict α) (v : α) : Dict α :=
  d.keys.foldl (fun e k => if AList.lookup k e = some v then AList.erase k e else e) d

def hasValue (d : Dict α) (v : α) : Bool := d.entries.any fun e => e.2 = v

omit [DecidableEq α] in
theorem lookup_setdefault (d : Dict α) (k k' : String) (v : α) :
    AList.lookup k' (d.setdefault k v) =
      if k' = k then some ((AList.lookup k d).getD v) else AList.lookup k' d := by
  unfold setdefault
  split
  · rename_i x hx
    split_ifs with h
    · rw [h, hx]; rfl
    · rfl
  · rename_i hx
    split_ifs with h
    · rw [h, AList.lookup_insert, hx]; rfl
    · exact AList.lookup_insert_ne h

private theorem lookup_eraseFold (v : α) (ks : List String) (d : Dict α) (k : String) :
    AList.lookup k (ks.foldl
        (fun e k => if AList.lookup k e = some v then AList.erase k e else e) d) =
      if k ∈ ks ∧ AList.lookup k d = some v then none else AList.lookup k d := by
  induction ks generalizing d with
  | nil => simp
  | cons x xs ih =>
    rw [List.foldl_cons, ih]
    by_cases hx : AList.lookup x d = some v
    · rw [if_pos hx]
      by_cases hk : k = x
      · subst hk
        simp [hx]
      · simp [AList.lookup_erase_ne hk, hk]
    · rw [if_neg hx]
      by_cases hk : k = x
      · subst hk
        simp [hx]
      · simp [hk]

theorem lookup_eraseValue (d : Dict α) (v : α) (k : String) :
    AList.lookup k (d.eraseValue v) =
      if AList.lookup k d = some v then none else AList.lookup k d := by
  rw [eraseValue, lookup_eraseFold]
  by_cases h : AList.lookup k d = some v
  · have hk : k ∈ d.keys := AList.mem_keys.mp (AList.lookup_isSome.mp (by rw [h]; rfl))
    rw [if_pos ⟨hk, h⟩, if_pos h]
  · rw [if_neg fun hh => h hh.2, if_neg h]

theorem hasValue_iff (d : Dict α) (v : α) :
    d.hasValue v = true ↔ ∃ k, AList.lookup k d = some v := by
  simp only [hasValue, List.any_eq_true, decide_eq_true_eq]
  constructor
  · rintro ⟨⟨k, x⟩, hx, rfl⟩
    exact ⟨k, AList.mem_lookup_iff.mpr hx⟩
  · rintro ⟨k, hk⟩
    exact ⟨⟨k, v⟩, AList.mem_lookup_iff.mp hk, rfl⟩

end Dict

/-- The elements of a set in increasing order. -/
def sorted (s : Finset String) : List String :=
  Quotient.liftOn s.val (List.insertionSort (· ≤ ·)) fun _ _ h =>
    List.Perm.eq_of_pairwise' (List.pairwise_insertionSort _ _) (List.pairwise_insertionSort _ _)
      (((List.perm_insertionSort _ _).trans h).trans (List.perm_insertionSort _ _).symm)

theorem mem_sorted (s : Finset String) (x : String) : x ∈ sorted s ↔ x ∈ s := by
  obtain ⟨⟨l⟩, hl⟩ := s
  exact (List.perm_insertionSort _ l).mem_iff

@[simp] theorem toFinset_sorted (s : Finset String) : (sorted s).toFinset = s := by
  ext x
  rw [List.mem_toFinset, mem_sorted]

/-- An optional string as a truth value keeps its text when the text is not empty. -/
def truthy : Option String → Option String
  | some s => if s = "" then none else some s
  | none => none

/-- `a or b`. -/
def orElse (a : Option String) (b : String) : String := (truthy a).getD b

@[simp] theorem truthy_none : truthy none = none := rfl

theorem truthy_some {s : String} (h : s ≠ "") : truthy (some s) = some s := if_neg h

theorem truthy_eq_some {a : Option String} {s : String} :
    truthy a = some s ↔ a = some s ∧ s ≠ "" := by
  cases a with
  | none => simp
  | some t =>
    by_cases h : t = ""
    · simp only [truthy, h, if_true, Option.some.injEq]
      constructor
      · intro hf; cases hf
      · rintro ⟨rfl, hs⟩; exact absurd rfl hs
    · simp only [truthy, h, if_false, Option.some.injEq]
      constructor
      · rintro rfl; exact ⟨rfl, h⟩
      · exact fun hs => hs.1

@[simp] theorem orElse_none (b : String) : orElse none b = b := rfl

theorem orElse_some {a : String} (h : a ≠ "") (b : String) : orElse (some a) b = a := by
  simp [orElse, truthy_some h]

def spaces : List ℕ :=
  [0x9, 0xa, 0xb, 0xc, 0xd, 0x1c, 0x1d, 0x1e, 0x1f, 0x20, 0x85, 0xa0, 0x1680, 0x2000, 0x2001,
    0x2002, 0x2003, 0x2004, 0x2005, 0x2006, 0x2007, 0x2008, 0x2009, 0x200a, 0x2028, 0x2029,
    0x202f, 0x205f, 0x3000]

/-- `c.isspace()`. -/
def isSpace (c : Char) : Bool := decide (c.toNat ∈ spaces)

/-- What is left when characters are taken off both ends. -/
def stripped (p : Char → Bool) (cs : List Char) : List Char :=
  ((cs.dropWhile p).reverse.dropWhile p).reverse

/-- `s.strip()`. -/
def strip (s : String) : String := String.ofList (stripped isSpace s.toList)

/-! ## `int(s)` -/

/-- The zeros of the decimal digits of Unicode 14; the other nine digits follow each of them. -/
def decimalZeros : List ℕ :=
  [0x30, 0x660, 0x6f0, 0x7c0, 0x966, 0x9e6, 0xa66, 0xae6, 0xb66, 0xbe6, 0xc66, 0xce6, 0xd66,
  0xde6, 0xe50, 0xed0, 0xf20, 0x1040, 0x1090, 0x17e0, 0x1810, 0x1946, 0x19d0, 0x1a80, 0x1a90,
  0x1b50, 0x1bb0, 0x1c40, 0x1c50, 0xa620, 0xa8d0, 0xa900, 0xa9d0, 0xa9f0, 0xaa50, 0xabf0, 0xff10,
  0x104a0, 0x10d30, 0x11066, 0x110f0, 0x11136, 0x111d0, 0x112f0, 0x11450, 0x114d0, 0x11650,
  0x116c0, 0x11730, 0x118e0, 0x11950, 0x11c50, 0x11d50, 0x11da0, 0x16a60, 0x16ac0, 0x16b50,
  0x1d7ce, 0x1d7d8, 0x1d7e2, 0x1d7ec, 0x1d7f6, 0x1e140, 0x1e2f0, 0x1e950, 0x1fbf0]

def decimalDigit (c : Char) : Option ℕ :=
  (decimalZeros.find? fun z => z ≤ c.toNat && c.toNat ≤ z + 9).map fun z => c.toNat - z

/-- The digits of a numeral. Single underscores may stand between them. -/
def numeralDigits : List Char → Option (List ℕ)
  | [] => none
  | [c] => (decimalDigit c).map fun d => [d]
  | c :: '_' :: cs => (decimalDigit c).bind fun d => (numeralDigits cs).map fun ds => d :: ds
  | c :: cs => (decimalDigit c).bind fun d => (numeralDigits cs).map fun ds => d :: ds

/-- `sys.int_info.default_max_str_digits`. -/
def maxStrDigits : ℕ := 4300

/-- The value of a numeral; one with too many digits is refused like one that is malformed. -/
def digitsValue (cs : List Char) : Option ℕ :=
  (numeralDigits cs).bind fun ds =>
    if maxStrDigits < ds.length then none else some (ds.foldl (fun n d => 10 * n + d) 0)

/-- The blanks that `int` skips; the four separators that `strip` takes for blanks are none. -/
def isIntSpace (c : Char) : Bool := isSpace c && !(0x1c ≤ c.toNat && c.toNat ≤ 0x1f)

/-- `int(s)`; `none` is a `ValueError`. -/
def parseInt (s : String) : Option ℤ :=
  match stripped isIntSpace s.toList with
  | '-' :: cs => (digitsValue cs).map fun n => -(n : ℤ)
  | '+' :: cs => (digitsValue cs).map fun n => (n : ℤ)
  | cs => (digitsValue cs).map fun n => (n : ℤ)

example : parseInt " -1_000 " = some (-1000) := by decide +kernel

example : (parseInt "1__0", parseInt "_1", parseInt "1_", parseInt "") = (none, none, none, none) := by
  decide +kernel

/-- `needle in text`. -/
def contains (text needle : String) : Bool := decide (needle.toList <:+: text.toList)

/-- `text.startswith(front)`. -/
def startsWith (text front : String) : Bool := front.toList.isPrefixOf text.toList

/-- A rational rounded half to even to `digits` decimals, as `f"{q:.{digits}f}"` prints it. -/
def fixed (digits : ℕ) (q : ℚ) : String :=
  let scaled := |q| * 10 ^ digits
  let low := scaled.floor.toNat
  let rest := scaled - low
  let n := if rest < 1 / 2 then low else if 1 / 2 < rest then low + 1
    else if low % 2 = 0 then low else low + 1
  let tail := Nat.repr (n % 10 ^ digits)
  let padded := String.ofList (List.replicate (digits - tail.length) '0') ++ tail
  (if q < 0 then "-" else "") ++ Nat.repr (n / 10 ^ digits) ++
    (if digits = 0 then "" else "." ++ padded)

/-- The slices `xs[i : i + n]` at the multiples of `n`, after a slice begun with `cur`. -/
def slices {α : Type} (n : ℕ) : List α → List α → List (List α)
  | cur, [] => if cur.isEmpty then [] else [cur]
  | cur, x :: xs => if cur.length < n then slices n (cur ++ [x]) xs else cur :: slices n [x] xs

theorem flatten_slices {α : Type} (n : ℕ) (xs : List α) :
    ∀ cur : List α, (slices n cur xs).flatten = cur ++ xs := by
  induction xs with
  | nil =>
    intro cur
    cases cur with
    | nil => rfl
    | cons x cur => simp [slices]
  | cons x xs ih =>
    intro cur
    rw [slices]
    split_ifs
    · rw [ih, List.append_assoc, List.singleton_append]
    · rw [List.flatten_cons, ih, List.singleton_append]

end TurboCopy
