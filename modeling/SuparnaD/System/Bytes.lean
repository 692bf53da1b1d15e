import Mathlib.Algebra.Group.Int.Defs
import Mathlib.Algebra.Group.Nat.Defs
import Mathlib.Data.Int.Notation
import Mathlib.Data.List.Basic
import Mathlib.Data.Nat.Notation

/-!
# Bytes, C strings and 32-bit words

The bytes of files, buffers and sockets are lists of `UInt8`; a `size_t` is a `UInt64`, so its
sums wrap as they do in the source. A C string is read from a buffer up to its first zero byte.
`ascii` spells the string literals of the source.

## Main definitions

* `cString`, `ascii`, `writeAt`.
* `u32Bytes`, `u32OfBytes` : a `uint32_t` as the four bytes it has in memory, little-endian.
* `strstr`, `strchr`, `startsWith` : the searches of `string.h`.
* `strtol`, `atoi`, `sizeOfInt` : the numbers that a text states.
-/

namespace SuparnaD

/-- The content of a file, a buffer or a stream. -/
abbrev Bytes : Type := List UInt8

/-- The bytes of a string literal of the source, all of them ASCII. -/
def ascii (s : String) : Bytes := s.toList.map fun c => c.toNat.toUInt8

/-- The C string at the start of a buffer: everything before the first zero byte. -/
def cString (buf : Bytes) : Bytes := buf.takeWhile (· ≠ 0)

/-- `memcpy` of `bytes` to the offset `off` of a buffer. -/
def writeAt (buf : Bytes) (off : ℕ) (bytes : Bytes) : Bytes :=
  buf.take off ++ bytes ++ buf.drop (off + bytes.length)

/-! ### Words in memory -/

/-- The four bytes of a `uint32_t` in memory, the least significant first. -/
def u32Bytes (n : UInt32) : Bytes :=
  [n.toNat, n.toNat / 256, n.toNat / 65536, n.toNat / 16777216].map Nat.toUInt8

/-- The number that four bytes in memory make, the least significant first. -/
def leNat (b : Bytes) : ℕ :=
  (b.getD 0 0).toNat + 256 * (b.getD 1 0).toNat + 65536 * (b.getD 2 0).toNat +
    16777216 * (b.getD 3 0).toNat

/-- The `uint32_t` whose bytes in memory are the first four of a buffer. -/
def u32OfBytes (b : Bytes) : UInt32 := (leNat b).toUInt32

@[simp] theorem length_u32Bytes (n : UInt32) : (u32Bytes n).length = 4 := rfl

theorem leNat_lt (b : Bytes) : leNat b < 2 ^ 32 := by
  have h₀ := (b.getD 0 0).toNat_lt
  have h₁ := (b.getD 1 0).toNat_lt
  have h₂ := (b.getD 2 0).toNat_lt
  have h₃ := (b.getD 3 0).toNat_lt
  simp only [leNat]
  omega

theorem toNat_u32OfBytes (b : Bytes) : (u32OfBytes b).toNat = leNat b := by
  rw [u32OfBytes, Nat.toUInt32, UInt32.toNat_ofNat']
  exact Nat.mod_eq_of_lt (leNat_lt b)

theorem leNat_u32Bytes (n : UInt32) (rest : Bytes) : leNat (u32Bytes n ++ rest) = n.toNat := by
  have h := n.toNat_lt
  simp only [leNat, u32Bytes, List.map_cons, List.map_nil, List.cons_append, List.nil_append,
    List.getD_cons_zero, List.getD_cons_succ, Nat.toUInt8, UInt8.toNat_ofNat']
  omega

/-! ### Searches in C strings -/

/-- `strncmp(s, word, strlen(word)) == 0`. -/
def startsWith (word s : Bytes) : Bool := word.isPrefixOf s

/-- `strstr(s, word)`: the suffix of `s` at the first occurrence of `word`. -/
def strstr (s word : Bytes) : Option Bytes :=
  if startsWith word s then some s else
    match s with
    | [] => none
    | _ :: rest => strstr rest word

/-- `strchr(s, c)`: the suffix of `s` at the first occurrence of `c`. -/
def strchr (s : Bytes) (c : UInt8) : Option Bytes := strstr s [c]

/-! ### Numbers in C strings -/

/-- The spaces of `isspace`. -/
def isSpace (b : UInt8) : Bool := b = 32 || (9 ≤ b && b ≤ 13)

/-- The value of the leading decimal digits. -/
def digitsValue (acc : ℕ) : Bytes → ℕ
  | [] => acc
  | b :: rest => if 48 ≤ b ∧ b ≤ 57 then digitsValue (10 * acc + (b.toNat - 48)) rest else acc

/-- `strtol(s, NULL, 10)`, which stays at the ends of the range of `long`. -/
def strtol (s : Bytes) : ℤ :=
  let s := s.dropWhile isSpace
  let value : ℤ := match s with
    | 45 :: digits => -(digitsValue 0 digits : ℤ)
    | 43 :: digits => digitsValue 0 digits
    | digits => digitsValue 0 digits
  max (-2 ^ 63) (min value (2 ^ 63 - 1))

/-- `atoi`, which is `strtol` cut to an `int`. -/
def atoi (s : Bytes) : ℤ := (strtol s).bmod (2 ^ 32)

/-- `(size_t)` of an `int`. -/
def sizeOfInt (n : ℤ) : UInt64 := UInt64.ofInt n

end SuparnaD
