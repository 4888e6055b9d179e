import Mathlib.Data.List.Infix

/-! Byte strings, with the bounds-checked index of the language and the std.mem calls that
the sources make on them. -/
namespace Idula.Zig

/-- The sources' []const u8. -/
abbrev Str := List UInt8

/-- An ASCII literal of the sources. -/
def lit (s : String) : Str := s.toList.map fun c => c.toNat.toUInt8

/-- The failed bounds check of s[index]. -/
structure IndexOutOfBounds where
  index : Nat
  len : Nat
  past : len ≤ index
  deriving DecidableEq

/-- s[i], checked against s.len. -/
def byteAt (s : Str) (i : Nat) : Except IndexOutOfBounds UInt8 :=
  match h : s[i]? with
  | some c => .ok c
  | none => .error ⟨i, s.length, List.getElem?_eq_none_iff.mp h⟩

/-- std.mem.endsWith(u8, haystack, needle). -/
def endsWith (haystack needle : Str) : Bool := needle.isSuffixOf haystack

@[simp] theorem endsWith_iff {haystack needle : Str} :
    endsWith haystack needle = true ↔ needle <:+ haystack :=
  List.isSuffixOf_iff_suffix

end Idula.Zig
