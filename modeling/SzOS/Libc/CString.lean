import Mathlib.Data.List.TakeWhile
import Mathlib.Data.Nat.Notation

/-! NUL-terminated strings of the C library.

An object in memory is the list of its bytes; a read past its end has no
value. A `CString` is a string as its readers see it, without the terminator.
-/

set_option autoImplicit false

namespace SzOS.Libc

structure CString where
  bytes : List UInt8
  nonzero : ∀ byte ∈ bytes, byte ≠ 0

/-- A string literal in ASCII, up to the first NUL that may stand in it. -/
def CString.literal (text : String) : CString where
  bytes := (text.toList.map fun c => UInt8.ofNat c.toNat).takeWhile (· ≠ 0)
  nonzero := fun _ member => by simpa using List.mem_takeWhile_imp member

/-- The object that holds the string, terminator included. -/
def CString.object (string : CString) : List UInt8 := string.bytes ++ [0]

/-- strlen.c: `while (str[len]) len++`. -/
def strlenFrom (str : List UInt8) (len : Nat) : Option Nat :=
  match str with
  | [] => none
  | byte :: rest => if byte = 0 then some len else strlenFrom rest (len + 1)

def strlen (str : List UInt8) : Option Nat := strlenFrom str 0

theorem strlenFrom_terminated (bytes rest : List UInt8) (nonzero : ∀ byte ∈ bytes, byte ≠ 0)
    (len : Nat) : strlenFrom (bytes ++ 0 :: rest) len = some (len + bytes.length) := by
  induction bytes generalizing len with
  | nil => simp [strlenFrom]
  | cons byte bytes ih =>
    have here := nonzero byte (by simp)
    rw [List.cons_append, strlenFrom, if_neg here, ih fun b member => nonzero b (by simp [member])]
    simp [Nat.add_comm, Nat.add_left_comm]

@[simp] theorem strlen_object (string : CString) :
    strlen string.object = some string.bytes.length := by
  simp [strlen, CString.object, strlenFrom_terminated _ [] string.nonzero]

end SzOS.Libc
