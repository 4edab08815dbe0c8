import Mathlib.Algebra.Ring.Int.Defs
import Mathlib.Algebra.Ring.Nat
import Mathlib.Order.Lattice
import Mathlib.Data.List.Basic
import Mathlib.Tactic.Common

namespace Virthttp

/-- The characters a `std::string` or a `std::string_view` spans. -/
abbrev Str := List Char

def lit (s : String) : Str := s.toList

/-- A `std::string_view`: `none` is the view whose data pointer is null. -/
abbrev View := Option Str

/-- What a C string function reads of a buffer: everything in front of the first NUL. -/
def cstr (s : Str) : Str := s.takeWhile (fun c => c != Char.ofNat 0)

inductive Exn where
  | runtimeError (what : Str)
  | futureError
  | systemError
  deriving DecidableEq

end Virthttp
