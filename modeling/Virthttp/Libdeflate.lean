import Virthttp.Common

/-! `libdeflate::compress`. The buffer is as long as the body, but the capacity that the compressor
is told is its bound for bodies of that length. -/
namespace Virthttp

inductive Libdeflate.Mode where
  | rawDeflate
  | zlib
  | gzip
  deriving DecidableEq

/-- The compressors of libdeflate. They give nothing back where they fail, and else at most as much
as the capacity that they are told; what they may need is more than what they are given. -/
structure Libdeflate where
  compressBound : Libdeflate.Mode → ℕ → ℕ
  written : Libdeflate.Mode → Str → ℕ → Str
  lt_bound : ∀ mode n, n < compressBound mode n
  written_le : ∀ mode body outNbytesAvail,
    (written mode body outNbytesAvail).length ≤ outNbytesAvail

namespace Libdeflate

/-- The sizes in a call of `libdeflate_*_compress`: of the buffer, and what is said about it. -/
structure CompressCall where
  mode : Mode
  outLength : ℕ
  outNbytesAvail : ℕ

/-- What `compress` does: the call that it makes, if any, and whether it succeeds with the body that
it leaves; nothing where the compressor writes past the buffer. -/
structure Compressed where
  call : Option CompressCall
  result : Option (Bool × Str)

def resize (s : Str) (n : ℕ) : Str := s.take n ++ List.replicate (n-s.length) (Char.ofNat 0)

def overwrite (out written : Str) : Option Str :=
  if written.length ≤ out.length then some (written ++ out.drop written.length) else none

variable (d : Libdeflate)

/-- `compress`; `c` says whether the compressor could be allocated. -/
def compress (c : Bool) (body : Str) (mode : Mode) : Compressed :=
  if c = false then ⟨none, some (false, body)⟩
  else
    let out := resize [] body.length
    let outNbytesAvail := d.compressBound mode body.length
    let written := d.written mode body outNbytesAvail
    ⟨some ⟨mode, out.length, outNbytesAvail⟩, (overwrite out written).map fun out =>
      if written.length = 0 then (false, body) else (true, resize out written.length)⟩

def CapacityFits (c : Bool) (body : Str) (mode : Mode) : Prop :=
  ∀ call ∈ (d.compress c body mode).call, call.outNbytesAvail ≤ call.outLength

@[simp] theorem resize_length (s : Str) (n : ℕ) : (resize s n).length = n := by
  rw [resize, List.length_append, List.length_take, List.length_replicate]
  omega

/-- The capacity only fits where no compressor can be allocated, so that none is called. -/
theorem capacity_fits_iff (c : Bool) (body : Str) (mode : Mode) :
    d.CapacityFits c body mode ↔ c = false := by
  cases c with
  | false =>
    have hcall : (d.compress false body mode).call = none := rfl
    simp [CapacityFits, hcall]
  | true =>
    have hcall : (d.compress true body mode).call =
        some ⟨mode, (resize [] body.length).length, d.compressBound mode body.length⟩ := rfl
    -- the buffer is as long as the body, and the bound is greater
    have hlt := d.lt_bound mode body.length
    simp [CapacityFits, hcall, hlt]

def brackets : Str := [31, 139, 8, 0, 0, 0, 0, 0, 2, 255, 139, 142, 5, 0, 41, 187, 76, 13, 2, 0, 0,
  0].map Char.ofNat

def sample : Libdeflate where
  compressBound mode n := n+5*(n/10000+1)+9+(match mode with
    | .rawDeflate => 0
    | .zlib => 6
    | .gzip => 18)
  written mode body outNbytesAvail :=
    if mode = .gzip ∧ body = lit "[]" ∧ brackets.length ≤ outNbytesAvail then brackets else []
  lt_bound mode n := by omega
  written_le mode body outNbytesAvail := by
    split
    · rename_i h
      exact h.2.2
    · exact Nat.zero_le _

/-- The gzip file of a short body is written past a buffer of two characters. -/
theorem brackets_overrun :
    ¬sample.CapacityFits true (lit "[]") .gzip ∧
      (sample.compress true (lit "[]") .gzip).result = none := by
  refine ⟨?_, by decide⟩
  rw [capacity_fits_iff]
  simp

end Libdeflate

end Virthttp
