import Virthttp.AsyncHandler
import Virthttp.Numerals

namespace Virthttp

def hexAlphabet : Str := lit "0123456789abcdef"

def hexPlace (c : Char) : ℕ := hexAlphabet.idxOf c.toLower

def base16 (sv : Str) : ℕ := Numerals.value 16 hexPlace sv

def canonicalId (sv : Str) : Str := (sv.dropWhile (· == '0')).map Char.toLower

def eightDigits (id : BitVec 32) : Str :=
  Numerals.spell 16 (fun d => hexAlphabet.getD d '0') 8 id.toNat

/-- The id is the number that is written. Where another character follows, no bit of what has been
decoded so far is shifted out, and none is carried out of the sum. -/
structure DecodesExactly (sv : Str) : Prop where
  decoded : (hexDecodeId sv).toNat = base16 sv
  shifted : ∀ pre c post, sv = pre ++ c :: post → hexDecodeId pre <<< 4 >>> 4 = hexDecodeId pre
  added : ∀ pre c post, sv = pre ++ c :: post →
    (hexDecodeId (pre ++ [c])).toNat = (hexDecodeId pre <<< 4).toNat+(hexValue c).toNat

theorem hexChar_toNat {c : Char} (hc : hexChar c = true) :
    c.toNat ∈ List.range' 48 10 ++ List.range' 65 6 ++ List.range' 97 6 := by
  simp only [hexChar, Bool.or_eq_true, Bool.and_eq_true, decide_eq_true_eq, Char.le_def,
    UInt32.le_iff_toNat_le] at hc
  simp only [List.mem_append, List.mem_range'_1]
  change (48 ≤ c.toNat ∧ c.toNat ≤ 57 ∨ 65 ≤ c.toNat ∧ c.toNat ≤ 70) ∨
    97 ≤ c.toNat ∧ c.toNat ≤ 102 at hc
  omega

/-- What is added for a digit is its place in the alphabet, which determines it but for the case. -/
theorem hexChar_place {c : Char} (hc : hexChar c = true) :
    (hexValue c).toNat = hexPlace c ∧ hexPlace c < 16 ∧
      hexAlphabet.getD (hexPlace c) '0' = c.toLower ∧ (c = '0' ↔ hexPlace c = 0) := by
  have hall : ∀ n ∈ List.range' 48 10 ++ List.range' 65 6 ++ List.range' 97 6,
      (hexValue (Char.ofNat n)).toNat = hexPlace (Char.ofNat n) ∧ hexPlace (Char.ofNat n) < 16 ∧
        hexAlphabet.getD (hexPlace (Char.ofNat n)) '0' = (Char.ofNat n).toLower ∧
          (Char.ofNat n = '0' ↔ hexPlace (Char.ofNat n) = 0) := by
    decide
  have h := hall c.toNat (hexChar_toNat hc)
  rw [Char.ofNat_toNat] at h
  exact h

theorem hexAlphabet_place : ∀ d < 16, hexChar (hexAlphabet.getD d '0') = true ∧
    hexPlace (hexAlphabet.getD d '0') = d := by
  decide

theorem hexDecodeId_concat (sv : Str) (c : Char) :
    hexDecodeId (sv ++ [c]) = (hexDecodeId sv <<< 4)+hexValue c := by
  rw [hexDecodeId, List.foldl_append, List.foldl_cons, List.foldl_nil, hexDecodeId]

/-- Whatever its length, a string of digits is decoded up to 32 bits. -/
theorem hexDecodeId_toNat {sv : Str} (hsv : ∀ c ∈ sv, hexChar c = true) :
    (hexDecodeId sv).toNat = base16 sv % 2^32 :=
  Numerals.toNat_foldl_shift fun c hc => (hexChar_place (hsv c hc)).1

theorem base16_lt {sv : Str} (hsv : ∀ c ∈ sv, hexChar c = true) : base16 sv < 16^sv.length :=
  Numerals.value_lt (by decide) fun c hc => (hexChar_place (hsv c hc)).2.1

/-- Eight digits are no more than 32 bits. -/
theorem hexDecodeId_base16 {sv : Str} (hsv : ∀ c ∈ sv, hexChar c = true) (hlen : sv.length ≤ 8) :
    (hexDecodeId sv).toNat = base16 sv := by
  rw [hexDecodeId_toNat hsv]
  apply Nat.mod_eq_of_lt
  calc
    base16 sv < 16^sv.length := base16_lt hsv
    _ ≤ 16^8 := Nat.pow_le_pow_right (by decide) hlen
    _ = 2^32 := by decide

/-- With another digit to come there are at most seven, so that the upper four bits are free. -/
theorem hexDecodeId_room {pre : Str} (hpre : ∀ c ∈ pre, hexChar c = true) (hlen : pre.length < 8) :
    2^4*(hexDecodeId pre).toNat+16 ≤ 2^32 := by
  have hlt : (hexDecodeId pre).toNat < 16^7 := by
    rw [hexDecodeId_base16 hpre (Nat.le_of_lt hlen)]
    calc
      base16 pre < 16^pre.length := base16_lt hpre
      _ ≤ 16^7 := Nat.pow_le_pow_right (by decide) (by omega)
  omega

theorem decodesExactly_of_match {sv : Str} (hsv : numericIdMatch sv = true) :
    DecodesExactly sv := by
  obtain ⟨hchars, -, hlen⟩ := (numericIdMatch_iff sv).mp hsv
  have hpart (pre : Str) (c : Char) (post : Str) (hsplit : sv = pre ++ c :: post) :
      hexChar c = true ∧ 2^4*(hexDecodeId pre).toNat+16 ≤ 2^32 := by
    rw [hsplit, List.forall_mem_append, List.forall_mem_cons] at hchars
    rw [hsplit, List.length_append, List.length_cons] at hlen
    exact ⟨hchars.2.1, hexDecodeId_room hchars.1 (by omega)⟩
  refine ⟨hexDecodeId_base16 hchars hlen, ?_, ?_⟩
  · intro pre c post hsplit
    have hroom := (hpart pre c post hsplit).2
    exact Numerals.shiftLeft_ushiftRight (by omega)
  · intro pre c post hsplit
    obtain ⟨hc, hroom⟩ := hpart pre c post hsplit
    obtain ⟨hvalue, hdigit, -⟩ := hexChar_place hc
    have hshift : (hexDecodeId pre <<< 4).toNat = 2^4*(hexDecodeId pre).toNat := by
      rw [BitVec.toNat_shiftLeft, Nat.shiftLeft_eq, Nat.mul_comm]
      exact Nat.mod_eq_of_lt (by omega)
    rw [hexDecodeId_concat, BitVec.toNat_add, hshift, hvalue]
    exact Nat.mod_eq_of_lt (by omega)

theorem canonicalId_map (sv : Str) :
    (canonicalId sv).map hexAlphabet.idxOf = (sv.dropWhile (· == '0')).map hexPlace := by
  rw [canonicalId, List.map_map]
  rfl

theorem map_canonicalId {sv : Str} (hsv : ∀ c ∈ sv, hexChar c = true) :
    ((sv.dropWhile (· == '0')).map hexPlace).map (fun d => hexAlphabet.getD d '0') =
      canonicalId sv := by
  rw [canonicalId, List.map_map]
  apply List.map_congr_left
  intro c hc
  exact (hexChar_place (hsv c ((List.dropWhile_sublist _).subset hc))).2.2.1

theorem significant_hexPlace {sv : Str} (hsv : ∀ c ∈ sv, hexChar c = true) :
    Numerals.significant hexPlace sv = sv.dropWhile (· == '0') := by
  apply Numerals.significant_eq
  intro c hc
  rw [beq_iff_eq]
  exact (hexChar_place (hsv c hc)).2.2.2

/-- Strings of digits are the same number if they only differ in leading zeros and in case. -/
theorem base16_eq_iff {sv sv' : Str} (hsv : ∀ c ∈ sv, hexChar c = true)
    (hsv' : ∀ c ∈ sv', hexChar c = true) :
    base16 sv = base16 sv' ↔ canonicalId sv = canonicalId sv' := by
  have hplace (s : Str) (hs : ∀ c ∈ s, hexChar c = true) : ∀ c ∈ s, hexPlace c < 16 :=
    fun c hc => (hexChar_place (hs c hc)).2.1
  rw [base16, base16, Numerals.value_inj (by decide) (hplace sv hsv) (hplace sv' hsv'),
    significant_hexPlace hsv, significant_hexPlace hsv']
  constructor
  · intro heq
    rw [← map_canonicalId hsv, heq, map_canonicalId hsv']
  · intro heq
    rw [← canonicalId_map, heq, canonicalId_map]

theorem hexDecodeId_eq_iff {sv sv' : Str} (hsv : numericIdMatch sv = true)
    (hsv' : numericIdMatch sv' = true) :
    hexDecodeId sv = hexDecodeId sv' ↔ canonicalId sv = canonicalId sv' := by
  rw [← BitVec.toNat_inj, (decodesExactly_of_match hsv).decoded,
    (decodesExactly_of_match hsv').decoded]
  exact base16_eq_iff ((numericIdMatch_iff sv).mp hsv).1 ((numericIdMatch_iff sv').mp hsv').1

theorem eightDigits_match (id : BitVec 32) : numericIdMatch (eightDigits id) = true := by
  have hlt : id.toNat < 16^8 := id.isLt
  have hlen : (eightDigits id).length = 8 := Numerals.length_spell (by decide) hlt _
  rw [numericIdMatch_iff, hlen]
  refine ⟨?_, by decide, le_rfl⟩
  intro c hc
  obtain ⟨d, hd, rfl⟩ := Numerals.mem_spell (by decide) hc
  exact (hexAlphabet_place d hd).1

theorem hexDecodeId_eightDigits (id : BitVec 32) : hexDecodeId (eightDigits id) = id := by
  apply BitVec.eq_of_toNat_eq
  rw [(decodesExactly_of_match (eightDigits_match id)).decoded, base16]
  exact Numerals.value_spell (by decide) (fun d hd => (hexAlphabet_place d hd).2) 8 id.toNat

/-- A string that matches is decoded to the number that it is, two of them to the same id only if
they differ in nothing but leading zeros and case, and every id has such a string. -/
theorem hexDecodeId_exact :
    (∀ sv, numericIdMatch sv = true → DecodesExactly sv) ∧
      (∀ sv sv', numericIdMatch sv = true → numericIdMatch sv' = true →
        (hexDecodeId sv = hexDecodeId sv' ↔ canonicalId sv = canonicalId sv')) ∧
      ∀ id, ∃ sv, numericIdMatch sv = true ∧ hexDecodeId sv = id := by
  refine ⟨fun sv => decodesExactly_of_match, fun sv sv' => hexDecodeId_eq_iff, ?_⟩
  intro id
  exact ⟨eightDigits id, eightDigits_match id, hexDecodeId_eightDigits id⟩

theorem spellings_of_255 : DecodesExactly (lit "00fF") ∧ base16 (lit "00fF") = 255 ∧
    hexDecodeId (lit "00fF") = hexDecodeId (lit "FF") := by
  have hlong : numericIdMatch (lit "00fF") = true := by decide
  have hshort : numericIdMatch (lit "FF") = true := by decide
  obtain ⟨hexact, hsame, -⟩ := hexDecodeId_exact
  exact ⟨hexact _ hlong, by decide, (hsame _ _ hlong hshort).mpr (by decide)⟩

end Virthttp
