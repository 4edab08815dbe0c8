import Virthttp.AsyncRuns
import Virthttp.UrlParser

namespace Virthttp

open Backtrack

def hexChar (c : Char) : Bool :=
  ('0' ≤ c && c ≤ '9') || ('A' ≤ c && c ≤ 'F') || ('a' ≤ c && c ≤ 'f')

def numericIdPattern : Re Char := .many hexChar 1 (some 8)

def numericIdMatch (id : Str) : Bool := (fullMatch numericIdPattern id).isSome

def hexValue (c : Char) : BitVec 32 :=
  if '0' ≤ c ∧ c ≤ '9' then BitVec.ofNat 32 (c.toNat - '0'.toNat)
  else if 'A' ≤ c ∧ c ≤ 'F' then BitVec.ofNat 32 (c.toNat - 'A'.toNat + 10)
  else if 'a' ≤ c ∧ c ≤ 'f' then BitVec.ofNat 32 (c.toNat - 'a'.toNat + 10)
  else 0#32

def hexDecodeId (sv : Str) : BitVec 32 := sv.foldl (fun ret c => (ret <<< 4)+hexValue c) 0#32

def hexDigit (id : BitVec 32) : Char := (lit "0123456789abcdef").getD (id &&& 0xf#32).toNat '0'

/-- The loop from the last character to the first, with the digits that are already written. -/
def hexEncodeLoop : ℕ → BitVec 32 → Str → Str
  | 0, _, ret => ret
  | n+1, id, ret => hexEncodeLoop n (id >>> 16) (hexDigit id :: ret)

def hexEncodeId (id : BitVec 32) : Str := hexEncodeLoop 8 id []

variable {φ : Type}

def asyncResponse : TaskStatus × Str → ℕ × Str
  | (.nonExistent, _) => (404, [])
  | (.inProgress, _) => (102, [])
  | (.finished, val) => (302, val)

def handleAsyncRetrieve (rt : Runtime 32 φ) (strId : Str) :
    Except Exn (ℕ × Str) × Runtime 32 φ :=
  if numericIdMatch strId then
    let (value, rt') := rt.valueIfReady (hexDecodeId strId)
    (value.map asyncResponse, rt')
  else (.ok (404, []), rt)

theorem numericIdMatch_iff (sv : Str) : numericIdMatch sv = true ↔
    (∀ c ∈ sv, hexChar c = true) ∧ 1 ≤ sv.length ∧ sv.length ≤ 8 := by
  rw [numericIdMatch, numericIdPattern, fullMatch_many]
  simp

theorem hexDigit_spec (id : BitVec 32) :
    hexChar (hexDigit id) = true ∧ hexValue (hexDigit id) = id &&& 0xf#32 := by
  have hdigit : ∀ n < 16, hexChar ((lit "0123456789abcdef").getD n '0') = true ∧
      hexValue ((lit "0123456789abcdef").getD n '0') = BitVec.ofNat 32 n := by
    decide
  have hlt : (id &&& 0xf#32).toNat < 16 := by
    have h := Nat.and_le_right (n := id.toNat) (m := 15)
    rw [BitVec.toNat_and]
    exact Nat.lt_succ_of_le h
  have h := hdigit _ hlt
  rw [BitVec.ofNat_toNat, BitVec.setWidth_eq] at h
  exact h

theorem hexEncodeLoop_matches (n : ℕ) (id : BitVec 32) (ret : Str)
    (hret : ∀ c ∈ ret, hexChar c = true) :
    (∀ c ∈ hexEncodeLoop n id ret, hexChar c = true) ∧
      (hexEncodeLoop n id ret).length = n+ret.length := by
  induction n generalizing id ret with
  | zero => exact ⟨hret, (Nat.zero_add _).symm⟩
  | succ n ih =>
    obtain ⟨hchars, hlen⟩ := ih (id >>> 16) (hexDigit id :: ret) fun c hc => by
      rcases List.mem_cons.mp hc with rfl | hc
      · exact (hexDigit_spec id).1
      · exact hret c hc
    refine ⟨hchars, hlen.trans ?_⟩
    simp only [List.length_cons]
    omega

theorem hexEncodeId_matches (id : BitVec 32) : numericIdMatch (hexEncodeId id) = true := by
  obtain ⟨hchars, hlen⟩ := hexEncodeLoop_matches 8 id [] (by simp)
  refine (numericIdMatch_iff _).mpr ⟨hchars, ?_, ?_⟩
  · exact (by decide : 1 ≤ 8).trans (Nat.le_of_eq hlen.symm)
  · exact Nat.le_of_eq hlen

/-- Shifting by sixteen bits twice leaves nothing, so that six of the digits are zeros. -/
theorem hexEncodeId_eq (id : BitVec 32) :
    hexEncodeId id = ['0', '0', '0', '0', '0', '0', hexDigit (id >>> 16), hexDigit id] := by
  have hzero : id >>> 16 >>> 16 = 0#32 := by
    rw [← BitVec.shiftRight_add]
    exact BitVec.ushiftRight_eq_zero (Nat.le_refl 32)
  simp only [hexEncodeId, hexEncodeLoop, hzero]
  rfl

theorem hexDecodeId_hexEncodeId (id : BitVec 32) :
    (hexDecodeId (hexEncodeId id)).toNat = (id.toNat/2^16%16)*16+id.toNat%16 := by
  have hzero : hexValue '0' = 0#32 := by decide
  have hand (x : BitVec 32) : (x &&& 0xf#32).toNat = x.toNat%16 := by
    rw [BitVec.toNat_and]
    exact Nat.and_two_pow_sub_one_eq_mod x.toNat 4
  rw [hexEncodeId_eq, hexDecodeId]
  simp only [List.foldl_cons, List.foldl_nil, hzero, (hexDigit_spec _).2, BitVec.zero_shiftLeft,
    BitVec.add_zero, BitVec.zero_add]
  rw [BitVec.toNat_add, BitVec.toNat_shiftLeft, hand, hand, BitVec.toNat_ushiftRight,
    Nat.shiftLeft_eq, Nat.shiftRight_eq_div_pow]
  omega

structure RoundTrips (id : BitVec 32) : Prop where
  matched : (hexEncodeId id).length = 8 ∧ numericIdMatch (hexEncodeId id) = true
  decoded : hexDecodeId (hexEncodeId id) = id

/-- The strings of the ids in the store are told apart, and each retrieves its own task. -/
structure Addressable (rt : Runtime 32 φ) : Prop where
  roundTrips : ∀ id, rt.store.live id = true → RoundTrips id
  distinct : ∀ id id', rt.store.live id = true → rt.store.live id' = true →
    hexEncodeId id = hexEncodeId id' → id = id'
  retrieves : ∀ id, rt.store.live id = true → handleAsyncRetrieve rt (hexEncodeId id) =
    ((rt.valueIfReady id).1.map asyncResponse, (rt.valueIfReady id).2)

theorem roundTrips_of_decoded {id : BitVec 32} (h : hexDecodeId (hexEncodeId id) = id) :
    RoundTrips id := by
  have hlength : (hexEncodeId id).length = 8 := by
    rw [hexEncodeId_eq]
    rfl
  exact ⟨⟨hlength, hexEncodeId_matches id⟩, h⟩

theorem roundTrips_iff (id : BitVec 32) : RoundTrips id ↔ id.toNat < 16 := by
  have hlt := id.isLt
  have hdecode := hexDecodeId_hexEncodeId id
  constructor
  · intro h
    rw [h.decoded] at hdecode
    have hsmall : id.toNat < 2^16 := by omega
    rw [Nat.div_eq_of_lt hsmall] at hdecode
    omega
  · intro h
    apply roundTrips_of_decoded
    apply BitVec.eq_of_toNat_eq
    rw [hdecode]
    omega

/-- A hexadecimal digit stands for itself in a path. -/
theorem hexChar_path {c : Char} (hc : hexChar c = true) : c ≠ '/' ∧ pathChar c = true := by
  have hlow : '0' ≤ c := by
    simp only [hexChar, Bool.or_eq_true, Bool.and_eq_true, decide_eq_true_eq] at hc
    rcases hc with (h | h) | h
    · exact h.1
    · exact le_trans (by decide) h.1
    · exact le_trans (by decide) h.1
  have hne (d : Char) (hd : d < '0') : c ≠ d := by
    rintro rfl
    exact absurd hlow (not_le.mpr hd)
  have hquestion : c ≠ '?' := by
    rintro rfl
    exact absurd hc (by decide)
  have hspace : ¬c ≤ '\r' := fun h => absurd (le_trans hlow h) (by decide)
  refine ⟨hne '/' (by decide), ?_⟩
  simp [pathChar, isSpace, hne '#' (by decide), hne ' ' (by decide), hquestion, hspace]

theorem pathParts_async (id : BitVec 32) :
    (TargetParser.ofUrl (lit "/async/" ++ hexEncodeId id)).pathParts =
      [lit "async", hexEncodeId id] := by
  have hchars := ((numericIdMatch_iff _).mp (hexEncodeId_matches id)).1
  have hne : hexEncodeId id ≠ [] := by
    rw [hexEncodeId_eq]
    exact List.cons_ne_nil _ _
  have hpath : pathOf (lit "/async/" ++ hexEncodeId id) = lit "/async/" ++ hexEncodeId id := by
    refine (if_pos rfl).trans ?_
    refine List.takeWhile_eq_self_iff.mpr fun c hc => ?_
    rcases List.mem_append.mp hc with hc | hc
    · exact List.all_eq_true.mp (by decide : (lit "/async/").all pathChar = true) c hc
    · exact (hexChar_path (hchars c hc)).2
  rw [pathParts_ofUrl, hpath]
  change segments ('/' :: (lit "async" ++ '/' :: hexEncodeId id)) = _
  rw [segments_cons_slash, segments_append (by simp [lit]) (by simp [lit]),
    segments_part hne fun c hc => (hexChar_path (hchars c hc)).1]

/-- The strings of all ids match the pattern, but only those below 16 are decoded to the id they
were made of; a store keeps its tasks apart exactly if it holds no other ids. -/
theorem addressable_iff :
    (∀ id : BitVec 32, (TargetParser.ofUrl (lit "/async/" ++ hexEncodeId id)).pathParts =
      [lit "async", hexEncodeId id] ∧ (RoundTrips id ↔ id.toNat < 16)) ∧
      ∀ rt : Runtime 32 φ, Addressable rt ↔ ∀ id, rt.store.live id = true → id.toNat < 16 := by
  refine ⟨fun id => ⟨pathParts_async id, roundTrips_iff id⟩,
    fun rt => ⟨fun h id hid => ?_, fun h => ?_⟩⟩
  · exact (roundTrips_iff id).mp (h.roundTrips id hid)
  · have hround (id : BitVec 32) (hid : rt.store.live id = true) : RoundTrips id :=
      (roundTrips_iff id).mpr (h id hid)
    refine ⟨hround, fun id id' hid hid' heq => ?_, fun id hid => ?_⟩
    · rw [← (hround id hid).decoded, heq, (hround id' hid').decoded]
    · rw [handleAsyncRetrieve, if_pos (hround id hid).matched.2, (hround id hid).decoded]

/-- The seventeenth task gets the string of the first one while both are in the store. -/
theorem sixteen_not_roundTrips :
    (∃ es rt, asyncRun 32 Unit (List.replicate 17 [.arrive, .launch () none true]).flatten =
      some (es, rt) ∧ rt.store.live 0#32 = true ∧ rt.store.live 16#32 = true) ∧
    hexEncodeId 16#32 = lit "00000000" ∧ hexEncodeId 0#32 = lit "00000000" ∧
      hexDecodeId (hexEncodeId 16#32) = 0#32 :=
  ⟨⟨_, _, rfl, by decide, by decide⟩, by decide, by decide, by decide⟩

end Virthttp
