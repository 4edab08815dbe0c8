import Virthttp.AbsoluteUrl
import Mathlib.Algebra.Order.Ring.Nat

/-! The port of a url. Its digits are read in memory up to the first character that is none, which
need not be in the url, and the number is cut down to 16 bits. -/
namespace Virthttp

open Fields

theorem decimal_append (ds es : Str) : decimal (ds ++ es) =
    es.foldl (fun n c => 10*n+(c.toNat - '0'.toNat)) (decimal ds) := List.foldl_append

theorem le_foldl_decimal (es : Str) (n : ℕ) :
    n ≤ es.foldl (fun n c => 10*n+(c.toNat - '0'.toNat)) n := by
  induction es generalizing n with
  | nil => exact le_rfl
  | cons e es ih =>
    have hstep : n ≤ 10*n+(e.toNat - '0'.toNat) := by omega
    exact hstep.trans (ih _)

theorem le_decimal_append (ds es : Str) : decimal ds ≤ decimal (ds ++ es) := by
  rw [decimal_append]
  exact le_foldl_decimal es _

/-- Every further digit makes the number ten times as large. -/
theorem ten_mul_le_decimal {es : Str} (hne : es ≠ []) (ds : Str) :
    10*decimal ds ≤ decimal (ds ++ es) := by
  obtain ⟨e, es, rfl⟩ := List.exists_cons_of_ne_nil hne
  have hstep : 10*decimal ds ≤ 10*decimal ds+(e.toNat - '0'.toNat) := by omega
  rw [decimal_append, List.foldl_cons]
  exact hstep.trans (le_foldl_decimal es _)

theorem readPort_toNat (mem : Str) :
    (readPort mem).toNat = min (decimal (mem.takeWhile digitChar)) (2^64-1) % 2^16 := by
  have hlt : min (decimal (mem.takeWhile digitChar)) (2^64-1) < 2^64 := by omega
  rw [readPort, strtoul, BitVec.toNat_setWidth, BitVec.toNat_ofNat, Nat.mod_eq_of_lt hlt]

/-- The port that is read, where it does not depend on what follows in memory. -/
def steadyPort (ds rest : Str) : Option ℕ :=
  if rest ≠ [] ∨ 2^64-1 ≤ decimal ds ∨ (2^64-1 ≤ 10*decimal ds ∧ decimal ds % 2^16 = 65535) then
    some (min (decimal ds) (2^64-1) % 2^16)
  else none

theorem takeWhile_digits {ds rest : Str} (hds : ∀ d ∈ ds, digitChar d = true)
    (hrest : EndsAuthority rest) (behind : Str) : (ds ++ rest ++ behind).takeWhile digitChar =
      ds ++ if rest = [] then behind.takeWhile digitChar else [] := by
  rw [List.append_assoc, List.takeWhile_append_of_pos hds]
  cases rest with
  | nil => rfl
  | cons x rest =>
    obtain rfl := hrest x rfl
    rfl

/-- Behind a number that is too large it makes no difference that there are further digits. -/
theorem min_decimal_append {ds : Str} (h : 2^64-1 ≤ decimal ds ∨
    (2^64-1 ≤ 10*decimal ds ∧ decimal ds % 2^16 = 65535)) (es : Str) :
    min (decimal (ds ++ es)) (2^64-1) % 2^16 = min (decimal ds) (2^64-1) % 2^16 := by
  by_cases hne : es = []
  · rw [hne, List.append_nil]
  · have hle := le_decimal_append ds es
    have hten := ten_mul_le_decimal hne ds
    omega

theorem steadyPort_iff {ds rest : Str} (hds : ∀ d ∈ ds, digitChar d = true)
    (hrest : EndsAuthority rest) (e : ℕ) :
    (∀ behind, (readPort (ds ++ rest ++ behind)).toNat = e) ↔ steadyPort ds rest = some e := by
  simp only [readPort_toNat, takeWhile_digits hds hrest, steadyPort]
  by_cases hnil : rest = []
  · simp only [hnil, if_true, ne_eq, not_true_eq_false, false_or]
    split
    · rename_i hlarge
      rw [Option.some_inj]
      constructor
      · intro h
        simpa using h []
      · intro h behind
        rw [min_decimal_append hlarge, h]
    · rename_i hsmall
      -- one more digit may be 0 or 1, and then the port cannot be the same
      refine iff_of_false ?_ (by simp)
      intro h
      have h0 := h ['0']
      have h1 := h ['1']
      have hend := h []
      have ht0 : (['0'] : Str).takeWhile digitChar = ['0'] := by decide
      have ht1 : (['1'] : Str).takeWhile digitChar = ['1'] := by decide
      have hd0 : decimal (ds ++ ['0']) = 10*decimal ds := decimal_append ds ['0']
      have hd1 : decimal (ds ++ ['1']) = 10*decimal ds+1 := decimal_append ds ['1']
      rw [ht0, hd0] at h0
      rw [ht1, hd1] at h1
      rw [List.takeWhile_nil, List.append_nil] at hend
      omega
  · simp only [if_neg hnil, if_pos (Or.inl hnil), List.append_nil, Option.some_inj]
    exact forall_const Str

structure PortUrl where
  scheme : Option Str
  schemeChars : ∀ s ∈ scheme, ∀ c ∈ s, c ≠ ':' ∧ c ≠ '/'
  host : Str
  hostChars : ∀ c ∈ host, c ≠ '/' ∧ c ≠ '?' ∧ c ≠ '#'
  digits : Str
  nonempty : digits ≠ []
  digitChars : ∀ d ∈ digits, digitChar d = true
  rest : Str
  restStarts : ∀ x ∈ rest.head?, x = '/' ∨ x = '?' ∨ x = '#'

namespace PortUrl

def origin (x : PortUrl) : Str := x.host ++ ':' :: x.digits

def text (x : PortUrl) : Str :=
  match x.scheme with
  | none => x.origin ++ x.rest
  | some s => s ++ lit "://" ++ (x.origin ++ x.rest)

def known (x : PortUrl) : Bool := x.scheme.all (fun s => decide (s ∈ schemes))

def seen (x : PortUrl) : Option (Str × Str) :=
  if x.known = false then none
  else if x.host ≠ [] ∧ x.rest.head?.all (· == '/') = true then some (x.digits, x.rest)
  else ((fromOn isPort (authorityOf x.rest)).tail?).map
    (fun ds => (ds, x.rest.dropWhile (· != '/')))

end PortUrl

def meantPort (ds : Str) : ℕ := if decimal ds ≤ 65535 then decimal ds else 0

/-- Whatever follows the url in memory, its port is the one that is meant. -/
def PortRight (x : PortUrl) : Prop :=
  ∀ behind, (URLParser.ofUrl behind x.text).port.toNat = meantPort x.digits

/-- A scheme that the pattern does not have, and digits that it does not take for the port, give no
port or one out of a query. Else the number has to fit in 16 bits, or to have no more than 64 of
which the last 16 are zero, and a slash has to end it. -/
def PortFits (x : PortUrl) : Prop :=
  if x.known = false then meantPort x.digits = 0
  else if x.host ≠ [] ∧ x.rest.head?.all (· == '/') = true then
    x.rest ≠ [] ∧ (decimal x.digits ≤ 65535 ∨ (decimal x.digits < 2^64 ∧ 2^16 ∣ decimal x.digits))
  else match (fromOn isPort (authorityOf x.rest)).tail? with
    | none => meantPort x.digits = 0
    | some ds => steadyPort ds (x.rest.dropWhile (· != '/')) = some (meantPort x.digits)

theorem isPort_false {z c : Char} {zs ys : Str} (hc : digitChar c = false) :
    isPort (z :: (zs ++ c :: ys)) = false := by
  simp [isPort, hc]

theorem fromOn_digits {ds : Str} (hds : ∀ d ∈ ds, digitChar d = true) (ys : Str) :
    fromOn isPort (ds ++ ys) = fromOn isPort ys := by
  apply fromOn_append
  intro z zs hsuf
  have hz : z ≠ ':' := (digitChar_ne (hds z (hsuf.subset List.mem_cons_self))).2
  simp [isPort, hz]

/-- Only at the end of an authority is there a port. -/
theorem portOf_digits {host ds q : Str} (hne : ds ≠ []) (hds : ∀ d ∈ ds, digitChar d = true)
    (hq : ∀ x ∈ q.head?, digitChar x = false) : portOf (host ++ ':' :: ds ++ q) =
      if host ≠ [] ∧ q = [] then some ds else (fromOn isPort q).tail? := by
  cases host with
  | nil =>
    have htext : ([] : Str) ++ ':' :: ds ++ q = ':' :: (ds ++ q) := rfl
    rw [htext, portOf, fromOn_digits hds]
    simp
  | cons y host =>
    have hhost : fromOn isPort (host ++ ':' :: (ds ++ q)) = fromOn isPort (':' :: (ds ++ q)) :=
      fromOn_append fun z zs _ => isPort_false (by decide)
    have htext : y :: host ++ ':' :: ds ++ q = y :: (host ++ ':' :: (ds ++ q)) := by simp
    rw [htext, portOf, hhost, fromOn]
    cases q with
    | nil =>
      have hport : isPort (':' :: (ds ++ [])) = true := by
        simp [isPort, hne, List.all_eq_true.mpr hds]
      rw [if_pos hport, if_pos ⟨by simp, rfl⟩, List.append_nil]
      rfl
    | cons x q =>
      have hport : isPort (':' :: (ds ++ x :: q)) = false := isPort_false (hq x rfl)
      rw [hport, fromOn_digits hds]
      simp

namespace PortUrl

variable (x : PortUrl)

theorem origin_not_slash : ∀ c ∈ x.origin, c ≠ '/' := by
  intro c hc
  rcases List.mem_append.mp hc with hc | hc
  · exact (x.hostChars c hc).1
  · rcases List.mem_cons.mp hc with rfl | hc
    · decide
    · exact (digitChar_ne (x.digitChars c hc)).1

theorem origin_ne_nil : x.origin ≠ [] := by simp [origin]

theorem authorityOf_origin : authorityOf (x.origin ++ x.rest) = x.origin ++ authorityOf x.rest := by
  have hchars : ∀ c ∈ x.origin, (c != '/') = true := fun c hc => by
    simpa using x.origin_not_slash c hc
  exact List.takeWhile_append_of_pos hchars

theorem colon_not_last {s host ds : Str} (hne : ds ≠ []) (hs : ':' ∉ s) :
    host ++ ':' :: ds ≠ s ++ [':'] := by
  intro h
  have hlast := congrArg List.dropLast h
  rw [List.dropLast_concat, List.dropLast_append_cons, List.dropLast_cons_of_ne_nil hne] at hlast
  apply hs
  rw [← hlast]
  simp

/-- Without a scheme none is taken off: a colon of the host is not the last one in front of a
slash. -/
theorem splitScheme_origin : splitScheme (x.origin ++ x.rest) = ([], x.origin ++ x.rest) := by
  rcases splitScheme_cases (x.origin ++ x.rest) with ⟨s, hs, v, hurl, -, -⟩ | ⟨-, hsplit⟩
  · exfalso
    have hleft : authorityOf (x.origin ++ x.rest) = s ++ [':'] := by
      rw [hurl, scheme_slashes]
      exact (authorityOf_append (scheme_not_slash s hs) (by simp [EndsAuthority])).1
    rw [x.authorityOf_origin, origin, List.append_assoc, List.cons_append] at hleft
    exact colon_not_last (by simp [x.nonempty]) (colon_not_mem_schemes s hs) hleft
  · exact hsplit

/-- The authority that the pattern takes. -/
theorem splitScheme_text : splitScheme x.text = match x.scheme with
    | none => ([], x.origin ++ x.rest)
    | some s => if s ∈ schemes then (s, x.origin ++ x.rest)
        else ([], s ++ lit "://" ++ (x.origin ++ x.rest)) := by
  unfold text
  cases hscheme : x.scheme with
  | none => exact x.splitScheme_origin
  | some s =>
    have hcolon : ':' ∉ s := fun h => (x.schemeChars s hscheme ':' h).1 rfl
    have hhost : hostStarts (x.origin ++ x.rest) = true :=
      hostStarts_append x.origin_ne_nil x.origin_not_slash x.rest
    simp only [splitScheme_scheme hcolon, hhost, and_true]

theorem rest_not_digit : ∀ y ∈ (authorityOf x.rest).head?, digitChar y = false := by
  intro y hy
  have hhead : y ∈ x.rest.head? := by
    cases hrest : x.rest with
    | nil =>
      rw [hrest] at hy
      cases hy
    | cons z rest =>
      rw [hrest, authorityOf, List.takeWhile_cons] at hy
      split at hy
      · simpa using hy
      · cases hy
  rcases x.restStarts y hhead with rfl | rfl | rfl <;> decide

theorem portOf_scheme (s : Str) : portOf (s ++ [':']) = none := by
  cases s with
  | nil => rfl
  | cons y s =>
    have hfrom : fromOn isPort (s ++ [':']) = fromOn isPort [':'] :=
      fromOn_append fun z zs _ => isPort_false (by decide)
    rw [List.cons_append, portOf, hfrom]
    rfl

theorem parts_known (hknown : x.known = true) :
    (urlParts x.text).port = portOf (x.origin ++ authorityOf x.rest) ∧
      behindAuthority x.text = x.rest.dropWhile (· != '/') := by
  have hcut : x.origin ++ x.rest =
      (x.origin ++ authorityOf x.rest) ++ x.rest.dropWhile (· != '/') := by
    rw [List.append_assoc, authorityOf, List.takeWhile_append_dropWhile]
  have hsplit : ∃ s, splitScheme x.text =
      (s, (x.origin ++ authorityOf x.rest) ++ x.rest.dropWhile (· != '/')) := by
    rw [splitScheme_text, ← hcut]
    cases hscheme : x.scheme with
    | none => exact ⟨[], rfl⟩
    | some s =>
      have hs : s ∈ schemes := by simpa [known, hscheme] using hknown
      exact ⟨s, if_pos hs⟩
  obtain ⟨s, hs⟩ := hsplit
  have hslash : ∀ c ∈ x.origin ++ authorityOf x.rest, c ≠ '/' := by
    intro c hc
    rw [← authorityOf_origin] at hc
    simpa using List.mem_takeWhile_imp hc
  have hparts := urlParts_of_split hs (by simp [x.origin_ne_nil]) hslash
    (endsAuthority_dropWhile x.rest)
  rw [hparts.1]
  exact ⟨rfl, hparts.2⟩

theorem parts_unknown (hknown : x.known = false) : (urlParts x.text).port = none := by
  cases hscheme : x.scheme with
  | none => simp [known, hscheme] at hknown
  | some s =>
    have hs : s ∉ schemes := by simpa [known, hscheme] using hknown
    have hslash : ∀ c ∈ s ++ [':'], c ≠ '/' := by
      intro c hc
      rcases List.mem_append.mp hc with hc | hc
      · exact (x.schemeChars s hscheme c hc).2
      · rw [List.mem_singleton.mp hc]
        decide
    have hsplit : splitScheme x.text =
        ([], (s ++ [':']) ++ '/' :: '/' :: (x.origin ++ x.rest)) := by
      rw [splitScheme_text, hscheme]
      simp only [if_neg hs, scheme_slashes]
    rw [(urlParts_of_split hsplit (by simp) hslash (by simp [EndsAuthority])).1]
    exact portOf_scheme s

theorem head_slash_iff : x.rest.head?.all (· == '/') = true ↔ authorityOf x.rest = [] := by
  rw [authorityOf]
  cases x.rest with
  | nil => simp
  | cons y rest =>
    by_cases hy : y = '/'
    · simp [hy]
    · simp [hy]

/-- What is taken for the port, by the pattern. -/
theorem seen_eq : x.seen = (urlParts x.text).port.map (fun ds => (ds, behindAuthority x.text)) := by
  unfold seen
  cases hknown : x.known with
  | false =>
    rw [x.parts_unknown hknown]
    rfl
  | true =>
    obtain ⟨hport, hbehind⟩ := x.parts_known hknown
    rw [if_neg (by simp), hport, hbehind, origin,
      portOf_digits x.nonempty x.digitChars x.rest_not_digit]
    simp only [head_slash_iff]
    split
    · rename_i hordinary
      have hrest : x.rest.dropWhile (· != '/') = x.rest := by
        have hcut : authorityOf x.rest ++ x.rest.dropWhile (· != '/') = x.rest :=
          List.takeWhile_append_dropWhile
        rwa [hordinary.2, List.nil_append] at hcut
      rw [hrest]
      rfl
    · rfl

end PortUrl

theorem digits_of_portOf {a ds : Str} (h : portOf a = some ds) :
    ∀ d ∈ ds, digitChar d = true := by
  cases a with
  | nil => cases h
  | cons y a =>
    rcases fromOn_isPort a with hnil | ⟨ds', hfrom, -, hdigits⟩
    · rw [portOf, hnil] at h
      cases h
    · rw [portOf, hfrom] at h
      obtain rfl : ds' = ds := by simpa using h
      exact hdigits

theorem digits_of_port {url ds : Str} (h : (urlParts url).port = some ds) :
    ∀ d ∈ ds, digitChar d = true := by
  unfold urlParts at h
  cases hs : hostStarts (splitScheme url).2 with
  | false => simp [hs] at h
  | true =>
    simp only [hs, if_true] at h
    exact digits_of_portOf h

def SeenFits (meant : ℕ) : Option (Str × Str) → Prop
  | none => meant = 0
  | some (ds, rest) => steadyPort ds rest = some meant

theorem portRight_iff_seen (x : PortUrl) :
    PortRight x ↔ SeenFits (meantPort x.digits) x.seen := by
  unfold PortRight
  rw [x.seen_eq]
  cases hport : (urlParts x.text).port with
  | none =>
    have hget (behind : Str) : (URLParser.ofUrl behind x.text).port = 0 := by
      rw [URLParser.ofUrl, URLParser.setURL, parseAll_eq, hport]
      rfl
    simp only [hget]
    constructor
    · exact fun h => (h []).symm
    · exact fun h _ => h.symm
  | some ds =>
    have hget (behind : Str) : (URLParser.ofUrl behind x.text).port =
        readPort (ds ++ behindAuthority x.text ++ behind) := by
      rw [URLParser.ofUrl, URLParser.setURL, parseAll_eq, hport]
    simp only [hget]
    exact steadyPort_iff (digits_of_port hport) (endsAuthority_dropWhile _) _

/-- At the end of a view no port is read the same whatever follows, and is the one that is meant. -/
theorem steadyPort_meant (ds rest : Str) : steadyPort ds rest = some (meantPort ds) ↔
    rest ≠ [] ∧ (decimal ds ≤ 65535 ∨ (decimal ds < 2^64 ∧ 2^16 ∣ decimal ds)) := by
  rw [steadyPort, meantPort]
  generalize decimal ds = n
  by_cases hnil : rest = []
  · refine iff_of_false ?_ (by simp [hnil])
    split
    · rename_i hlarge
      rw [Option.some_inj]
      -- a number of more than 64 bits is read as one whose last 16 are all set, never as 0
      have hn := hlarge.resolve_left (not_not.mpr hnil)
      split <;> omega
    · simp
  · rw [if_pos (Or.inl hnil), Option.some_inj]
    simp only [ne_eq, hnil, not_false_eq_true, true_and]
    split <;> omega

/-- The port is right where the pattern takes the digits for it, where a slash ends them and where
their number fits. -/
theorem port_right_iff (x : PortUrl) : PortRight x ↔ PortFits x := by
  rw [portRight_iff_seen, PortUrl.seen, PortFits]
  by_cases hknown : x.known = false
  · rw [if_pos hknown, if_pos hknown, SeenFits]
  · rw [if_neg hknown, if_neg hknown]
    by_cases hordinary : x.host ≠ [] ∧ x.rest.head?.all (· == '/') = true
    · rw [if_pos hordinary, if_pos hordinary]
      exact steadyPort_meant x.digits x.rest
    · rw [if_neg hordinary, if_neg hordinary]
      cases (fromOn isPort (authorityOf x.rest)).tail? <;> rfl

/-- `http://h:65537/` and `http://h:80`, behind which a digit may follow in memory -/
theorem port_cut_and_read_on :
    ¬PortRight ⟨some (lit "http"), by simp [lit], ['h'], by simp, lit "65537", by decide,
      List.all_eq_true.mp rfl, ['/'], by simp⟩ ∧
    ¬PortRight ⟨some (lit "http"), by simp [lit], ['h'], by simp, lit "80", by decide,
      List.all_eq_true.mp rfl, [], by simp⟩ := by
  rw [portRight_iff_seen, portRight_iff_seen]
  constructor
  · exact fun h => absurd ((steadyPort_meant (lit "65537") ['/']).mp h).2 (by decide)
  · exact fun h => ((steadyPort_meant (lit "80") []).mp h).1 rfl

end Virthttp
