import Virthttp.Compression
import Virthttp.Fields

namespace Virthttp

open Backtrack Fields

/-- Whether `std::atof` gives zero for a text that `weightPattern` matches: `0` or `1`, any character
and digits. Fractions of so many digits that they are rounded to zero are left out, since a weight
has at most three. -/
def atofZero : Str → Bool
  | '0' :: c :: ds =>
    if digitChar c then c == '0' && ds.all (· == '0')
    else if c == '.' || c == 'x' || c == 'X' then ds.all (· == '0')
    else true
  | ['0'] => true
  | _ => false

def tokenChar (c : Char) : Bool := c.isAlphanum || (lit "!#$%&'*+-.^_`|~").contains c

def owsChar (c : Char) : Bool := c == ' ' || c == '\t'

/-- `( "0" [ "." 0*3DIGIT ] ) / ( "1" [ "." 0*3("0") ] )` -/
structure QValue where
  one : Bool
  fraction : Option Str
  short : ∀ ds ∈ fraction, ds.length ≤ 3
  digits : ∀ ds ∈ fraction, ∀ d ∈ ds, digitChar d = true
  atMostOne : one = true → ∀ ds ∈ fraction, ∀ d ∈ ds, d = '0'

namespace QValue

def text (v : QValue) : Str := (if v.one then '1' else '0') :: (match v.fraction with
  | none => []
  | some ds => '.' :: ds)

def zero (v : QValue) : Bool := !v.one && (v.fraction.getD []).all (· == '0')

end QValue

/-- `OWS ";" OWS "q=" qvalue` -/
structure Weight where
  before : Str
  after : Str
  spaces : ∀ c ∈ before ++ after, owsChar c = true
  mark : Char
  isMark : mark = 'q' ∨ mark = 'Q'
  value : QValue

namespace Weight

def text (w : Weight) : Str := w.before ++ ';' :: (w.after ++ w.mark :: '=' :: w.value.text)

/-- The pattern only reads a weight that is written without spaces and in lower case. -/
def read (w : Weight) : Bool := w.before.isEmpty && w.after.isEmpty && w.mark == 'q'

end Weight

structure Coding where
  name : Str
  nonempty : name ≠ []
  nameChars : ∀ c ∈ name, tokenChar c = true
  weight : Option Weight
  gap : Str
  gapChars : ∀ c ∈ gap, owsChar c = true ∨ c = ','

namespace Coding

def weightText (e : Coding) : Str := match e.weight with
  | none => []
  | some w => w.text

def text (e : Coding) : Str := e.name ++ (e.weightText ++ e.gap)

def zero (e : Coding) : Bool := e.weight.any (fun w => w.value.zero)

def readZero (e : Coding) : Bool := e.weight.any (fun w => w.read && w.value.zero)

end Coding

/-- The value of the header: codings with commas between them. -/
structure EncodingHeader where
  lead : Str
  leadChars : ∀ c ∈ lead, owsChar c = true ∨ c = ','
  codings : List Coding
  separated : ∀ e ∈ codings.dropLast, ',' ∈ e.gap

namespace EncodingHeader

def text (h : EncodingHeader) : Str := h.lead ++ h.codings.flatMap Coding.text

def mention (h : EncodingHeader) (coding : Str) : Option Coding :=
  h.codings.reverse.find? (fun e => e.name.map Char.toLower == coding)

/-- A coding that is not mentioned is accepted as `*` is, and where that is not mentioned either
only `identity` is. -/
def accepts (h : EncodingHeader) (coding : Str) : Bool :=
  match h.mention coding with
  | some e => !e.zero
  | none =>
    match h.mention (lit "*") with
    | some e => !e.zero
    | none => coding == lit "identity"

end EncodingHeader

def lowerChar (c : Char) : Bool := 'a' ≤ c && c ≤ 'z'

def supported : List Str := [lit "deflate", lit "gzip", lit "identity"]

/-- Of the words in a name only the last one can have a weight. -/
def heardWords (zero : Bool) : List Str → List (Str × Bool)
  | [] => []
  | [w] => [(w, zero)]
  | w :: ws => (w, false) :: heardWords zero ws

def isSupported (e : Str × Bool) : Bool := supported.contains e.1

def Coding.heard (e : Coding) : List (Str × Bool) :=
  (heardWords e.readZero (e.name.splitOnP (fun c => !lowerChar c))).filter isSupported

def EncodingHeader.heard (h : EncodingHeader) : List (Str × Bool) := h.codings.flatMap Coding.heard

def Libraries.withAtof (libs : Libraries) : Libraries := { libs with zeroWeight := atofZero }

def weighted (c : Caps Char) : Str × Bool := (captured c 1, ((c.get 2).map atofZero).getD false)

def heardIn (text : Str) : List (Str × Bool) :=
  ((range weightedEncodingsPattern text).map weighted).filter isSupported

def codingPattern : Re Char :=
  .group 1 (.alt (.many (fun c => 'a' ≤ c && c ≤ 'z') 1 none) (.cls (· == '*')))

def qPattern : Re Char :=
  .opt (.seq (.cls (· == ';')) (.seq (.cls (· == 'q')) (.seq (.cls (· == '='))
    (.opt (.group 2 weightPattern)))))

def commaPattern : Re Char := .opt (.seq (.cls (· == ',')) (.many isSpace 0 none))

theorem weightedEncodingsPattern_eq :
    weightedEncodingsPattern = .seq codingPattern (.seq qPattern commaPattern) := rfl

def codingChar (c : Char) : Bool := lowerChar c || c == '*'

theorem first_codingPattern_none {x : Char} (hx : codingChar x = false) (xs : Str) :
    first codingPattern (x :: xs) [] = none := by
  simp only [codingChar, lowerChar, Bool.or_eq_false_iff, beq_eq_false_iff_ne] at hx
  have hmany : run (.many (fun c => 'a' ≤ c && c ≤ 'z') 1 none) (x :: xs) ([] : Caps Char) = [] :=
    run_many_one_of_not (by simpa using hx.1) []
  have hstar : run (.cls (· == '*')) (x :: xs) ([] : Caps Char) = [] := by
    simp [run, hx.2]
  rw [codingPattern, first_group, first, run, hmany, hstar]
  rfl

/-- What is in front of a name is skipped. -/
theorem heardIn_skip {s : Str} (hs : ∀ c ∈ s, codingChar c = false) (xs : Str) :
    heardIn (s ++ xs) = heardIn xs := by
  induction s with
  | nil => rfl
  | cons x s ih =>
    have hnone : first weightedEncodingsPattern (x :: (s ++ xs)) [] = none := by
      have hrun := first_codingPattern_none (hs x List.mem_cons_self) (s ++ xs)
      rw [first, List.head?_eq_none_iff] at hrun
      rw [weightedEncodingsPattern_eq, first_seq, hrun]
      rfl
    have hsearch := search_cons_of_first_none hnone
    have hrange : range weightedEncodingsPattern (x :: (s ++ xs)) =
        range weightedEncodingsPattern (s ++ xs) := by
      rw [range_eq _ rfl, hsearch, ← range_eq _ rfl]
    rw [List.cons_append, heardIn, hrange]
    exact ih fun c hc => hs c (List.mem_cons_of_mem _ hc)

def FindsName (name rest : Str) : Prop :=
  first codingPattern (name ++ rest) [] = some ([(1, name)], rest)

theorem findsName_word {w rest : Str} (hne : w ≠ []) (hw : ∀ c ∈ w, lowerChar c = true)
    (hrest : ∀ x ∈ rest.head?, lowerChar x = false) : FindsName w rest := by
  have hmany := first_many_append hne hw hrest ([] : Caps Char)
  have halt : first (.alt (.many (fun c => 'a' ≤ c && c ≤ 'z') 1 none) (.cls (· == '*')))
      (w ++ rest) ([] : Caps Char) = some ([], rest) := by
    rw [first, run, List.head?_append]
    exact Option.or_eq_some_iff.mpr (Or.inl hmany)
  exact first_group_append halt

theorem findsName_star (rest : Str) : FindsName ['*'] rest := by
  have hmany : run (.many (fun c => 'a' ≤ c && c ≤ 'z') 1 none) ('*' :: rest) ([] : Caps Char) =
      [] := run_many_one_of_not (by simp) []
  have halt : first (.alt (.many (fun c => 'a' ≤ c && c ≤ 'z') 1 none) (.cls (· == '*')))
      (['*'] ++ rest) ([] : Caps Char) = some ([], rest) := by
    rw [List.cons_append, List.nil_append, first, run, hmany]
    rfl
  exact first_group_append halt

theorem codingChar_of_isSpace {c : Char} (hc : isSpace c = true) : codingChar c = false := by
  by_contra hword
  have hcases : lowerChar c = true ∨ c = '*' := by
    simpa only [codingChar, Bool.not_eq_false, Bool.or_eq_true, beq_iff_eq] using hword
  rcases hcases with hlower | rfl
  · simp only [lowerChar, Bool.and_eq_true, decide_eq_true_eq] at hlower
    have hspace : c = ' ' ∨ ('\t' ≤ c ∧ c ≤ '\r') := by simpa [isSpace] using hc
    rcases hspace with rfl | ⟨-, hle⟩
    · exact absurd hlower.1 (by decide)
    · exact absurd (hlower.1.trans hle) (by decide)
  · exact absurd hc (by decide)

/-- A comma behind a coding is taken with it, and what is skipped anyway. -/
theorem first_commaPattern (rest : Str) (c : Caps Char) : ∃ rest',
    first commaPattern rest c = some (c, rest') ∧ heardIn rest' = heardIn rest := by
  cases rest with
  | nil => exact ⟨_, rfl, rfl⟩
  | cons x rest =>
    by_cases hx : x = ','
    · subst hx
      refine ⟨rest.dropWhile isSpace, ?_, ?_⟩
      · have hseq : first (.seq (.cls (· == ',')) (.many isSpace 0 none)) (',' :: rest) c =
            some (c, rest.dropWhile isSpace) :=
          first_seq_of_first ((first_cls_cons _ _ _ _).trans (if_pos rfl)) (first_many _ _ _)
        rw [commaPattern, first_opt, hseq]
        rfl
      · have hspaces : ∀ y ∈ ',' :: rest.takeWhile isSpace, codingChar y = false := by
          intro y hy
          rcases List.mem_cons.mp hy with rfl | hy
          · decide
          · exact codingChar_of_isSpace (List.mem_takeWhile_imp hy)
        have hskip := heardIn_skip hspaces (rest.dropWhile isSpace)
        rw [List.cons_append, List.takeWhile_append_dropWhile] at hskip
        exact hskip.symm
    · refine ⟨x :: rest, ?_, rfl⟩
      simp [first, commaPattern, run, hx]

/-- Nothing but a weight in lower case and without spaces is taken for one. -/
theorem run_qPattern_none {rest : Str} (h : ¬lit ";q=" <+: rest) (c : Caps Char) :
    run qPattern rest c = [(c, rest)] := by
  have hmark : lit ";q=" = [';', 'q', '='] := rfl
  rw [hmark] at h
  have hnone : run (.seq (.cls (· == ';')) (.seq (.cls (· == 'q')) (.seq (.cls (· == '='))
      (.opt (.group 2 weightPattern))))) rest c = [] := by
    rcases rest with _ | ⟨x, _ | ⟨y, _ | ⟨z, rest⟩⟩⟩
    · rfl
    · rw [run_cls_seq]
      split <;> rfl
    · rw [run_cls_seq, run_cls_seq]
      split
      · split <;> rfl
      · rfl
    · simp only [run_cls_seq, beq_iff_eq]
      split
      · rename_i hx
        split
        · rename_i hy
          split
          · rename_i hz
            exact absurd ⟨rest, by rw [hx, hy, hz]; rfl⟩ h
          · rfl
        · rfl
      · rfl
  rw [qPattern, run, hnone]
  rfl

/-- What one search finds, and what it leaves. -/
theorem heardIn_first {name rest rest' : Str} {c : Caps Char} (hname : FindsName name rest)
    (hq : first (.seq qPattern commaPattern) rest [(1, name)] = some (c, rest')) :
    heardIn (name ++ rest) = [weighted c].filter isSupported ++ heardIn rest' := by
  have hfirst : first weightedEncodingsPattern (name ++ rest) [] = some (c, rest') :=
    first_seq_of_first hname hq
  rw [heardIn, range_of_search rfl (search_of_first hfirst), List.map_cons, heardIn,
    ← List.filter_append, List.singleton_append]

/-- A name without a weight. -/
theorem heardIn_name {name rest : Str} (hname : FindsName name rest)
    (hrest : ¬lit ";q=" <+: rest) :
    heardIn (name ++ rest) = [(name, false)].filter isSupported ++ heardIn rest := by
  obtain ⟨rest', hcomma, hheard⟩ := first_commaPattern rest [(1, name)]
  have htail : first (.seq qPattern commaPattern) rest [(1, name)] = some ([(1, name)], rest') := by
    rw [first_seq, run_qPattern_none hrest, List.findSome?_cons, hcomma]
  rw [heardIn_first hname htail, hheard]
  rfl

def EndsCoding (rest : Str) : Prop := ∀ x ∈ rest.head?, owsChar x = true ∨ x = ','

theorem first_weightPattern {b : Char} (hb : b = '0' ∨ b = '1') (ys : Str) (c : Caps Char) :
    first weightPattern (b :: ys) c = some (c, (ys.drop 1).dropWhile digitChar) := by
  have hbit : first (.cls (fun c => c == '0' || c == '1')) (b :: ys) c = some (c, ys) := by
    rw [first_cls_cons]
    exact if_pos (by simpa using hb)
  have hany : first (.opt (.cls (fun _ => true))) ys c = some (c, ys.drop 1) := by
    cases ys <;> rfl
  exact first_seq_of_first hbit (first_seq_of_first hany (first_opt_many digitChar _ c))

/-- The weight takes one more character, whatever it is, and the digits behind it. -/
theorem first_weightGroup {b : Char} (hb : b = '0' ∨ b = '1') (ys : Str) (c : Caps Char) :
    first (.group 2 weightPattern) (b :: ys) c =
      some ((2, b :: (ys.take 1 ++ (ys.drop 1).takeWhile digitChar)) :: c,
        (ys.drop 1).dropWhile digitChar) := by
  have hsplit : ys.take 1 ++ (ys.drop 1).takeWhile digitChar ++
      (ys.drop 1).dropWhile digitChar = ys := by
    rw [List.append_assoc, List.takeWhile_append_dropWhile, List.take_append_drop]
  have hgroup := @first_group_append _ 2 weightPattern
    (b :: (ys.take 1 ++ (ys.drop 1).takeWhile digitChar)) ((ys.drop 1).dropWhile digitChar) c c
  rw [List.cons_append, hsplit] at hgroup
  exact hgroup (first_weightPattern hb ys c)

theorem codingChar_of_digitChar {c : Char} (hc : digitChar c = true) : codingChar c = false := by
  by_contra hword
  have hcases : lowerChar c = true ∨ c = '*' := by
    simpa only [codingChar, Bool.not_eq_false, Bool.or_eq_true, beq_iff_eq] using hword
  simp only [digitChar, Bool.and_eq_true, decide_eq_true_eq] at hc
  rcases hcases with hlower | rfl
  · simp only [lowerChar, Bool.and_eq_true, decide_eq_true_eq] at hlower
    exact absurd (hlower.1.trans hc.2) (by decide)
  · exact absurd hc.1 (by decide)

theorem EndsCoding.cases {rest : Str} (h : EndsCoding rest) :
    rest = [] ∨ ∃ x r, rest = x :: r ∧ (x = ' ' ∨ x = '\t' ∨ x = ',') := by
  cases rest with
  | nil => exact Or.inl rfl
  | cons x r =>
    have hx := h x rfl
    simp only [owsChar, Bool.or_eq_true, beq_iff_eq, or_assoc] at hx
    exact Or.inr ⟨x, r, rfl, hx⟩

theorem heardIn_dropWhile_digits (xs : Str) :
    heardIn (xs.dropWhile digitChar) = heardIn xs := by
  have hdigits : ∀ c ∈ xs.takeWhile digitChar, codingChar c = false :=
    fun c hc => codingChar_of_digitChar (List.mem_takeWhile_imp hc)
  have hskip := heardIn_skip hdigits (xs.dropWhile digitChar)
  rw [List.takeWhile_append_dropWhile] at hskip
  exact hskip.symm

/-- A weight is read together with a character behind it, which is skipped anyway. -/
theorem first_weight (v : QValue) {rest : Str} (hrest : EndsCoding rest) (c : Caps Char) :
    ∃ text rest', first (.group 2 weightPattern) (v.text ++ rest) c =
        some ((2, text) :: c, rest') ∧ atofZero text = v.zero ∧ heardIn rest' = heardIn rest := by
  have hbit : (if v.one then '1' else '0') = '0' ∨ (if v.one then '1' else '0') = '1' := by
    split
    · exact Or.inr rfl
    · exact Or.inl rfl
  rw [QValue.text, List.cons_append, first_weightGroup hbit]
  refine ⟨_, _, rfl, ?_⟩
  cases hfraction : v.fraction with
  | none =>
    rw [QValue.zero, hfraction]
    -- the character behind a weight without a fraction stands where the point would be
    rcases hrest.cases with rfl | ⟨x, r, rfl, hx⟩
    · constructor
      · cases v.one <;> rfl
      · rfl
    · constructor
      · rcases hx with rfl | rfl | rfl <;> cases v.one <;> rfl
      · have hword : ∀ y ∈ [x], codingChar y = false := by
          rw [List.forall_mem_singleton]
          rcases hx with rfl | rfl | rfl <;> decide
        exact (heardIn_dropWhile_digits r).trans (heardIn_skip hword r).symm
  | some ds =>
    have hds : ∀ d ∈ ds, digitChar d = true := v.digits ds hfraction
    have htake : (ds ++ rest).takeWhile digitChar = ds ∧
        (ds ++ rest).dropWhile digitChar = rest := by
      rw [List.takeWhile_append_of_pos hds, List.dropWhile_append_of_pos hds]
      rcases hrest.cases with rfl | ⟨x, r, rfl, hx⟩
      · simp
      · rcases hx with rfl | rfl | rfl <;> simp [digitChar]
    rw [QValue.zero, hfraction, List.cons_append, List.take_succ_cons, List.take_zero,
      List.drop_succ_cons, List.drop_zero, htake.1, htake.2]
    constructor
    · cases v.one <;> rfl
    · rfl

/-- A name with a weight that is read. -/
theorem heardIn_weight {name rest : Str} (v : QValue)
    (hname : FindsName name (lit ";q=" ++ (v.text ++ rest))) (hrest : EndsCoding rest) :
    heardIn (name ++ (lit ";q=" ++ (v.text ++ rest))) =
      [(name, v.zero)].filter isSupported ++ heardIn rest := by
  obtain ⟨text, rest₁, hweight, hzero, hheard₁⟩ := first_weight v hrest [(1, name)]
  obtain ⟨rest₂, hcomma, hheard₂⟩ := first_commaPattern rest₁ [(2, text), (1, name)]
  have hq : first qPattern (lit ";q=" ++ (v.text ++ rest)) [(1, name)] =
      some ([(2, text), (1, name)], rest₁) := by
    have hopt : first (.opt (.group 2 weightPattern)) (v.text ++ rest) [(1, name)] =
        some ([(2, text), (1, name)], rest₁) := by
      rw [first_opt, hweight]
      rfl
    have hseq : first (.seq (.cls (· == ';')) (.seq (.cls (· == 'q')) (.seq (.cls (· == '='))
        (.opt (.group 2 weightPattern))))) (lit ";q=" ++ (v.text ++ rest)) [(1, name)] =
        some ([(2, text), (1, name)], rest₁) := by
      apply first_seq_of_first ((first_cls_cons _ _ _ _).trans (if_pos rfl))
      apply first_seq_of_first ((first_cls_cons _ _ _ _).trans (if_pos rfl))
      exact first_seq_of_first ((first_cls_cons _ _ _ _).trans (if_pos rfl)) hopt
    rw [qPattern, first_opt, hseq]
    rfl
  rw [heardIn_first hname (first_seq_of_first hq hcomma), hheard₂, hheard₁]
  have hweighted : weighted [(2, text), (1, name)] = (name, v.zero) := by
    rw [← hzero]
    rfl
  rw [hweighted]

theorem codingChar_of_owsChar {c : Char} (hc : owsChar c = true) : codingChar c = false := by
  have hcases : c = ' ' ∨ c = '\t' := by simpa [owsChar] using hc
  rcases hcases with rfl | rfl <;> decide

theorem QValue.text_skipped (v : QValue) : ∀ c ∈ v.text, codingChar c = false := by
  intro c hc
  rcases List.mem_cons.mp hc with rfl | hc
  · split <;> decide
  · cases hfraction : v.fraction with
    | none =>
      rw [hfraction] at hc
      cases hc
    | some ds =>
      rw [hfraction] at hc
      rcases List.mem_cons.mp hc with rfl | hc
      · decide
      · exact codingChar_of_digitChar (v.digits ds hfraction c hc)

/-- A weight that is not read leaves nothing but its `q`. -/
theorem heardIn_weightText (e : Coding) (rest : Str) :
    heardIn (e.weightText ++ rest) = heardIn rest := by
  unfold Coding.weightText
  cases e.weight with
  | none => rfl
  | some w =>
    have hspaces : ∀ c ∈ w.before ++ ';' :: w.after, codingChar c = false := by
      intro c hc
      rcases List.mem_append.mp hc with hc | hc
      · exact codingChar_of_owsChar (w.spaces c (List.mem_append_left _ hc))
      · rcases List.mem_cons.mp hc with rfl | hc
        · decide
        · exact codingChar_of_owsChar (w.spaces c (List.mem_append_right _ hc))
    have hvalue : ∀ c ∈ '=' :: w.value.text, codingChar c = false := by
      intro c hc
      rcases List.mem_cons.mp hc with rfl | hc
      · decide
      · exact w.value.text_skipped c hc
    have htext : w.text ++ rest = (w.before ++ ';' :: w.after) ++
        ([w.mark] ++ (('=' :: w.value.text) ++ rest)) := by
      simp [Weight.text]
    have hmark : heardIn ([w.mark] ++ (('=' :: w.value.text) ++ rest)) =
        heardIn (('=' :: w.value.text) ++ rest) := by
      rcases w.isMark with hq | hq
      · rw [hq]
        have hfinds : FindsName ['q'] (('=' :: w.value.text) ++ rest) :=
          findsName_word (by simp) (List.all_eq_true.mp rfl) (by simp [lowerChar])
        rw [heardIn_name hfinds (by simp [lit])]
        rfl
      · rw [hq]
        exact heardIn_skip (List.forall_mem_singleton.mpr (by decide)) _
    simp only [htext]
    rw [heardIn_skip hspaces, hmark, heardIn_skip hvalue]

/-- A weight that is not read does not look like one that is. -/
theorem not_prefix_of_not_read {w : Weight} (h : w.read = false) (rest : Str) :
    ¬lit ";q=" <+: w.text ++ rest := by
  intro hstart
  have hmark : lit ";q=" = [';', 'q', '='] := rfl
  rw [hmark, Weight.text] at hstart
  cases hbefore : w.before with
  | cons x before =>
    rw [hbefore, List.cons_append, List.cons_append] at hstart
    have hspace := w.spaces x (by simp [hbefore])
    rw [← (List.cons_prefix_cons.mp hstart).1] at hspace
    exact absurd hspace (by decide)
  | nil =>
    rw [hbefore, List.nil_append, List.cons_append] at hstart
    have hbehind := (List.cons_prefix_cons.mp hstart).2
    cases hafter : w.after with
    | cons x after =>
      rw [hafter, List.cons_append, List.cons_append] at hbehind
      have hspace := w.spaces x (by simp [hafter])
      rw [← (List.cons_prefix_cons.mp hbehind).1] at hspace
      exact absurd hspace (by decide)
    | nil =>
      rw [hafter, List.nil_append, List.cons_append] at hbehind
      have hq := (List.cons_prefix_cons.mp hbehind).1
      simp [Weight.read, hbefore, hafter, ← hq] at h

/-- The last word of a name has the weight behind it, if that is read. -/
theorem heardIn_last (e : Coding) {name rest : Str}
    (hname : FindsName name (e.weightText ++ rest)) (hrest : EndsCoding rest) :
    heardIn (name ++ (e.weightText ++ rest)) =
      [(name, e.readZero)].filter isSupported ++ heardIn rest := by
  unfold Coding.weightText at hname ⊢
  unfold Coding.readZero
  cases hweight : e.weight with
  | none =>
    rw [hweight] at hname
    have hno : ¬lit ";q=" <+: [] ++ rest := by
      rcases hrest.cases with rfl | ⟨x, r, rfl, hx⟩
      · simp [lit]
      · rcases hx with rfl | rfl | rfl <;> simp [lit]
    exact heardIn_name hname hno
  | some w =>
    rw [hweight] at hname
    cases hread : w.read with
    | false =>
      have hskip := heardIn_weightText e rest
      rw [Coding.weightText, hweight] at hskip
      have hheard := heardIn_name hname (not_prefix_of_not_read hread rest)
      simp only [hheard, hskip, Option.any_some, hread, Bool.false_and]
    | true =>
      have htext : w.text ++ rest = lit ";q=" ++ (w.value.text ++ rest) := by
        simp only [Weight.read, Bool.and_eq_true, List.isEmpty_iff, beq_iff_eq] at hread
        obtain ⟨⟨hbefore, hafter⟩, hmark⟩ := hread
        rw [Weight.text, hbefore, hafter, hmark]
        rfl
      simp only [htext] at hname ⊢
      simp only [heardIn_weight w.value hname hrest, Option.any_some, hread, Bool.true_and]

theorem heardWords_cons (zero : Bool) (w : Str) {ws : List Str} (hws : ws ≠ []) :
    heardWords zero (w :: ws) = (w, false) :: heardWords zero ws := by
  cases ws with
  | nil => exact absurd rfl hws
  | cons v ws => rfl

theorem not_prefix_of_head {x : Char} (hx : x ≠ ';') (rest : Str) : ¬lit ";q=" <+: x :: rest := by
  intro hstart
  exact hx (List.cons_prefix_cons.mp hstart).1.symm

theorem tokenChar_ne_semicolon {c : Char} (hc : tokenChar c = true) : c ≠ ';' := by
  intro heq
  rw [heq] at hc
  exact absurd hc (by decide)

/-- What is behind a name does not go on with it. -/
theorem weightText_head (e : Coding) {rest : Str} (hrest : EndsCoding rest) :
    ∀ x ∈ (e.weightText ++ rest).head?, lowerChar x = false := by
  have hows {x : Char} (hx : owsChar x = true) : lowerChar x = false := by
    have hword := codingChar_of_owsChar hx
    simp only [codingChar, Bool.or_eq_false_iff] at hword
    exact hword.1
  unfold Coding.weightText
  cases e.weight with
  | none =>
    intro x hx
    rcases hrest x hx with hx | rfl
    · exact hows hx
    · decide
  | some w =>
    intro x hx
    cases hbefore : w.before with
    | nil =>
      simp only [Weight.text, hbefore] at hx
      obtain rfl : ';' = x := by simpa using hx
      decide
    | cons y before =>
      simp only [Weight.text, hbefore] at hx
      obtain rfl : y = x := by simpa using hx
      exact hows (w.spaces y (by simp [hbefore]))

/-- The searches through the rest of a name and what is behind it. -/
theorem heardIn_words (e : Coding) {rest : Str} (hrest : EndsCoding rest) {name : Str}
    (hname : ∀ c ∈ name, tokenChar c = true) : heardIn (name ++ (e.weightText ++ rest)) =
      (heardWords e.readZero (name.splitOnP (fun c => !lowerChar c))).filter isSupported ++
        heardIn rest := by
  induction name using Fields.fields_induction (p := fun c => !lowerChar c) with
  | last w hw =>
    have hlower : ∀ c ∈ w, lowerChar c = true := fun c hc => by simpa using hw c hc
    rw [List.splitOnP_eq_singleton hw]
    by_cases hne : w = []
    · rw [hne, List.nil_append, heardIn_weightText]
      rfl
    · exact heardIn_last e (findsName_word hne hlower (weightText_head e hrest)) hrest
  | step w s tail hw hs ih =>
    have hlower : ∀ c ∈ w, lowerChar c = true := fun c hc => by simpa using hw c hc
    have hslower : lowerChar s = false := by simpa using hs
    have hstoken : tokenChar s = true := hname s (by simp)
    have ihtail := ih fun c hc => hname c (by simp [hc])
    have hskip : heardIn (s :: (tail ++ (e.weightText ++ rest))) =
        heardIn (tail ++ (e.weightText ++ rest)) := by
      by_cases hstar : s = '*'
      · cases tail with
        | nil =>
          have hlast := heardIn_last e (findsName_star (e.weightText ++ rest)) hrest
          rw [hstar, List.nil_append, heardIn_weightText]
          exact hlast
        | cons x tail =>
          have hx := tokenChar_ne_semicolon (hname x (by simp))
          have hfound := heardIn_name (findsName_star (x :: (tail ++ (e.weightText ++ rest))))
            (not_prefix_of_head hx _)
          rw [hstar]
          exact hfound
      · have hword : ∀ c ∈ [s], codingChar c = false := by simp [codingChar, hslower, hstar]
        exact heardIn_skip hword _
    rw [List.splitOnP_append_cons_of_forall_mem hw s hs,
      heardWords_cons _ _ (List.splitOnP_ne_nil _ _), List.append_assoc, List.cons_append]
    by_cases hne : w = []
    · rw [hne, List.nil_append, hskip, ihtail]
      rfl
    · have hfinds : FindsName w (s :: (tail ++ (e.weightText ++ rest))) :=
        findsName_word hne hlower (by simpa using hslower)
      rw [heardIn_name hfinds (not_prefix_of_head (tokenChar_ne_semicolon hstoken) _), hskip,
        ihtail, ← List.append_assoc, ← List.filter_append]
      rfl

theorem gap_skipped (e : Coding) : ∀ c ∈ e.gap, codingChar c = false := by
  intro c hc
  rcases e.gapChars c hc with hspace | rfl
  · exact codingChar_of_owsChar hspace
  · decide

theorem heardIn_coding (e : Coding) {rest : Str} (hrest : EndsCoding (e.gap ++ rest)) :
    heardIn (e.text ++ rest) = e.heard ++ heardIn rest := by
  have htext : e.text ++ rest = e.name ++ (e.weightText ++ (e.gap ++ rest)) := by
    simp only [Coding.text, List.append_assoc]
  rw [htext, heardIn_words e hrest e.nameChars, heardIn_skip (gap_skipped e)]
  rfl

theorem heardIn_codings {es : List Coding} (hes : ∀ e ∈ es.dropLast, ',' ∈ e.gap) :
    heardIn (es.flatMap Coding.text) = es.flatMap Coding.heard := by
  induction es with
  | nil => rfl
  | cons e es ih =>
    have hends : EndsCoding (e.gap ++ es.flatMap Coding.text) := by
      intro x hx
      cases hgap : e.gap with
      | cons y gap =>
        rw [hgap] at hx
        obtain rfl : y = x := by simpa using hx
        exact e.gapChars y (by simp [hgap])
      | nil =>
        -- only the last coding may have nothing behind it
        cases es with
        | nil => simp [hgap] at hx
        | cons e' es =>
          have hcomma := hes e (by simp)
          simp [hgap] at hcomma
    have htail : ∀ e' ∈ es.dropLast, ',' ∈ e'.gap := by
      intro e' he'
      apply hes
      cases es with
      | nil => cases he'
      | cons _ _ => exact List.mem_cons_of_mem _ he'
    rw [List.flatMap_cons, List.flatMap_cons, heardIn_coding e hends, ih htail]

/-- The supported codings that are found in a header are those that are heard. -/
theorem acceptedValues_heard (libs : Libraries) (h : EncodingHeader) :
    (acceptedValues libs.withAtof h.text).filter isSupported = h.heard := by
  have hlead : ∀ c ∈ h.lead, codingChar c = false := by
    intro c hc
    rcases h.leadChars c hc with hspace | rfl
    · exact codingChar_of_owsChar hspace
    · decide
  have hfound : (acceptedValues libs.withAtof h.text).filter isSupported = heardIn h.text := rfl
  rw [hfound, EncodingHeader.text, heardIn_skip hlead, heardIn_codings h.separated]
  rfl

theorem acceptedWeight_heard (libs : Libraries) (h : EncodingHeader) {name : Str}
    (hname : name ∈ supported) : acceptedWeight (acceptedValues libs.withAtof h.text) name =
      acceptedWeight h.heard name := by
  have hsupported : (fun e : Str × Bool => decide (isSupported e = true ∧ (e.1 == name) = true)) =
      fun e => e.1 == name := by
    funext e
    by_cases he : e.1 = name
    · simp [isSupported, he, hname]
    · simp [he]
  rw [← acceptedValues_heard libs h, acceptedWeight, acceptedWeight, ← List.filter_reverse,
    List.find?_filter, hsupported]

def Coding.words (e : Coding) : List Str := e.name.splitOnP (fun c => !lowerChar c)

def EncodingHeader.Names (h : EncodingHeader) (coding : Str) : Prop :=
  ∃ e ∈ h.codings, coding ∈ e.words

def EncodingHeader.Refuses (h : EncodingHeader) : Prop :=
  acceptedWeight h.heard (lit "identity") = some true

/-- The body may stay as it is: `identity` is accepted, or no supported coding is that the body can
be compressed in. -/
def MayStay (libs : Libraries) (h : EncodingHeader) (body : Str) : Prop :=
  h.accepts (lit "identity") = true ∨
    ¬((h.accepts (lit "gzip") = true ∧ (libs.gzip body).isSome = true) ∨
      (h.accepts (lit "deflate") = true ∧ (libs.zlib body).isSome = true))

/-- The response to a request with the header is in a coding that the client accepts. -/
def CodingRight (libs : Libraries) (h : EncodingHeader) (body : Str) : Prop :=
  ∀ inHead res, fieldOf inHead (lit "Accept-Encoding") = h.text → res.body = body →
    res.contentEncoding = none →
    match (handleCompression libs.withAtof inHead res).contentEncoding with
    | none => MayStay libs h body
    | some coding => h.accepts coding = true

structure CodingFits (libs : Libraries) (h : EncodingHeader) (body : Str) : Prop where
  gzip : ¬h.Refuses → h.Names (lit "gzip") → (libs.gzip body).isSome = true →
    h.accepts (lit "gzip") = true
  deflate : ¬h.Refuses → ¬h.Names (lit "gzip") → h.Names (lit "deflate") →
    (libs.zlib body).isSome = true → h.accepts (lit "deflate") = true
  stays : h.Refuses ∨ (h.Names (lit "gzip") ∧ libs.gzip body = none) ∨
    (¬h.Names (lit "gzip") ∧ (h.Names (lit "deflate") → libs.zlib body = none)) →
    MayStay libs h body

theorem heardWords_names (zero : Bool) (ws : List Str) : (heardWords zero ws).map Prod.fst = ws := by
  induction ws with
  | nil => rfl
  | cons w ws ih =>
    cases ws with
    | nil => rfl
    | cons v ws =>
      rw [heardWords_cons _ _ (by simp), List.map_cons, ih]

theorem names_iff (h : EncodingHeader) {coding : Str} (hcoding : coding ∈ supported) :
    (acceptedWeight h.heard coding).isSome = true ↔ h.Names coding := by
  have hmem : (acceptedWeight h.heard coding).isSome = true ↔ coding ∈ h.heard.map Prod.fst := by
    rw [acceptedWeight, Option.isSome_map, List.find?_isSome]
    simp
  have hcodings (e : Coding) : coding ∈ e.heard.map Prod.fst ↔ coding ∈ e.words := by
    have hwords : coding ∈ e.words ↔
        coding ∈ (heardWords e.readZero e.words).map Prod.fst := by rw [heardWords_names]
    rw [hwords]
    constructor
    · intro hheard
      obtain ⟨w, hw, rfl⟩ := List.mem_map.mp hheard
      exact List.mem_map.mpr ⟨w, (List.mem_filter.mp hw).1, rfl⟩
    · intro hheard
      obtain ⟨w, hw, rfl⟩ := List.mem_map.mp hheard
      have hsupported : isSupported w = true := List.contains_iff_mem.mpr hcoding
      exact List.mem_map.mpr ⟨w, List.mem_filter.mpr ⟨hw, hsupported⟩, rfl⟩
  rw [hmem, EncodingHeader.heard, List.map_flatMap, List.mem_flatMap]
  simp only [hcodings]
  rfl

def EncodingHeader.left (libs : Libraries) (h : EncodingHeader) (body : Str) : Option Str :=
  if acceptedWeight h.heard (lit "identity") = some true then none
  else if (acceptedWeight h.heard (lit "gzip")).isSome then
    (libs.gzip body).map (fun _ => lit "gzip")
  else if (acceptedWeight h.heard (lit "deflate")).isSome then
    (libs.zlib body).map (fun _ => lit "deflate")
  else none

theorem contentEncoding_eq (libs : Libraries) (h : EncodingHeader) {inHead : List (Str × Str)}
    {res : Response} (hhead : fieldOf inHead (lit "Accept-Encoding") = h.text)
    (hres : res.contentEncoding = none) :
    (handleCompression libs.withAtof inHead res).contentEncoding = h.left libs res.body := by
  have hcompress (compress : Str → Option Str) (encoding : String) :
      (compressWith compress encoding res).contentEncoding =
        (compress res.body).map (fun _ => lit encoding) := by
    rw [compressWith]
    cases compress res.body with
    | none => exact hres
    | some body => rfl
  have hidentity := @acceptedWeight_heard libs h (lit "identity") (by decide)
  have hgzip := @acceptedWeight_heard libs h (lit "gzip") (by decide)
  have hdeflate := @acceptedWeight_heard libs h (lit "deflate") (by decide)
  unfold handleCompression EncodingHeader.left
  rw [hhead]
  by_cases hempty : h.text = []
  · rw [hempty] at hidentity hgzip hdeflate
    rw [if_pos hempty, ← hidentity, ← hgzip, ← hdeflate]
    exact hres
  · simp only [if_neg hempty, hidentity, hgzip, hdeflate, apply_ite Response.contentEncoding,
      hcompress, hres]
    rfl

theorem codingRight_iff_left (libs : Libraries) (h : EncodingHeader) (body : Str) :
    CodingRight libs h body ↔ match h.left libs body with
      | none => MayStay libs h body
      | some coding => h.accepts coding = true := by
  constructor
  · intro hright
    have hhead : fieldOf [(lit "Accept-Encoding", h.text)] (lit "Accept-Encoding") = h.text := by
      simp [fieldOf, fieldEq]
    have hthis := hright _ ⟨200, 11, [], [], none, body.length, none, false, body⟩ hhead rfl rfl
    rwa [contentEncoding_eq libs h hhead rfl] at hthis
  · intro hleft inHead res hhead hbody hres
    rw [contentEncoding_eq libs h hhead hres, hbody]
    exact hleft

/-- What is left is accepted exactly where no coding is used for being named alone, and the body
only stays as it is where it may. -/
theorem coding_right_iff (libs : Libraries) (h : EncodingHeader) (body : Str) :
    CodingRight libs h body ↔ CodingFits libs h body := by
  have hgzip := @names_iff h (lit "gzip") (by decide)
  have hdeflate := @names_iff h (lit "deflate") (by decide)
  rw [codingRight_iff_left, EncodingHeader.left]
  by_cases hrefuses : acceptedWeight h.heard (lit "identity") = some true
  · rw [if_pos hrefuses]
    constructor
    · intro hstay
      exact ⟨fun hno => absurd hrefuses hno, fun hno => absurd hrefuses hno, fun _ => hstay⟩
    · intro hfits
      exact hfits.stays (Or.inl hrefuses)
  · rw [if_neg hrefuses]
    by_cases hg : h.Names (lit "gzip")
    · rw [if_pos (hgzip.mpr hg)]
      cases hbody : libs.gzip body with
      | some out =>
        constructor
        · intro haccepts
          refine ⟨fun _ _ _ => haccepts, fun _ hno => absurd hg hno, ?_⟩
          rintro (hno | ⟨-, hno⟩ | ⟨hno, -⟩)
          · exact absurd hno hrefuses
          · rw [hbody] at hno
            cases hno
          · exact absurd hg hno
        · intro hfits
          exact hfits.gzip hrefuses hg (by rw [hbody]; rfl)
      | none =>
        constructor
        · intro hstay
          refine ⟨fun _ _ hsome => ?_, fun _ hno => absurd hg hno, fun _ => hstay⟩
          rw [hbody] at hsome
          cases hsome
        · intro hfits
          exact hfits.stays (Or.inr (Or.inl ⟨hg, hbody⟩))
    · rw [if_neg (mt hgzip.mp hg)]
      by_cases hd : h.Names (lit "deflate")
      · rw [if_pos (hdeflate.mpr hd)]
        cases hbody : libs.zlib body with
        | some out =>
          constructor
          · intro haccepts
            refine ⟨fun _ hno => absurd hno hg, fun _ _ _ _ => haccepts, ?_⟩
            rintro (hno | ⟨hno, -⟩ | ⟨-, hno⟩)
            · exact absurd hno hrefuses
            · exact absurd hno hg
            · have hnone := hno hd
              rw [hbody] at hnone
              cases hnone
          · intro hfits
            exact hfits.deflate hrefuses hg hd (by rw [hbody]; rfl)
        | none =>
          constructor
          · intro hstay
            refine ⟨fun _ hno => absurd hno hg, fun _ _ _ hsome => ?_, fun _ => hstay⟩
            rw [hbody] at hsome
            cases hsome
          · intro hfits
            exact hfits.stays (Or.inr (Or.inr ⟨hg, fun _ => hbody⟩))
      · rw [if_neg (mt hdeflate.mp hd)]
        constructor
        · intro hstay
          exact ⟨fun _ hno => absurd hno hg, fun _ _ hno => absurd hno hd, fun _ => hstay⟩
        · intro hfits
          exact hfits.stays (Or.inr (Or.inr ⟨hg, fun hno => absurd hno hd⟩))

def gzipRefused : EncodingHeader where
  lead := []
  leadChars := by simp
  codings := [{
    name := lit "gzip"
    nonempty := by decide
    nameChars := List.all_eq_true.mp rfl
    weight := some {
      before := []
      after := []
      spaces := by simp
      mark := 'q'
      isMark := Or.inl rfl
      value := ⟨false, none, by simp, by simp, by simp⟩ }
    gap := []
    gapChars := by simp }]
  separated := by simp

def identityRefused : EncodingHeader where
  lead := []
  leadChars := by simp
  codings := [{
    name := lit "identity"
    nonempty := by decide
    nameChars := List.all_eq_true.mp rfl
    weight := some {
      before := []
      after := []
      spaces := by simp
      mark := 'q'
      isMark := Or.inl rfl
      value := ⟨false, none, by simp, by simp, by simp⟩ }
    gap := lit ", "
    gapChars := by simp [lit, owsChar] }, {
    name := lit "gzip"
    nonempty := by decide
    nameChars := List.all_eq_true.mp rfl
    weight := none
    gap := []
    gapChars := by simp }]
  separated := by decide

theorem refused_codings_used :
    let libs : Libraries :=
      ⟨⟨fun _ => .null, fun _ => []⟩, [], fun _ _ => true, atofZero, some, some⟩
    gzipRefused.text = lit "gzip;q=0" ∧ ¬CodingRight libs gzipRefused (lit "[]") ∧
      identityRefused.text = lit "identity;q=0, gzip" ∧
      ¬CodingRight libs identityRefused (lit "[]") := by
  intro libs
  refine ⟨by decide, ?_, by decide, ?_⟩
  · rw [codingRight_iff_left]
    have hleft : gzipRefused.left libs (lit "[]") = some (lit "gzip") := by decide
    rw [hleft]
    decide
  · rw [codingRight_iff_left]
    have hleft : identityRefused.left libs (lit "[]") = none := by decide
    rw [hleft]
    simp only [MayStay]
    decide

end Virthttp
