import Virthttp.Fields
import Virthttp.Flagwork

namespace Virthttp

def commaFields (s : Str) : List Str := (s.splitOn ',').filter (· ≠ [])

/-- The loop ends after at most as many steps as the text has characters, and these are the values
that it sees. -/
def Visits (s : Str) (values : List Str) : Prop :=
  ∃ n ≤ s.length, csvNext^[n] s = [] ∧ (∀ i < n, csvNext^[i] s ≠ []) ∧
    values = (List.range n).map (fun i => csvGet (csvNext^[i] s))

def SingleCommas (s : Str) : Prop := s.head? ≠ some ',' ∧ ¬[',', ','] <:+: s

theorem dropWhile_field {f rest : Str} (hf : ∀ c ∈ f, c ≠ ',')
    (hrest : ∀ x ∈ rest.head?, x = ',') : (f ++ rest).dropWhile (· != ',') = rest := by
  rw [List.dropWhile_append_of_pos (fun c hc => by simpa using hf c hc)]
  cases rest with
  | nil => rfl
  | cons x rest => simp [hrest x rfl]

/-- A field ends at the next comma, or with the text. -/
theorem csvGet_field {f rest : Str} (hne : f ≠ []) (hf : ∀ c ∈ f, c ≠ ',')
    (hrest : ∀ x ∈ rest.head?, x = ',') : csvGet (f ++ rest) = f := by
  have hstart : (f ++ rest).dropWhile (· == ',') = f ++ rest := by
    obtain ⟨x, xs, rfl⟩ := List.exists_cons_of_ne_nil hne
    have hx : x ≠ ',' := hf x List.mem_cons_self
    rw [List.cons_append, List.dropWhile_cons_of_neg (by simpa using hx)]
  rw [csvGet, hstart, dropWhile_field hf hrest, List.length_append, Nat.add_sub_cancel,
    List.take_left]

theorem csvFields_last {f : Str} (hne : f ≠ []) (hf : ∀ c ∈ f, c ≠ ',') : csvFields f = [f] := by
  have hget := @csvGet_field f [] hne hf (by simp)
  have hdrop := @dropWhile_field f [] hf (by simp)
  rw [List.append_nil] at hget hdrop
  rw [csvFields_eq hne, hget, csvNext, hdrop]
  rfl

theorem csvFields_cons {f : Str} (hne : f ≠ []) (hf : ∀ c ∈ f, c ≠ ',') (rest : Str) :
    csvFields (f ++ ',' :: rest) = f :: csvFields rest := by
  rw [csvFields_eq (by simp), csvGet_field hne hf (by simp), csvNext,
    dropWhile_field hf (by simp), List.drop_succ_cons, List.drop_zero]

/-- A comma at the start stays in the value. -/
theorem csvGet_comma (rest : Str) : ∃ field, csvGet (',' :: rest) = ',' :: field := by
  have hsuf : ((',' :: rest).dropWhile (· == ',')).dropWhile (· != ',') <:+ rest := by
    have hdrop : (',' :: rest).dropWhile (· == ',') = rest.dropWhile (· == ',') := by simp
    rw [hdrop]
    exact (List.dropWhile_suffix _).trans (List.dropWhile_suffix _)
  have hlen := hsuf.length_le
  have htake : (',' :: rest).length -
      (((',' :: rest).dropWhile (· == ',')).dropWhile (· != ',')).length =
        (rest.length - (((',' :: rest).dropWhile (· == ',')).dropWhile (· != ',')).length) + 1 := by
    rw [List.length_cons]
    omega
  exact ⟨_, by rw [csvGet, htake, List.take_succ_cons]⟩

/-- The values that the loop sees are the fields of the model, and the loop ends. -/
theorem visits_csvFields (s : Str) : Visits s (csvFields s) := by
  induction hn : s.length using Nat.strong_induction_on generalizing s with
  | _ n ih =>
    by_cases hs : s = []
    · exact ⟨0, Nat.zero_le _, hs, by simp, by rw [hs]; rfl⟩
    · have hlt := csvNext_length hs
      obtain ⟨m, hm, hend, hbefore, hvalues⟩ := ih (csvNext s).length (by omega) (csvNext s) rfl
      refine ⟨m+1, by omega, hend, ?_, ?_⟩
      · intro i hi
        cases i with
        | zero => exact hs
        | succ i => exact hbefore i (by omega)
      · rw [csvFields_eq hs, hvalues, List.range_succ_eq_map, List.map_cons, List.map_map]
        rfl

theorem Visits.unique {s : Str} {values values' : List Str} (h : Visits s values)
    (h' : Visits s values') : values = values' := by
  obtain ⟨n, -, hend, hbefore, rfl⟩ := h
  obtain ⟨m, -, hend', hbefore', rfl⟩ := h'
  have hnm : n = m := by
    rcases Nat.lt_trichotomy n m with hlt | heq | hgt
    · exact absurd hend (hbefore' n hlt)
    · exact heq
    · exact absurd hend' (hbefore m hgt)
  rw [hnm]

theorem doubled_append {f : Str} (hf : ∀ c ∈ f, c ≠ ',') (rest : Str) :
    [',', ','] <:+: f ++ ',' :: rest ↔ rest.head? = some ',' ∨ [',', ','] <:+: rest := by
  induction f with
  | nil =>
    rw [List.nil_append, List.infix_cons_iff]
    apply or_congr_left
    cases rest with
    | nil => simp
    | cons x rest => simp [eq_comm]
  | cons c f ih =>
    have hc : c ≠ ',' := hf c List.mem_cons_self
    rw [List.cons_append, List.infix_cons_iff, ih fun c hc => hf c (List.mem_cons_of_mem _ hc)]
    refine or_iff_right ?_
    intro hstart
    exact hc (List.cons_prefix_cons.mp hstart).1.symm

/-- The fields are visited exactly where the commas are single. -/
theorem csvFields_eq_iff (s : Str) : csvFields s = commaFields s ↔ SingleCommas s := by
  unfold commaFields SingleCommas
  induction s using Fields.fields_induction (p := (· == ',')) with
  | last f hf =>
    have hcomma : ∀ c ∈ f, c ≠ ',' := fun c hc => by simpa using hf c hc
    rw [List.splitOn_eq_singleton_of_beq_eq_false hf]
    refine iff_of_true ?_ ⟨fun hx => hcomma ',' (List.mem_of_mem_head? hx) rfl, ?_⟩
    · by_cases hne : f = []
      · rw [hne]
        rfl
      · rw [csvFields_last hne hcomma]
        simp [hne]
    · intro hdoubled
      exact hcomma ',' (hdoubled.subset List.mem_cons_self) rfl
  | step f s rest hf hs ih =>
    obtain rfl : s = ',' := by simpa using hs
    have hcomma : ∀ c ∈ f, c ≠ ',' := fun c hc => by simpa using hf c hc
    have hsplit : (f ++ ',' :: rest).splitOn ',' = f :: rest.splitOn ',' :=
      List.splitOn_append_cons_of_forall_mem_beq_eq_false hf ',' rfl rest
    rw [hsplit]
    by_cases hne : f = []
    · subst hne
      refine iff_of_false ?_ (by simp)
      intro heq
      obtain ⟨field, hget⟩ := csvGet_comma rest
      have hfield : ',' :: field ∈ rest.splitOn ',' := by
        rw [List.nil_append, csvFields_eq (by simp), hget] at heq
        have hmem : ',' :: field ∈ ([] :: rest.splitOn ',').filter (· ≠ []) := by
          rw [← heq]
          exact List.mem_cons_self
        simpa using hmem
      rw [List.splitOn_eq_splitOnP] at hfield
      have hnone := Fields.not_sep_of_mem_field hfield ',' List.mem_cons_self
      simp at hnone
    · rw [csvFields_cons hne hcomma, List.filter_cons_of_pos (by simpa using hne),
        List.cons.injEq, ih, doubled_append hcomma]
      obtain ⟨x, xs, rfl⟩ := List.exists_cons_of_ne_nil hne
      have hx : x ≠ ',' := hcomma x List.mem_cons_self
      simp [hx]

/-- The loop always ends. It visits the fields, in order, exactly where no comma is at the start or
directly behind another one. -/
theorem csv_visits_iff (s : Str) :
    (∃ values, Visits s values) ∧ (Visits s (commaFields s) ↔ SingleCommas s) := by
  refine ⟨⟨_, visits_csvFields s⟩, ?_⟩
  rw [← csvFields_eq_iff]
  constructor
  · exact fun h => (visits_csvFields s).unique h
  · exact fun h => h ▸ visits_csvFields s

/-- `,a` gives `,a` and then `a`. -/
theorem comma_in_front_kept :
    let s := lit ",a"
    Visits s [lit ",a", lit "a"] ∧ commaFields s = [lit "a"] ∧ ¬Visits s (commaFields s) := by
  intro s
  have hrun : csvFields s = [lit ",a", lit "a"] := by decide
  have hvisits : Visits s [lit ",a", lit "a"] := hrun ▸ visits_csvFields s
  have hfields : commaFields s = [lit "a"] := by decide
  refine ⟨hvisits, hfields, fun h => ?_⟩
  have heq := hvisits.unique h
  rw [hfields] at heq
  exact absurd heq (by decide)

end Virthttp
