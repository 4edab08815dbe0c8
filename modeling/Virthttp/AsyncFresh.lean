import Virthttp.AsyncSafety

/-! Freshness of the keys of the asynchronous store: a key that is issued again has been passed
by a full turn of the counter, and until then it is reported as not existing. -/
namespace Virthttp

variable {w : ℕ} {φ : Type}

def Event.search : Event w → Option (BitVec w × AsyncStore w)
  | .launched _ id before => some (id, before)
  | .launchFailed id before => some (id, before)
  | _ => none

/-- The search from a store passes over `y`, which is live, and so is all in front of it. -/
def AsyncStore.passes (s : AsyncStore w) (y : BitVec w) : Prop :=
  ∃ d, y = s.lastId+BitVec.ofNat w (d+1) ∧
    ∀ e ≤ d, s.live (s.lastId+BitVec.ofNat w (e+1)) = true

def Event.covers (ev : Event w) (y : BitVec w) : Prop :=
  ∃ id before, ev.search = some (id, before) ∧ (id = y ∨ before.passes y)

theorem iterate_succ (n : ℕ) (a : BitVec w) :
    (fun id : BitVec w => id+1)^[n] a = a+BitVec.ofNat w n := by
  induction n with
  | zero => simp
  | succ n ih =>
    rw [Function.iterate_succ_apply', ih]
    apply BitVec.eq_of_toNat_eq
    simp [Nat.add_assoc]

/-- Every key is reached from every other in less than one turn. -/
theorem add_ofNat_sub (a y : BitVec w) : a+BitVec.ofNat w (y-a).toNat = y := by
  rw [BitVec.ofNat_toNat, BitVec.setWidth_eq, BitVec.add_comm, BitVec.sub_add_cancel]

theorem getFreeId_eq_some_iff {s : AsyncStore w} {id : BitVec w} :
    s.getFreeId = some id ↔ ∃ d < 2^w, s.lastId+BitVec.ofNat w (d+1) = id ∧
      s.live id = false ∧ ∀ e < d, s.live (s.lastId+BitVec.ofNat w (e+1)) = true := by
  simp only [AsyncStore.getFreeId, CyclicSearch.firstFree_eq_some_iff, iterate_succ]

/-- The loop ends as soon as some key is free. -/
theorem getFreeId_isSome {s : AsyncStore w} {y : BitVec w} (hy : s.live y = false) :
    ∃ id, s.getFreeId = some id := by
  by_contra hnone
  have hall := CyclicSearch.firstFree_eq_none_iff.mp
    (Option.eq_none_iff_forall_ne_some.mpr (fun id h => hnone ⟨id, h⟩))
  have hd := hall (y-(s.lastId+1)).toNat (BitVec.isLt _)
  have heq : (fun id : BitVec w => id+1)^[(y-(s.lastId+1)).toNat+1] s.lastId = y := by
    rw [Function.iterate_succ_apply, iterate_succ, add_ofNat_sub]
  rw [heq, hy] at hd
  contradiction

theorem search_step {rt rt' : Runtime w φ} {ev : Event w} (h : Steps rt ev rt') :
    (ev.search = none ∧ rt'.store.lastId = rt.store.lastId) ∨
      ∃ id, ev.search = some (id, rt.store) ∧ rt.store.getFreeId = some id ∧
        rt'.store.lastId = id := by
  cases h with
  | launched n id task hfree _ _ => exact Or.inr ⟨id, rfl, hfree, rfl⟩
  | launchFailed n id hfree => exact Or.inr ⟨id, rfl, hfree, rfl⟩
  | collected now rt' hg => exact Or.inl ⟨rfl, (Runtime.gc_same hg).2⟩
  | _ => exact Or.inl ⟨rfl, rfl⟩

/-- Since `x` was issued the counter has moved `n` keys on, all of them covered. -/
def Swept (x : BitVec w) (es : List (Event w)) (rt : Runtime w φ) : Prop :=
  ∃ n, rt.store.lastId = x+BitVec.ofNat w n ∧
    (∀ k, 0 < k → k ≤ n → ∃ ev ∈ es, ev.covers (x+BitVec.ofNat w k)) ∧
    ((∃ ev ∈ es, ev.search ≠ none) → 0 < n)

theorem Swept.step {x : BitVec w} {es : List (Event w)} {rt rt' : Runtime w φ} {ev : Event w}
    (hI : Swept x es rt) (h : Steps rt ev rt') : Swept x (es ++ [ev]) rt' := by
  obtain ⟨n, hlast, hcov, hpos⟩ := hI
  have old (k : ℕ) (hk : 0 < k) (hkn : k ≤ n) :
      ∃ ev' ∈ es ++ [ev], ev'.covers (x+BitVec.ofNat w k) := by
    obtain ⟨ev', hmem, hc⟩ := hcov k hk hkn
    exact ⟨ev', List.mem_append_left _ hmem, hc⟩
  rcases search_step h with ⟨hnone, hsame⟩ | ⟨id, hsearch, hfree, hid⟩
  · refine ⟨n, hsame.trans hlast, old, ?_⟩
    rintro ⟨ev', hmem, hne⟩
    rcases List.mem_append.mp hmem with hmem | hmem
    · exact hpos ⟨ev', hmem, hne⟩
    · obtain rfl := List.mem_singleton.mp hmem
      exact absurd hnone hne
  · obtain ⟨d, _, rfl, _, hbusy⟩ := getFreeId_eq_some_iff.mp hfree
    have shift (e : ℕ) : rt.store.lastId+BitVec.ofNat w e = x+BitVec.ofNat w (n+e) := by
      rw [hlast, BitVec.add_assoc, BitVec.ofNat_add]
    refine ⟨n+(d+1), hid.trans (shift _), ?_, fun _ => by omega⟩
    intro k hk hkn
    by_cases hold : k ≤ n
    · exact old k hk hold
    · refine ⟨ev, by simp, _, _, hsearch, ?_⟩
      obtain ⟨e, rfl⟩ : ∃ e, k = n+(e+1) := ⟨k-n-1, by omega⟩
      rw [← shift]
      by_cases hlast : e = d
      · exact Or.inl (by rw [hlast])
      · exact Or.inr ⟨e, rfl, fun e' he' => hbusy e' (by omega)⟩

/-- The counter comes back to a key only after a full turn. -/
theorem Swept.full_turn {x : BitVec w} {es : List (Event w)} {rt : Runtime w φ}
    (hI : Swept x es rt) (hlast : rt.store.lastId = x) (hev : ∃ ev ∈ es, ev.search ≠ none)
    (y : BitVec w) (hy : y ≠ x) : ∃ ev ∈ es, ev.covers y := by
  obtain ⟨n, heq, hcov, hpos⟩ := hI
  have hzero : BitVec.ofNat w n = 0 := by
    have hx : x+BitVec.ofNat w n = x+0 := by
      rw [← heq, hlast]
      exact (BitVec.add_zero x).symm
    exact (BitVec.add_right_inj x).mp hx
  have hmod : n%2^w = 0 := by simpa using congrArg BitVec.toNat hzero
  have hturn : 2^w ≤ n := Nat.le_of_dvd (hpos hev) (Nat.dvd_of_mod_eq_zero hmod)
  have hk : 0 < (y-x).toNat := by
    rw [Nat.pos_iff_ne_zero]
    intro h0
    have hxy := add_ofNat_sub x y
    rw [h0] at hxy
    exact hy (hxy.symm.trans (BitVec.add_zero x))
  have hlt := (y-x).isLt
  have := hcov (y-x).toNat hk (by omega)
  rwa [add_ofNat_sub] at this

/-- Two launches of one key have every other key covered in between. -/
theorem reissue_covers {as : List (Action w φ)} {pre mid post : List (Event w)}
    {first second : Event w} {rt : Runtime w φ} {x : BitVec w} {s s' : AsyncStore w}
    (h : asyncRun w φ as = some (pre ++ first :: (mid ++ second :: post), rt))
    (hfirst : first.search = some (x, s)) (hsecond : second.search = some (x, s'))
    (y : BitVec w) (hy : y ≠ x) : ∃ ev ∈ mid ++ [second], ev.covers y := by
  obtain ⟨_, _, _, rt₁, rt₂, _, hstep, hrest⟩ := Runs.exec_split h
  obtain ⟨_, _, _, rt₃, rt₄, hmid, hstep', _⟩ := Runs.exec_split hrest
  have hlast {rt rt' : Runtime w φ} {ev : Event w} {b : AsyncStore w} (hs : Steps rt ev rt')
      (hev : ev.search = some (x, b)) : rt'.store.lastId = x := by
    rcases search_step hs with ⟨hnone, _⟩ | ⟨id, hid, _, heq⟩
    · rw [hnone] at hev
      contradiction
    · rw [hid] at hev
      cases hev
      exact heq
  have hstart : Swept x [] rt₂ := ⟨0, by simpa using hlast (step_cases hstep) hfirst,
    fun k hk hk0 => absurd hk (by omega), by simp⟩
  have hswept : Swept x mid rt₃ := Runs.exec_invariant_nil
    (fun _ _ _ _ _ hI hs => Swept.step hI (step_cases hs)) hstart hmid
  exact (hswept.step (step_cases hstep')).full_turn (hlast (step_cases hstep') hsecond)
    ⟨second, by simp, by simp [hsecond]⟩ y hy

theorem lastLaunch_mem {id : BitVec w} {es : List (Event w)} {t : ℕ}
    (h : lastLaunch id es = some t) : ∃ ev ∈ es, ∃ before, ev.search = some (id, before) := by
  obtain ⟨ev, hmem, hev⟩ := List.exists_of_findSome?_eq_some h
  refine ⟨ev, List.mem_reverse.mp hmem, ?_⟩
  cases ev with
  | launched u id' before =>
    simp only [Event.launchOf] at hev
    split at hev
    · rename_i heq
      subst heq
      exact ⟨before, rfl⟩
    · contradiction
  | _ => simp [Event.launchOf] at hev

/-- No step but a launch puts a key into the store. -/
theorem step_stays_free {es : List (Event w)} {rt rt' : Runtime w φ} {ev : Event w}
    (hI : StoreInv es rt) (h : Steps rt ev rt') {x : BitVec w}
    (hx : rt.store.elems.lookup x = none) :
    (∃ before, ev.search = some (x, before)) ∨ rt'.store.elems.lookup x = none := by
  have hissue (id : BitVec w) (fut : Option ℕ) :
      id = x ∨ (rt.store.issue id fut).elems.lookup x = none := by
    by_cases heq : x = id
    · exact Or.inl heq.symm
    · exact Or.inr ((lookup_insert_eq _ _ _ _).trans ((if_neg heq).trans hx))
  cases h with
  | launched n id task _ _ _ =>
    rcases hissue id (some rt.tasks.length) with rfl | hnone
    · exact Or.inl ⟨_, rfl⟩
    · exact Or.inr hnone
  | launchFailed n id _ =>
    rcases hissue id none with rfl | hnone
    · exact Or.inl ⟨_, rfl⟩
    · exact Or.inr hnone
  | housekept t task ret now ht hphase =>
    obtain ⟨e, hl, _⟩ := hI.busy t task.id ⟨task, ht, rfl, by simp [hphase, Phase.busy]⟩
    have hne : x ≠ task.id := by
      rintro rfl
      simp [hx] at hl
    exact Or.inr ((lookup_insert_eq _ _ _ _).trans ((if_neg hne).trans hx))
  | consumed id e r _ _ =>
    refine Or.inr ?_
    rw [lookup_erase_eq]
    split
    · rfl
    · exact hx
  | collected now rt' hg =>
    refine Or.inr (Option.eq_none_iff_forall_ne_some.mpr ?_)
    intro e he
    simp [((Runtime.gc_lookup hg x e).mp he).1] at hx
  | _ => exact Or.inr hx

theorem step_finished {rt rt' : Runtime w φ} {x : BitVec w} {fut : Option ℕ} {ret : Str}
    (h : Steps rt (.retrieved x fut (.ok (.finished, ret))) rt') :
    (∃ t, rt.holds x t) ∧ rt'.store.elems.lookup x = none := by
  generalize hev : Event.retrieved x fut (.ok (.finished, ret)) = ev at h
  cases h with
  | consumed id e r hl hready =>
    obtain ⟨t, _, hfut, _, _⟩ := futureResult_ready hready
    obtain rfl : x = id := by
      injection hev
    exact ⟨⟨t, e, hl, hfut⟩, AList.lookup_erase _ _⟩
  | _ => simp at hev

theorem step_missing {rt rt' : Runtime w φ} {x : BitVec w} {fut : Option ℕ}
    {res : Except Exn (TaskStatus × Str)} (h : Steps rt (.retrieved x fut res) rt')
    (hx : rt.store.elems.lookup x = none) : res = .ok (.nonExistent, []) := by
  generalize hev : Event.retrieved x fut res = ev at h
  cases h with
  | notFound id _ => injection hev
  | noState id e _ hl _ =>
    obtain rfl : x = id := by
      injection hev
    rw [hx] at hl
    contradiction
  | notReady id e hl _ =>
    obtain rfl : x = id := by
      injection hev
    rw [hx] at hl
    contradiction
  | consumed id e r hl _ =>
    obtain rfl : x = id := by
      injection hev
    rw [hx] at hl
    contradiction
  | _ => simp at hev

/-- A consumed key is reported as not existing until it is issued again. -/
theorem consumed_until_reissued {as : List (Action w φ)} {pre mid post : List (Event w)}
    {rt : Runtime w φ} {x : BitVec w} {fut fut' : Option ℕ} {ret : Str}
    {res : Except Exn (TaskStatus × Str)}
    (h : asyncRun w φ as = some (pre ++ .retrieved x fut (.ok (.finished, ret)) ::
      (mid ++ .retrieved x fut' res :: post), rt)) :
    (∃ ev ∈ pre, ∃ s, ev.search = some (x, s)) ∧
      (res = .ok (.nonExistent, []) ∨ ∃ ev ∈ mid, ∃ s, ev.search = some (x, s)) := by
  obtain ⟨_, _, _, rt₁, rt₂, hpre, hstep, hrest⟩ := Runs.exec_split h
  obtain ⟨_, _, _, rt₃, rt₄, hmid, hstep', _⟩ := Runs.exec_split hrest
  have hI := storeInv_run hpre
  obtain ⟨⟨t, hheld⟩, hgone⟩ := step_finished (step_cases hstep)
  refine ⟨lastLaunch_mem (hI.entry x t hheld).2, ?_⟩
  have hrun := Runs.exec_invariant_nil
    (I := fun es (rt : Runtime w φ) => (∃ past, StoreInv past rt) ∧
      ((∃ ev ∈ es, ∃ s, ev.search = some (x, s)) ∨ rt.store.elems.lookup x = none))
    ?_ ⟨⟨_, hI.step (step_cases hstep)⟩, Or.inr hgone⟩ hmid
  · rcases hrun.2 with hissued | hfree
    · exact Or.inr hissued
    · exact Or.inl (step_missing (step_cases hstep') hfree)
  · rintro es s a ev s' ⟨⟨past, hpast⟩, hes⟩ hs
    refine ⟨⟨_, hpast.step (step_cases hs)⟩, ?_⟩
    rcases hes with ⟨ev', hmem, hev'⟩ | hfree
    · exact Or.inl ⟨ev', List.mem_append_left _ hmem, hev'⟩
    · rcases step_stays_free hpast (step_cases hs) hfree with hissued | hfree'
      · exact Or.inl ⟨ev, by simp, hissued⟩
      · exact Or.inr hfree'

theorem search_label {as : List (Action w φ)} {es : List (Event w)} {rt : Runtime w φ}
    (h : asyncRun w φ as = some (es, rt)) {ev : Event w} (hmem : ev ∈ es) {id : BitVec w}
    {before : AsyncStore w} (hev : ev.search = some (id, before)) :
    before.getFreeId = some id ∧ before.live id = false := by
  obtain ⟨pre, post, rfl⟩ := List.append_of_mem hmem
  obtain ⟨_, _, _, rt₁, rt₂, _, hstep, _⟩ := Runs.exec_split h
  rcases search_step (step_cases hstep) with ⟨hnone, _⟩ | ⟨id', hid, hfree, _⟩
  · rw [hnone] at hev
    contradiction
  · rw [hid] at hev
    cases hev
    obtain ⟨_, _, _, hlive, _⟩ := getFreeId_eq_some_iff.mp hfree
    exact ⟨hfree, hlive⟩

/-- A launch issues the first key after the last one that is not live; a key is issued again
only after every other key has been issued or passed over while live; until then a consumed key
is reported as not existing. -/
theorem keys_are_fresh (as : List (Action w φ)) (es : List (Event w)) (rt : Runtime w φ)
    (h : asyncRun w φ as = some (es, rt)) :
    (∀ s : AsyncStore w, (∃ y, s.live y = false) → ∃ d < 2^w,
      s.getFreeId = some (s.lastId+BitVec.ofNat w (d+1)) ∧
      s.live (s.lastId+BitVec.ofNat w (d+1)) = false ∧
      ∀ e < d, s.live (s.lastId+BitVec.ofNat w (e+1)) = true) ∧
    (∀ ev ∈ es, ∀ id before, ev.search = some (id, before) →
      before.getFreeId = some id ∧ before.live id = false) ∧
    (∀ pre first mid second post x s s', es = pre ++ first :: (mid ++ second :: post) →
      first.search = some (x, s) → second.search = some (x, s') →
      ∀ y ≠ x, ∃ ev ∈ mid ++ [second], ev.covers y) ∧
    ∀ pre mid post x fut fut' ret res,
      es = pre ++ .retrieved x fut (.ok (.finished, ret)) ::
        (mid ++ .retrieved x fut' res :: post) →
      res = .ok (.nonExistent, []) ∨ ∃ pre₁ first pre₂ mid₁ second mid₂ s s',
        pre = pre₁ ++ first :: pre₂ ∧ first.search = some (x, s) ∧
        mid = mid₁ ++ second :: mid₂ ∧ second.search = some (x, s') ∧
        ∀ y ≠ x, ∃ ev ∈ pre₂ ++ .retrieved x fut (.ok (.finished, ret)) :: mid₁ ++ [second],
          ev.covers y := by
  refine ⟨?_, fun ev hmem id before => search_label h hmem, ?_, ?_⟩
  · rintro s ⟨y, hy⟩
    obtain ⟨id, hid⟩ := getFreeId_isSome hy
    obtain ⟨d, hd, rfl, hfree, hbusy⟩ := getFreeId_eq_some_iff.mp hid
    exact ⟨d, hd, hid, hfree, hbusy⟩
  · rintro pre first mid second post x s s' rfl hfirst hsecond
    exact reissue_covers h hfirst hsecond
  · rintro pre mid post x fut fut' ret res rfl
    obtain ⟨⟨first, hpre, s, hfirst⟩, hres⟩ := consumed_until_reissued h
    refine hres.imp_right ?_
    rintro ⟨second, hmid, s', hsecond⟩
    obtain ⟨pre₁, pre₂, rfl⟩ := List.append_of_mem hpre
    obtain ⟨mid₁, mid₂, rfl⟩ := List.append_of_mem hmid
    refine ⟨pre₁, first, pre₂, mid₁, second, mid₂, s, s', rfl, hfirst, rfl, hsecond, ?_⟩
    intro y hy
    have hsplit : asyncRun w φ as = some (pre₁ ++ first :: ((pre₂ ++ .retrieved x fut
        (.ok (.finished, ret)) :: mid₁) ++ second :: (mid₂ ++ .retrieved x fut' res :: post)),
        rt) := by simpa using h
    exact reissue_covers hsplit hfirst hsecond y hy

/-- With two keys, the second launch takes the other one and the third starts over. -/
theorem keys_are_fresh_two :
    ∃ es rt, asyncRun 1 Unit [.arrive, .launch () none true, .compute 0 (.ok []),
        .housekeep 0 0, .publish 0, .retrieve 0, .retrieve 0, .arrive, .launch () none true,
        .compute 1 (.ok []), .housekeep 1 0, .publish 1, .retrieve 1, .arrive,
        .launch () none true] = some (es, rt) ∧
      ∀ ev ∈ es, ∀ id before, ev.search = some (id, before) →
        before.getFreeId = some id ∧ before.live id = false := by
  refine ⟨?es, ?rt, ?hrun, (keys_are_fresh _ ?es ?rt ?hrun).2.1⟩
  case hrun => rfl

end Virthttp
