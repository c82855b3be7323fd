import Hoist.Proofs.Lowering.Effect

/-!
# Reads and assignments of names

A read of a name changes nothing, unless the name is free: then it is noted, and a pulling body also
binds it to a symbol of its own. An assignment binds a new symbol and notes the name.
-/

namespace Hoist.Lowering

open Hoist.Flat (Symbol Node Location Space Table Lambda)

section Fresh

variable {s t : State} {x : String} {a : Symbol} {sc : Scopes}

/-- A state with the next symbol issued and the scopes changed. -/
def State.withScopes (s : State) (sc : Scopes) : State :=
  { s with issued := s.issued + 1, scopes := sc }

theorem bindFresh_iff : Yields (Lower.bindFresh x) s a t ↔
    Flat.fresh s.issued x .local_ = a ∧
      ∃ sc, s.scopes.bind s.body.frame x a = .ok sc ∧ s.withScopes sc = t := by
  simp only [Lower.bindFresh, Yields.bind_iff, Yields.issue_iff, Yields.body_iff,
    Yields.bind_name_iff, Yields.pure_iff, State.withScopes]
  constructor
  · rintro ⟨_, _, ⟨rfl, rfl⟩, _, _, ⟨rfl, rfl⟩, _, _, ⟨sc, h, rfl⟩, rfl, rfl⟩
    exact ⟨rfl, sc, h, rfl⟩
  · rintro ⟨rfl, sc, h, rfl⟩
    exact ⟨_, _, ⟨rfl, rfl⟩, _, _, ⟨rfl, rfl⟩, ⟨⟩, _, ⟨sc, h, rfl⟩, rfl, rfl⟩

theorem bind_ok (hs : Valid s) (x : String) (a : Symbol) :
    ∃ sc, s.scopes.bind s.body.frame x a = .ok sc := by
  have := hs.frame_lt
  exact ⟨_, by rw [Scopes.bind, if_pos this]⟩

variable (h : s.scopes.bind s.body.frame x a = .ok sc)

include h

theorem withScopes_own (y : String) :
    (s.withScopes sc).own y = if y = x then some a else s.own y := by
  unfold State.own State.withScopes
  rw [Scopes.bind_own h]
  simp

theorem withScopes_outer (y : String) : (s.withScopes sc).outer y = s.outer y := by
  unfold State.outer State.withScopes
  exact Scopes.outside_congr (Scopes.bind_around h _)
    (fun i hi => Scopes.bind_frames_ne h (Nat.ne_of_lt hi)) y

theorem withScopes_own_isSome {y : String} (hy : (s.own y).isSome) :
    ((s.withScopes sc).own y).isSome := by
  rw [withScopes_own h]
  split <;> simp_all

theorem withScopes_advances : Advances s (s.withScopes sc) where
  issued := Nat.le_succ _
  size := Nat.le_of_eq (Scopes.bind_size h).symm
  frames i _ hne := Scopes.bind_frames_ne h hne
  around := Scopes.bind_around h _
  own _ hy := withScopes_own_isSome h hy
  lambdas := ⟨[], by simp [State.withScopes]⟩
  commits := rfl
  body := .refl _
  free := ⟨[], by simp [State.withScopes]⟩
  assigned := ⟨[], by simp [State.withScopes]⟩
  returned hr := hr

theorem withScopes_valid (hs : Valid s) (ha : a.token ≤ s.issued + 1) :
    Valid (s.withScopes sc) where
  frame_lt := by
    have := hs.frame_lt
    rw [State.withScopes, Scopes.bind_size h]
    exact this
  bound_le i y b hb := by
    simp only [State.withScopes] at hb ⊢
    rw [Scopes.bind_own h] at hb
    split at hb
    · cases hb; exact ha
    · exact le_trans (hs.bound_le i y b hb) (Nat.le_succ _)
  refs_le l hl := le_trans (hs.refs_le l hl) (Nat.le_succ _)
  refs_ne := hs.refs_ne
  free_le p hp := le_trans (hs.free_le p hp) (Nat.le_succ _)
  free_own hp p hm := withScopes_own_isSome h (hs.free_own hp p hm)
  free_outer hp p hm := by rw [withScopes_outer h]; exact hs.free_outer hp p hm
  free_nodup := hs.free_nodup
  free_ne := hs.free_ne
  free_refs := hs.free_refs
  assigned_nodup := hs.assigned_nodup
  assigned_own y hy := withScopes_own_isSome h (hs.assigned_own y hy)

/-- A binding that is no assignment, such as a parameter or a function, declares its name. -/
theorem withScopes_effect (hs : Valid s) (ha : a.token ≤ s.issued + 1) :
    Effect [] [x] [] false s (s.withScopes sc) where
  valid := withScopes_valid h hs ha
  advances := withScopes_advances h
  free := rfl
  own y := by
    have hfree : s.body.pulling = true → y ∈ s.freeNames → (s.own y).isSome := by
      intro hp hy
      obtain ⟨p, hm, rfl⟩ := List.mem_map.1 hy
      exact hs.free_own hp p hm
    have hn : (s.withScopes sc).freeNames = s.freeNames := rfl
    rw [withScopes_own h, hn]
    by_cases hy : y = x
    · simp [hy]
    · simp only [List.mem_singleton, hy, false_or]
      tauto
  assigned := rfl
  returned := by simp [State.withScopes]

end Fresh

/-- The binding of a name that is no assignment has the effect of a declaration. -/
theorem bindFresh_effect {s t : State} {x : String} {a : Symbol} (hs : Valid s)
    (h : Yields (Lower.bindFresh x) s a t) : Effect [] [x] [] false s t := by
  obtain ⟨rfl, sc, hsc, rfl⟩ := bindFresh_iff.1 h
  exact withScopes_effect hsc hs (by simp [Flat.fresh])

theorem bindFresh_ok {s : State} (hs : Valid s) (x : String) :
    ∃ a t, Yields (Lower.bindFresh x) s a t := by
  obtain ⟨sc, hsc⟩ := bind_ok hs x (Flat.fresh s.issued x .local_)
  exact ⟨_, _, bindFresh_iff.2 ⟨rfl, sc, hsc, rfl⟩⟩

section Reading

variable {s t : State} {x : String} {loc : Option Location} {n : Node}

/-- What a read of a name comes to. -/
inductive Read (x : String) (loc : Option Location) (s : State) : Node → State → Prop
  | unbound (hown : s.own x = none) (hout : s.outer x = none) :
      Read x loc s (.ref loc (.global x)) s
  | own {a : Symbol} (hown : s.own x = some a) : Read x loc s (.ref loc a) s
  | pulled {a : Symbol} {sc : Scopes} (hown : s.own x = none) (hout : (s.outer x).isSome)
      (hp : s.body.pulling = true) (ha : Flat.fresh s.issued x .local_ = a)
      (hsc : s.scopes.bind s.body.frame x a = .ok sc) :
      Read x loc s (.ref loc a)
        { s.withScopes sc with body := { s.body with free := s.body.free ++ [(x, a)] } }
  | known {a : Symbol} (hown : s.own x = none) (hout : s.outer x = some a)
      (hp : s.body.pulling = false) (hmem : (x, a) ∈ s.body.free) : Read x loc s (.ref loc a) s
  | noted {a : Symbol} (hown : s.own x = none) (hout : s.outer x = some a)
      (hp : s.body.pulling = false) (hmem : x ∉ s.freeNames) :
      Read x loc s (.ref loc a)
        { s with body := { s.body with free := s.body.free ++ [(x, a)] } }

theorem noteFree_of_not_mem {a : Symbol} (h : x ∉ s.freeNames) :
    Yields (Lower.noteFree x a) s ⟨⟩
      { s with body := { s.body with free := s.body.free ++ [(x, a)] } } := by
  have hany : (s.body.free.any fun p => p.1 == x) = false := by
    rw [List.any_eq_false]
    intro p hp he
    exact h (List.mem_map.2 ⟨p, hp, by simpa using he⟩)
  simp only [Lower.noteFree, Yields.modifyBody_iff, hany]
  rfl

/-- Noting a free variable again by the symbol it is known by changes nothing. -/
theorem noteFree_of_mem {a : Symbol} (hs : Valid s) (h : (x, a) ∈ s.body.free) :
    Yields (Lower.noteFree x a) s ⟨⟩ s := by
  have hany : (s.body.free.any fun p => p.1 == x) = true :=
    List.any_eq_true.2 ⟨_, h, by simp⟩
  have hmap : (s.body.free.map fun p => if p.1 == x then (x, a) else p) = s.body.free := by
    conv_rhs => rw [← List.map_id s.body.free]
    apply List.map_congr_left
    intro p hp
    by_cases hpx : p.1 = x
    · have hinj := List.inj_on_of_nodup_map hs.free_nodup hp h hpx
      simp [hinj]
    · simp [hpx]
  simp only [Lower.noteFree, Yields.modifyBody_iff, hany, hmap, if_true]

theorem find_iff (hs : Valid s) {r : Option Resolution} :
    Yields (Lower.find x) s r t ↔
      (match s.own x with
        | some a => some ⟨false, a⟩
        | none => (s.outer x).map (⟨true, ·⟩)) = r ∧ s = t := by
  simp only [Lower.find, Yields.bind_iff, Yields.get_iff, Yields.ofExcept_iff]
  constructor
  · rintro ⟨_, _, ⟨rfl, rfl⟩, h, rfl⟩
    rw [Scopes.find_eq _ hs.frame_lt, Scopes.search_false] at h
    exact ⟨Except.ok.inj h, rfl⟩
  · rintro ⟨rfl, rfl⟩
    refine ⟨s, s, ⟨rfl, rfl⟩, ?_, rfl⟩
    rw [Scopes.find_eq _ hs.frame_lt, Scopes.search_false]
    rfl

theorem readName_ok (hs : Valid s) (x : String) (loc : Option Location) :
    ∃ n t, Yields (Lower.readName x loc) s n t ∧ Read x loc s n t := by
  have hfind := (find_iff hs (x := x) (t := s)).2 ⟨rfl, rfl⟩
  cases hown : s.own x with
  | some a =>
    simp only [hown] at hfind
    exact ⟨_, _, by simp only [Lower.readName, Yields.bind_iff]
                    exact ⟨_, _, hfind, Yields.pure_iff.2 ⟨rfl, rfl⟩⟩, .own hown⟩
  | none =>
    cases hout : s.outer x with
    | none =>
      simp only [hown, hout, Option.map_none] at hfind
      exact ⟨_, _, by simp only [Lower.readName, Yields.bind_iff]
                      exact ⟨_, _, hfind, Yields.pure_iff.2 ⟨rfl, rfl⟩⟩, .unbound hown hout⟩
    | some a =>
      simp only [hown, hout, Option.map_some] at hfind
      cases hp : s.body.pulling with
      | true =>
        obtain ⟨sc, hsc⟩ := bind_ok hs x (Flat.fresh s.issued x .local_)
        have hnot : x ∉ s.freeNames := by
          intro hm
          obtain ⟨p, hmem, rfl⟩ := List.mem_map.1 hm
          have := hs.free_own hp p hmem
          simp [hown] at this
        refine ⟨_, _, ?_, .pulled hown (by simp [hout]) hp rfl hsc⟩
        simp only [Lower.readName, Yields.bind_iff]
        refine ⟨_, _, hfind, ?_⟩
        simp only [Yields.bind_iff]
        refine ⟨s.body, s, Yields.body_iff.2 ⟨rfl, rfl⟩, ?_⟩
        rw [if_pos hp]
        simp only [Yields.bind_iff]
        refine ⟨_, _, bindFresh_iff.2 ⟨rfl, sc, hsc, rfl⟩, ⟨⟩, _,
          noteFree_of_not_mem (s := s.withScopes sc) hnot, Yields.pure_iff.2 ⟨rfl, rfl⟩⟩
      | false =>
        have hread : ∀ t, Yields (Lower.noteFree x a) s ⟨⟩ t →
            Yields (Lower.readName x loc) s (.ref loc a) t := by
          intro t ht
          simp only [Lower.readName, Yields.bind_iff]
          refine ⟨_, _, hfind, ?_⟩
          simp only [Yields.bind_iff]
          refine ⟨s.body, s, Yields.body_iff.2 ⟨rfl, rfl⟩, ?_⟩
          simp only [hp, Bool.false_eq_true, if_false, Yields.bind_iff]
          exact ⟨a, s, Yields.pure_iff.2 ⟨rfl, rfl⟩, ⟨⟩, t, ht, Yields.pure_iff.2 ⟨rfl, rfl⟩⟩
        by_cases hm : x ∈ s.freeNames
        · obtain ⟨p, hpm, rfl⟩ := List.mem_map.1 hm
          have ha := hs.free_outer hp p hpm
          rw [hout] at ha
          cases ha
          exact ⟨_, _, hread s (noteFree_of_mem hs hpm), .known hown hout hp hpm⟩
        · exact ⟨_, _, hread _ (noteFree_of_not_mem hm), .noted hown hout hp hm⟩

theorem read_of_readName (hs : Valid s) (h : Yields (Lower.readName x loc) s n t) :
    Read x loc s n t := by
  obtain ⟨n', t', h', hr⟩ := readName_ok hs x loc
  obtain ⟨rfl, rfl⟩ := h.unique h'
  exact hr

/-- A read that notes nothing new leaves the state alone. -/
theorem Reads.idle (hs : Valid s) (h : s.isFree x = true → x ∈ s.freeNames) : Reads [x] s s :=
  { Reads.refl hs with
    free := by
      symm
      apply noteAll_of_subset
      intro y hy
      obtain ⟨hy, hf⟩ := List.mem_filter.1 hy
      obtain rfl := List.mem_singleton.1 hy
      exact h hf }

/-- The state after a free name was noted. -/
def State.noted (s : State) (x : String) (a : Symbol) : State :=
  { s with body := { s.body with free := s.body.free ++ [(x, a)] } }

theorem noted_freeNames {a : Symbol} : (s.noted x a).freeNames = s.freeNames ++ [x] := by
  simp [State.noted, State.freeNames]

theorem noted_advances {a : Symbol} (ha : s.body.pulling = true → s.issued < a.token) :
    Advances s (s.noted x a) :=
  { Advances.refl s with
    body := ⟨rfl, rfl, rfl, rfl, rfl⟩
    free := ⟨[(x, a)], rfl, by simpa using ha⟩ }

theorem noted_reads {a : Symbol} (hs : Valid s) (hown : s.own x = none)
    (hout : s.outer x = some a) (hp : s.body.pulling = false) (hmem : x ∉ s.freeNames)
    (ha : a.token ≤ s.issued) : Reads [x] s (s.noted x a) where
  valid :=
    { hs with
      free_le := by
        intro p hpm
        rcases List.mem_append.1 hpm with hpm | hpm
        · exact hs.free_le p hpm
        · obtain rfl := List.mem_singleton.1 hpm; exact ha
      free_own := by intro h; rw [State.noted, hp] at h; cases h
      free_outer := by
        intro _ p hpm
        rcases List.mem_append.1 hpm with hpm | hpm
        · exact hs.free_outer hp p hpm
        · obtain rfl := List.mem_singleton.1 hpm; exact hout
      free_nodup := by
        rw [noted_freeNames, ← note_of_not_mem hmem]
        exact nodup_note hs.free_nodup
      free_ne := by intro h; rw [State.noted, hp] at h; cases h
      free_refs := by intro h; rw [State.noted, hp] at h; cases h }
  advances := noted_advances (by simp [hp])
  free := by
    have hf : s.isFree x = true := by simp [State.isFree, hown, hout]
    rw [noted_freeNames, ← note_of_not_mem hmem]
    simp [hf]
  own y := by
    have : s.body.pulling ≠ true := by simp [hp]
    have hno : (s.noted x a).own y = s.own y := rfl
    rw [hno]
    simp [this]
  assigned := rfl
  returned := by simp [State.noted]
  pulled y b hb := .inl hb

/-- What is seen from outside was issued before. -/
theorem Valid.outer_le {a : Symbol} (hs : Valid s) (h : s.outer x = some a) :
    a.token ≤ s.issued := by
  -- The symbol is the own binding of some frame further out.
  have hsees : ∀ i, s.scopes.sees i x = some a → a.token ≤ s.issued := by
    intro i
    induction i using Nat.strongRecOn with
    | ind i ih =>
      intro hi
      rw [Scopes.sees_eq] at hi
      cases ho : s.scopes.own i x with
      | some b =>
        rw [ho] at hi
        cases hi
        exact hs.bound_le i x a ho
      | none =>
        rw [ho, Option.none_or] at hi
        unfold Scopes.outside at hi
        cases hq : s.scopes.around i with
        | none => simp [hq] at hi
        | some q => rw [hq] at hi; exact ih q (s.scopes.around_lt hq) hi
  unfold State.outer Scopes.outside at h
  cases hq : s.scopes.around s.body.frame with
  | none => simp [hq] at h
  | some q => rw [hq] at h; exact hsees q h

section Pulled

variable {a : Symbol} {sc : Scopes}
  (hs : Valid s) (hown : s.own x = none) (hout : (s.outer x).isSome)
  (hp : s.body.pulling = true) (ha : a.token = s.issued + 1)
  (hsc : s.scopes.bind s.body.frame x a = .ok sc)

include hs hown hp in
theorem not_mem_freeNames_of_pulling : x ∉ s.freeNames := by
  intro hm
  obtain ⟨p, hmem, rfl⟩ := List.mem_map.1 hm
  have := hs.free_own hp p hmem
  simp [hown] at this

include hsc in
theorem pulled_own (y : String) :
    ((s.withScopes sc).noted x a).own y = if y = x then some a else s.own y :=
  withScopes_own hsc y

include hs hown hp ha hsc in
theorem pulled_valid : Valid ((s.withScopes sc).noted x a) :=
  have hv := withScopes_valid hsc hs (by omega)
  { hv with
    free_le := by
      intro p hpm
      rcases List.mem_append.1 hpm with hpm | hpm
      · exact hv.free_le p hpm
      · obtain rfl := List.mem_singleton.1 hpm
        exact Nat.le_of_eq ha
    free_own := by
      intro _ p hpm
      rcases List.mem_append.1 hpm with hpm | hpm
      · exact hv.free_own hp p hpm
      · obtain rfl := List.mem_singleton.1 hpm
        simp [pulled_own hsc]
    free_outer := by
      intro h
      rw [State.noted, State.withScopes, hp] at h
      cases h
    free_nodup := by
      have hnot := not_mem_freeNames_of_pulling hs hown hp
      have hn : (s.withScopes sc).freeNames = s.freeNames := rfl
      rw [noted_freeNames, hn, ← note_of_not_mem hnot]
      exact nodup_note hs.free_nodup
    free_ne := by
      intro _
      refine List.pairwise_append.2 ⟨hs.free_ne hp, by simp, fun p hpm q hq => ?_⟩
      obtain rfl := List.mem_singleton.1 hq
      have := hs.free_le p hpm
      simp only
      omega
    free_refs := by
      intro _ p hpm
      rcases List.mem_append.1 hpm with hpm | hpm
      · exact hv.free_refs hp p hpm
      · obtain rfl := List.mem_singleton.1 hpm
        refine ⟨by simp [Symbol.isGenerated, ha], fun l hl => ?_⟩
        have := hs.refs_le l hl
        simp only
        omega }

include hs hown hout hp ha hsc in
theorem pulled_reads : Reads [x] s ((s.withScopes sc).noted x a) where
  valid := pulled_valid hs hown hp ha hsc
  advances :=
    { withScopes_advances hsc with
      body := ⟨rfl, rfl, rfl, rfl, rfl⟩
      free := ⟨[(x, a)], rfl, by simp; omega⟩ }
  free := by
    have hf : s.isFree x = true := by simp [State.isFree, hown, hout]
    have hnot := not_mem_freeNames_of_pulling hs hown hp
    rw [noted_freeNames]
    simp only [List.filter_cons, hf, if_true, List.filter_nil, noteAll_cons, noteAll_nil]
    rw [note_of_not_mem hnot]
    rfl
  own y := by
    have hfree : y ∈ s.freeNames → (s.own y).isSome := by
      intro hy
      obtain ⟨p, hm, rfl⟩ := List.mem_map.1 hy
      exact hs.free_own hp p hm
    have hn : (s.withScopes sc).freeNames = s.freeNames := rfl
    rw [pulled_own hsc, noted_freeNames, hn]
    by_cases hy : y = x
    · simp [hy, hp]
    · simp only [List.mem_append, List.mem_singleton, hy, List.not_mem_nil, if_false]
      tauto
  assigned := rfl
  returned := by simp [State.noted, State.withScopes]
  pulled y b hb := by
    rw [pulled_own hsc] at hb
    split at hb
    · rename_i hy
      cases hb
      exact .inr ⟨hy ▸ hown, by simp [State.noted, hy]⟩
    · exact .inl hb

end Pulled

theorem Read.reads (hs : Valid s) (h : Read x loc s n t) : Reads [x] s t := by
  cases h with
  | unbound hown hout => exact .idle hs (by simp [State.isFree, hout])
  | own hown => exact .idle hs (by simp [State.isFree, hown])
  | known hown hout hp hmem => exact .idle hs fun _ => List.mem_map.2 ⟨_, hmem, rfl⟩
  | noted hown hout hp hmem => exact noted_reads hs hown hout hp hmem (hs.outer_le hout)
  | pulled hown hout hp ha hsc =>
    subst ha
    exact pulled_reads hs hown hout hp rfl hsc

theorem readName_reads (hs : Valid s) (h : Yields (Lower.readName x loc) s n t) :
    Reads [x] s t := (read_of_readName hs h).reads hs

theorem readNames_reads {xs : List String} {ns : List Node} (hs : Valid s)
    (h : Yields (Lower.readNames loc xs) s ns t) : Reads xs s t := by
  induction xs generalizing s ns with
  | nil =>
    obtain ⟨-, rfl⟩ := Yields.pure_iff.1 h
    exact .refl hs
  | cons x xs ih =>
    simp only [Lower.readNames, Yields.bind_iff, Yields.pure_iff] at h
    obtain ⟨n, u, hx, ns, v, hxs, -, rfl⟩ := h
    have h₁ := readName_reads hs hx
    exact h₁.trans hs (ih h₁.valid hxs)

theorem readNames_ok (hs : Valid s) (loc : Option Location) (xs : List String) :
    ∃ ns t, Yields (Lower.readNames loc xs) s ns t := by
  induction xs generalizing s with
  | nil => exact ⟨[], s, Yields.pure_iff.2 ⟨rfl, rfl⟩⟩
  | cons x xs ih =>
    obtain ⟨n, u, hx, hr⟩ := readName_ok hs x loc
    obtain ⟨ns, t, hxs⟩ := ih (hr.reads hs).valid
    refine ⟨n :: ns, t, ?_⟩
    simp only [Lower.readNames, Yields.bind_iff, Yields.pure_iff]
    exact ⟨n, u, hx, ns, t, hxs, rfl, rfl⟩

end Reading

section Assigning

variable {s t : State} {x : String} {loc : Option Location} {value : Node}

/-- A name noted as assigned. -/
def State.assigning (s : State) (x : String) : State :=
  { s with body := { s.body with assigned := note s.body.assigned x } }

theorem assign_iff {i : Item} : Yields (Lower.assign x value loc) s i t ↔
    ∃ a sc, Flat.fresh s.issued x .local_ = a ∧ s.scopes.bind s.body.frame x a = .ok sc ∧
      i = .assign ⟨a, value, loc⟩ ∧ (s.withScopes sc).assigning x = t := by
  have hnote : ∀ b : Body, (if b.assigned.contains x then b
      else { b with assigned := b.assigned ++ [x] }) = { b with assigned := note b.assigned x } := by
    intro b
    unfold note
    split <;> rfl
  simp only [Lower.assign, Yields.bind_iff, bindFresh_iff, Yields.modifyBody_iff, Yields.pure_iff,
    hnote]
  constructor
  · rintro ⟨a, _, ⟨ha, sc, hsc, rfl⟩, _, _, rfl, rfl, rfl⟩
    exact ⟨a, sc, ha, hsc, rfl, rfl⟩
  · rintro ⟨a, sc, ha, hsc, rfl, rfl⟩
    exact ⟨a, _, ⟨ha, sc, hsc, rfl⟩, ⟨⟩, _, rfl, rfl, rfl⟩

theorem assigning_effect {a : Symbol} {sc : Scopes} (hs : Valid s)
    (hsc : s.scopes.bind s.body.frame x a = .ok sc) (ha : a.token ≤ s.issued + 1) :
    Effect [] [x] [x] false s ((s.withScopes sc).assigning x) where
  valid :=
    { withScopes_valid hsc hs ha with
      assigned_nodup := nodup_note hs.assigned_nodup
      assigned_own := by
        intro y hy
        have hown : ((s.withScopes sc).assigning x).own y = if y = x then some a else s.own y :=
          withScopes_own hsc y
        rw [hown]
        rcases mem_note.1 hy with hy | rfl
        · have := hs.assigned_own y hy
          split <;> simp_all
        · simp }
  advances :=
    { withScopes_advances hsc with
      body := ⟨rfl, rfl, rfl, rfl, rfl⟩
      assigned := noteAll_eq_append (k := s.body.assigned) (l := [x]) }
  free := rfl
  own := (withScopes_effect hsc hs ha).own
  assigned := rfl
  returned := by simp [State.assigning, State.withScopes]

theorem assign_effect {i : Item} (hs : Valid s) (h : Yields (Lower.assign x value loc) s i t) :
    Effect [] [x] [x] false s t := by
  obtain ⟨a, sc, rfl, hsc, -, rfl⟩ := assign_iff.1 h
  exact assigning_effect hs hsc (by simp [Flat.fresh])

theorem assign_ok (hs : Valid s) (x : String) (value : Node) (loc : Option Location) :
    ∃ i t, Yields (Lower.assign x value loc) s i t := by
  obtain ⟨sc, hsc⟩ := bind_ok hs x (Flat.fresh s.issued x .local_)
  exact ⟨_, _, assign_iff.2 ⟨_, sc, rfl, hsc, rfl, rfl⟩⟩

/-- A state with one more symbol issued. -/
def State.issuing (s : State) : State := { s with issued := s.issued + 1 }

/-- Issuing a symbol changes nothing else. -/
theorem issued_reads (hs : Valid s) : Reads [] s s.issuing where
  valid :=
    { hs with
      bound_le := fun i y b hb => le_trans (hs.bound_le i y b hb) (Nat.le_succ _)
      refs_le := fun l hl => le_trans (hs.refs_le l hl) (Nat.le_succ _)
      free_le := fun p hp => le_trans (hs.free_le p hp) (Nat.le_succ _) }
  advances := { Advances.refl s with issued := Nat.le_succ _ }
  free := rfl
  own := (Reads.refl hs).own
  assigned := rfl
  returned := by simp [State.issuing]
  pulled _ _ h := .inl h

theorem Effect.nil (hs : Valid s) : Effect [] [] [] false s s := (Reads.refl hs).toEffect

theorem assignItems_effect {tuple : Symbol} {i : Nat} {xs : List String} {is : List Item}
    (hs : Valid s) (h : Yields (Lower.assignItems tuple loc i xs) s is t) :
    Effect [] xs xs false s t := by
  induction xs generalizing s i is with
  | nil =>
    obtain ⟨-, rfl⟩ := Yields.pure_iff.1 h
    exact .nil hs
  | cons x xs ih =>
    simp only [Lower.assignItems, Yields.bind_iff, Yields.pure_iff] at h
    obtain ⟨_, u, hx, _, v, hxs, -, rfl⟩ := h
    have h₁ := assign_effect hs hx
    exact h₁.trans hs (ih h₁.valid hxs)

theorem assignAll_effect {xs : List String} {is : List Item} (hs : Valid s)
    (h : Yields (Lower.assignAll xs value loc) s is t) : Effect [] xs xs false s t := by
  simp only [Lower.assignAll, Yields.bind_iff, Yields.issue_iff, Yields.pure_iff] at h
  obtain ⟨_, _, ⟨rfl, rfl⟩, is, _, h, -, rfl⟩ := h
  have h₁ := issued_reads hs
  exact h₁.toEffect.trans hs (assignItems_effect h₁.valid h)

theorem assignItems_ok (hs : Valid s) (tuple : Symbol) (loc : Option Location) (i : Nat)
    (xs : List String) : ∃ is t, Yields (Lower.assignItems tuple loc i xs) s is t := by
  induction xs generalizing s i with
  | nil => exact ⟨[], s, Yields.pure_iff.2 ⟨rfl, rfl⟩⟩
  | cons x xs ih =>
    obtain ⟨item, u, hx⟩ := assign_ok hs x (Lower.projection tuple i loc) loc
    obtain ⟨is, t, hxs⟩ := ih (assign_effect hs hx).valid (i + 1)
    refine ⟨item :: is, t, ?_⟩
    simp only [Lower.assignItems, Yields.bind_iff, Yields.pure_iff]
    exact ⟨item, u, hx, is, t, hxs, rfl, rfl⟩

theorem assignAll_ok (hs : Valid s) (xs : List String) (value : Node) (loc : Option Location) :
    ∃ is t, Yields (Lower.assignAll xs value loc) s is t := by
  obtain ⟨is, t, h⟩ := assignItems_ok (issued_reads hs).valid
    (Flat.fresh s.issued "tmp" .local_) loc 0 xs
  refine ⟨.assign ⟨Flat.fresh s.issued "tmp" .local_, value, loc⟩ :: is, t, ?_⟩
  simp only [Lower.assignAll, Yields.bind_iff, Yields.issue_iff, Yields.pure_iff]
  exact ⟨_, _, ⟨rfl, rfl⟩, is, t, h, rfl, rfl⟩

end Assigning

/-- All of some look-ups succeed when each one does. -/
theorem exists_map_some_iff {α β : Type} {f : α → Option β} {xs : List α} :
    (∃ ys : List β, xs.map f = ys.map some) ↔ ∀ x ∈ xs, (f x).isSome := by
  induction xs with
  | nil => exact ⟨fun _ _ h => absurd h List.not_mem_nil, fun _ => ⟨[], rfl⟩⟩
  | cons x xs ih =>
    constructor
    · rintro ⟨- | ⟨y, ys⟩, h⟩
      · cases h
      · simp only [List.map_cons, List.cons.injEq] at h
        simpa [h.1] using ih.1 ⟨ys, h.2⟩
    · intro h
      obtain ⟨ys, hys⟩ := ih.2 fun y hy => h y (List.mem_cons_of_mem _ hy)
      obtain ⟨y, hy⟩ := Option.isSome_iff_exists.1 (h x (by simp))
      exact ⟨y :: ys, by simp [hy, hys]⟩

section Current

variable {s t : State} {x : String} {loc : Option Location}

/-- The strict look-up of a name, as any frame sees it, finds what the frame sees. -/
theorem currentIn_iff {frame : Nat} {a : Symbol} (hlt : frame < s.scopes.size) :
    Yields (Lower.currentIn frame x loc) s a t ↔ s.scopes.sees frame x = some a ∧ s = t := by
  have hlook : ∀ r, s.scopes.lookup frame x loc = .ok r ↔ s.scopes.search x false frame = some r := by
    intro r
    unfold Scopes.lookup
    rw [Scopes.find_eq _ hlt]
    cases s.scopes.search x false frame <;> simp [bind, Except.bind]
  simp only [Lower.currentIn, Yields.bind_iff, Yields.get_iff, Yields.ofExcept_iff, Yields.pure_iff,
    Scopes.sees, Option.map_eq_some_iff]
  constructor
  · rintro ⟨_, _, ⟨rfl, rfl⟩, r, _, ⟨hr, rfl⟩, rfl, rfl⟩
    exact ⟨⟨r, (hlook r).1 hr, rfl⟩, rfl⟩
  · rintro ⟨⟨r, hr, rfl⟩, rfl⟩
    exact ⟨s, s, ⟨rfl, rfl⟩, r, s, ⟨(hlook r).2 hr, rfl⟩, rfl, rfl⟩

theorem current_iff {a : Symbol} (hs : Valid s) :
    Yields (Lower.current x loc) s a t ↔ s.sees x = some a ∧ s = t := by
  simp only [Lower.current, Yields.bind_iff, Yields.body_iff]
  constructor
  · rintro ⟨_, _, ⟨rfl, rfl⟩, h⟩
    exact (currentIn_iff hs.frame_lt).1 h
  · intro h
    exact ⟨_, s, ⟨rfl, rfl⟩, (currentIn_iff hs.frame_lt).2 h⟩

theorem currents_iff {xs : List String} {ns : List Node} (hs : Valid s) :
    Yields (Lower.currents loc xs) s ns t ↔
      (∃ syms : List Symbol, xs.map s.sees = syms.map some ∧ ns = syms.map (.ref loc)) ∧ s = t := by
  induction xs generalizing ns t with
  | nil =>
    simp only [Lower.currents, Yields.pure_iff, List.map_nil]
    constructor
    · rintro ⟨rfl, rfl⟩; exact ⟨⟨[], rfl, rfl⟩, rfl⟩
    · rintro ⟨⟨syms, hm, rfl⟩, rfl⟩
      obtain rfl := List.map_eq_nil_iff.1 hm.symm
      exact ⟨rfl, rfl⟩
  | cons x xs ih =>
    simp only [Lower.currents, Yields.bind_iff, Yields.pure_iff, current_iff hs]
    constructor
    · rintro ⟨a, _, ⟨ha, rfl⟩, ms, _, h, rfl, rfl⟩
      obtain ⟨⟨syms, hm, rfl⟩, rfl⟩ := ih.1 h
      exact ⟨⟨a :: syms, by simp [ha, hm], rfl⟩, rfl⟩
    · rintro ⟨⟨syms, hm, rfl⟩, rfl⟩
      cases syms with
      | nil => simp at hm
      | cons a syms =>
        simp only [List.map_cons, List.cons.injEq] at hm
        exact ⟨a, s, ⟨hm.1, rfl⟩, _, s, ih.2 ⟨⟨syms, hm.2, rfl⟩, rfl⟩, rfl, rfl⟩

end Current

end Hoist.Lowering
