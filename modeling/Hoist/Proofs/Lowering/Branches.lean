import Hoist.Proofs.Lowering.Closures
import Hoist.Proofs.Lowering.Grouped

/-!
# Effects of conditionals

A branch starts with nothing of its own and reads as a closure does. When both branches are lowered,
their lambdas are defined and the names they assigned are assigned again around them; a conditional
that returns assigns none.
-/

namespace Hoist.Lowering

open Hoist.Flat (Symbol Node Location Space Table Lambda)

/-- References to symbols: a single one is bare, several are in a tuple. -/
def packed (loc : Option Location) : List Symbol → Node
  | [a] => .ref loc a
  | syms => .tuple loc (syms.map (.ref loc))

/-- A state whose body has returned, if it does. -/
def State.returning (s : State) (returns : Bool) : State :=
  if returns then { s with body := { s.body with hasReturned := true } } else s

/-- The items of a conditional: what it yields is its value, or is bound to the names it assigns. -/
def Lower.bindResults (returns : Bool) (names : List String) (app : Node) (loc : Option Location) :
    Lower (List Item) := do
  if returns then return [.plain app]
  match names with
  | [] => return [.assign ⟨← issue "tmp" .local_, app, loc⟩]
  | [name] => return [← assign name app loc]
  | _ => assignAll names app loc

section Results

variable {s t : State} {names : List String} {loc : Option Location} {returns : Bool}

theorem mapM_currentIn_iff {frame : Nat} {ns : List Node} (hlt : frame < s.scopes.size) :
    Yields (names.mapM fun x => return Node.ref loc (← Lower.currentIn frame x loc)) s ns t ↔
      (∃ syms : List Symbol, names.map (s.scopes.sees frame) = syms.map some ∧
        ns = syms.map (.ref loc)) ∧ s = t := by
  induction names generalizing ns t with
  | nil =>
    simp only [List.mapM_nil, Yields.pure_iff, List.map_nil]
    constructor
    · rintro ⟨rfl, rfl⟩; exact ⟨⟨[], rfl, rfl⟩, rfl⟩
    · rintro ⟨⟨syms, hm, rfl⟩, rfl⟩
      obtain rfl := List.map_eq_nil_iff.1 hm.symm
      exact ⟨rfl, rfl⟩
  | cons x xs ih =>
    simp only [List.mapM_cons, Yields.bind_iff, Yields.pure_iff, currentIn_iff hlt]
    constructor
    · rintro ⟨_, _, ⟨a, _, ⟨ha, rfl⟩, rfl, rfl⟩, ms, _, h, rfl, rfl⟩
      obtain ⟨⟨syms, hm, rfl⟩, rfl⟩ := ih.1 h
      exact ⟨⟨a :: syms, by simp [ha, hm], rfl⟩, rfl⟩
    · rintro ⟨⟨syms, hm, rfl⟩, rfl⟩
      cases syms with
      | nil => simp at hm
      | cons a syms =>
        simp only [List.map_cons, List.cons.injEq] at hm
        exact ⟨_, s, ⟨a, s, ⟨hm.1, rfl⟩, rfl, rfl⟩, _, s, ih.2 ⟨⟨syms, hm.2, rfl⟩, rfl⟩, rfl, rfl⟩

theorem branchResult_iff {b : Lower.Branch} {r : Option Node} (hlt : b.body.frame < s.scopes.size) :
    Yields (Lower.branchResult b returns names loc) s r t ↔
      (if returns then r = none else ∃ syms : List Symbol,
        names.map (s.scopes.sees b.body.frame) = syms.map some ∧ r = some (packed loc syms)) ∧
      s = t := by
  cases returns with
  | true =>
    simp only [Lower.branchResult, if_true, Yields.pure_iff]
    exact and_congr_left fun _ => eq_comm
  | false =>
    simp only [Lower.branchResult, Bool.false_eq_true, if_false]
    split
    · rename_i x
      simp only [Yields.bind_iff, Yields.pure_iff, currentIn_iff hlt]
      constructor
      · rintro ⟨a, _, ⟨ha, rfl⟩, rfl, rfl⟩
        exact ⟨⟨[a], by simp [ha], rfl⟩, rfl⟩
      · rintro ⟨⟨syms, hm, rfl⟩, rfl⟩
        rcases syms with - | ⟨a, - | ⟨b, syms⟩⟩ <;> simp at hm
        exact ⟨a, s, ⟨hm, rfl⟩, rfl, rfl⟩
    · rename_i hne
      simp only [Yields.bind_iff, Yields.pure_iff, mapM_currentIn_iff hlt]
      constructor
      · rintro ⟨_, _, ⟨⟨syms, hm, rfl⟩, rfl⟩, rfl, rfl⟩
        refine ⟨⟨syms, hm, ?_⟩, rfl⟩
        rcases syms with - | ⟨a, - | ⟨b, syms⟩⟩
        · rfl
        · rcases names with - | ⟨x, - | ⟨y, names⟩⟩
          · simp at hm
          · exact absurd rfl (hne x)
          · simp at hm
        · rfl
      · rintro ⟨⟨syms, hm, rfl⟩, rfl⟩
        refine ⟨_, s, ⟨⟨syms, hm, rfl⟩, rfl⟩, ?_, rfl⟩
        rcases syms with - | ⟨a, - | ⟨b, syms⟩⟩
        · rfl
        · rcases names with - | ⟨x, - | ⟨y, names⟩⟩
          · simp at hm
          · exact absurd rfl (hne x)
          · simp at hm
        · rfl

theorem buildBranch_iff {env : Env} {b : Lower.Branch} {r : Option Node} {n : Node} :
    Yields (Lower.buildBranch env b r loc) s n t ↔
      ∃ code, group b.items r loc = .ok code ∧
        Yields (Lower.lift env b.body [] code (code.loc.or loc)) s n t := by
  simp only [Lower.buildBranch, Yields.bind_iff, Yields.ofExcept_iff]
  constructor
  · rintro ⟨code, _, ⟨hc, rfl⟩, h⟩; exact ⟨code, hc, h⟩
  · rintro ⟨code, hc, h⟩; exact ⟨code, s, ⟨hc, rfl⟩, h⟩

theorem returning_effect (hs : Valid s) (returns : Bool) :
    Effect [] [] [] returns s (s.returning returns) := by
  cases returns with
  | false => exact .nil hs
  | true =>
    exact
      { Effect.nil hs with
        valid := { hs with }
        advances := { Advances.refl s with body := ⟨rfl, rfl, rfl, rfl, rfl⟩, returned := fun _ => rfl }
        returned := by simp [State.returning] }

theorem bindResults_effect {app : Node} {items : List Item} (hs : Valid s)
    (h : Yields (Lower.bindResults returns names app loc) s items t) :
    Effect [] (if returns then [] else names) (if returns then [] else names) false s t := by
  cases returns with
  | true =>
    simp only [Lower.bindResults, if_true, Yields.pure_iff] at h
    obtain ⟨-, rfl⟩ := h
    exact .nil hs
  | false =>
    simp only [Lower.bindResults, Bool.false_eq_true, if_false] at h ⊢
    split at h
    · simp only [Yields.bind_iff, Yields.issue_iff, Yields.pure_iff] at h
      obtain ⟨_, _, ⟨-, rfl⟩, -, rfl⟩ := h
      exact (issued_reads hs).toEffect
    · simp only [Yields.bind_iff, Yields.pure_iff] at h
      obtain ⟨_, _, hx, -, rfl⟩ := h
      exact assign_effect hs hx
    · exact assignAll_effect hs h

theorem bindResults_ok (hs : Valid s) (returns : Bool) (names : List String) (app : Node)
    (loc : Option Location) : ∃ items t, Yields (Lower.bindResults returns names app loc) s items t := by
  cases returns with
  | true => exact ⟨_, s, Yields.pure_iff.2 ⟨rfl, rfl⟩⟩
  | false =>
    simp only [Lower.bindResults, Bool.false_eq_true, if_false]
    split
    · exact ⟨_, _, by
        simp only [Yields.bind_iff, Yields.issue_iff, Yields.pure_iff]
        exact ⟨_, _, ⟨rfl, rfl⟩, rfl, rfl⟩⟩
    · rename_i x
      obtain ⟨i, t, h⟩ := assign_ok hs x app loc
      exact ⟨[i], t, by
        simp only [Yields.bind_iff, Yields.pure_iff]
        exact ⟨i, t, h, rfl, rfl⟩⟩
    · exact assignAll_ok hs names app loc

end Results

section Lowered

variable {s t u : State} {env : Env} {reads declares assigns : List String} {returns : Bool}
  {b : Lower.Branch} {l : Lambda} {tag : String} {statements : Lower (List Item)}

/-- A branch that was lowered inside the body of a state, which has come behind it. -/
structure Lowered (reads assigns : List String) (returns : Bool) (b : Lower.Branch) (s : State) :
    Prop where
  reserved : Reserved b.body.dest s
  frame_lt : b.body.frame < s.scopes.size
  frame_ne : b.body.frame ≠ s.body.frame
  own : ∀ x ∈ b.body.assigned, (s.scopes.own b.body.frame x).isSome
  free : ∃ p, b.body.free.map (·.1) = noteAll [] (reads.filter p) ∧
    ∀ x, s.isFree x = true → p x = true
  assigned : b.body.assigned = noteAll [] assigns
  returned : b.body.hasReturned = returns

theorem Advances.isFree (h : Advances s t) (hs : Valid s) {x : String} (hx : t.isFree x = true) :
    s.isFree x = true := by
  have hown := h.own x
  unfold State.isFree at hx ⊢
  rw [h.outer hs] at hx
  cases hs : s.own x <;> cases ht : t.own x <;> simp_all

theorem Lowered.advance (h : Lowered reads assigns returns b s) (hs : Valid s)
    (ht : Advances s t) : Lowered reads assigns returns b t where
  reserved := h.reserved.advance ht
  frame_lt := lt_of_lt_of_le h.frame_lt ht.size
  frame_ne := by rw [ht.body.frame]; exact h.frame_ne
  own x hx := by
    have : t.scopes.own b.body.frame x = s.scopes.own b.body.frame x := by
      simp [Scopes.own, ht.frames _ h.frame_lt h.frame_ne]
    rw [this]
    exact h.own x hx
  free := by
    obtain ⟨p, hp, hfree⟩ := h.free
    exact ⟨p, hp, fun x hx => hfree x (ht.isFree hs hx)⟩
  assigned := h.assigned
  returned := h.returned

theorem Lowered.defining (h : Lowered reads assigns returns b s) (env : Env)
    (hne : l.ref.token ≠ b.body.dest.token) : Lowered reads assigns returns b (s.defining env l) :=
  { h with
    reserved :=
      { h.reserved with
        lambdas := by
          intro m hm
          rcases List.mem_append.1 hm with hm | hm
          · exact h.reserved.lambdas m hm
          · obtain rfl := List.mem_singleton.1 hm; exact hne }
    free := h.free }

/-- A body without parameters that is opened behind an issue starts in the state before it. -/
theorem Opens.starts_nil {dest : Symbol} {err : Option String} (hs : Valid s)
    (h : Opens (fun _ => none) dest true err s.issuing u) : Starts [] err s u :=
  have hi := (issued_reads hs).valid
  have hstarts := h.starts hi [] (by simp) (.nil (h.valid hi))
  { hstarts with visible := hstarts.visible }

/-- A branch is lowered when its statements are. -/
theorem lowerBranch_starts (hs : Valid s) (tag : String) (statements : Lower (List Item)) :
    ∃ v, Starts [] s.body.returnError s v ∧
      ∀ b t, Yields (Lower.lowerBranch tag statements) s b t ↔
        ∃ w, Yields statements v b.items w ∧ b.body = w.body ∧ w.resume s.body = t := by
  obtain ⟨u, ho, hiff⟩ := lowerBranch_iff hs tag statements
  exact ⟨u, ho.starts_nil hs, hiff⟩

theorem lowerBranch_reads (hs : Valid s)
    (hcode : Acts reads declares assigns returns statements)
    (h : Yields (Lower.lowerBranch tag statements) s b t) :
    Reads [] s t ∧ s.issued < b.body.dest.token ∧ Lowered reads assigns returns b t := by
  obtain ⟨u, ho, hiff⟩ := lowerBranch_iff hs tag statements
  obtain ⟨w, hw, hb, rfl⟩ := (hiff b t).1 h
  have hr := Reserved.issue hs (Flat.derived s.issued s.body.dest tag) rfl
  have hi := issued_reads hs
  have hv := ho.starts_nil hs
  have he := hcode hv.valid hv.topLevel hw
  have hback := ho.back hi.valid he.valid he.advances
  have hlt := hs.frame_lt
  have hframe : w.body.frame = s.scopes.size := by rw [he.advances.body.frame, ho.body]; rfl
  have hdest : w.body.dest = Flat.derived s.issued s.body.dest tag := by
    rw [he.advances.body.dest, ho.body]
  refine ⟨hi.trans hs hback, by rw [hb, hdest]; exact Nat.lt_succ_self _, ?_⟩
  exact
    { reserved := by rw [hb, hdest]; exact hr.advance hback.advances
      frame_lt := by rw [hb]; exact he.valid.frame_lt
      frame_ne := by rw [hb, hframe]; exact Nat.ne_of_gt hlt
      own := fun x hx => by rw [hb] at hx ⊢; exact he.valid.assigned_own x hx
      free := by
        refine ⟨u.isFree, by rw [hb, ← ho.freeNames]; exact he.free, fun x hx => ?_⟩
        rw [ho.isFree hi.valid]
        exact State.visible_of_isFree (hback.advances.isFree hi.valid hx)
      assigned := by rw [hb, he.assigned, ho.body]
      returned := by rw [hb, he.returned, ho.body]; rfl }

end Lowered

section Merging

variable {s₀ s t : State} {env : Env} {loc : Option Location} {T F b : Lower.Branch}
  {r rT rF aT aF reads assigns : List String} {bT bF returns : Bool}

theorem mergeBranches_iff {test : Node} {items : List Item} :
    Yields (Lower.mergeBranches env loc test T F) s items t ↔
    (F.body.hasReturned = T.body.hasReturned ∧ T.body.assigned.Perm F.body.assigned) ∧
    ∃ rT s₁ nT s₂ rF s₃ nF s₄,
      Yields (Lower.branchResult T T.body.hasReturned T.body.assigned loc)
        (s.returning T.body.hasReturned) rT s₁ ∧
      Yields (Lower.buildBranch env T rT loc) s₁ nT s₂ ∧
      Yields (Lower.branchResult F T.body.hasReturned T.body.assigned loc) s₂ rF s₃ ∧
      Yields (Lower.buildBranch env F rF loc) s₃ nF s₄ ∧
      Yields (Lower.bindResults T.body.hasReturned T.body.assigned (branchCall test nT nF loc) loc)
        s₄ items t := by
  unfold Lower.mergeBranches
  by_cases hr : F.body.hasReturned = T.body.hasReturned
  · by_cases hp : T.body.assigned.Perm F.body.assigned
    · have hp' : (!T.body.assigned.isPerm F.body.assigned) = false := by
        simp [List.isPerm_iff.2 hp]
      simp only [hp', hr, hp, and_self, true_and, Bool.false_eq_true, if_false]
      -- The only difference between the two kinds is whether the body is marked first.
      cases hT : T.body.hasReturned with
      | true =>
        simp only [bne_self_eq_false, Bool.false_eq_true, if_false, if_true, Yields.bind_iff,
          Yields.modifyBody_iff]
        constructor
        · rintro ⟨_, _, rfl, rT, s₁, h₁, nT, s₂, h₂, rF, s₃, h₃, nF, s₄, h₄, h₅⟩
          exact ⟨rT, s₁, nT, s₂, rF, s₃, nF, s₄, h₁, h₂, h₃, h₄, h₅⟩
        · rintro ⟨rT, s₁, nT, s₂, rF, s₃, nF, s₄, h₁, h₂, h₃, h₄, h₅⟩
          exact ⟨⟨⟩, _, rfl, rT, s₁, h₁, nT, s₂, h₂, rF, s₃, h₃, nF, s₄, h₄, h₅⟩
      | false =>
        simp only [bne_self_eq_false, Bool.false_eq_true, if_false, Yields.bind_iff]
        constructor
        · rintro ⟨rT, s₁, h₁, nT, s₂, h₂, rF, s₃, h₃, nF, s₄, h₄, h₅⟩
          exact ⟨rT, s₁, nT, s₂, rF, s₃, nF, s₄, h₁, h₂, h₃, h₄, h₅⟩
        · rintro ⟨rT, s₁, nT, s₂, rF, s₃, nF, s₄, h₁, h₂, h₃, h₄, h₅⟩
          exact ⟨rT, s₁, h₁, nT, s₂, h₂, rF, s₃, h₃, nF, s₄, h₄, h₅⟩
    · have hp' : (!T.body.assigned.isPerm F.body.assigned) = true := by
        rw [Bool.not_eq_true', Bool.eq_false_iff, Ne, List.isPerm_iff]
        exact hp
      simp [hp, hp']
  · have hr' : (T.body.hasReturned != F.body.hasReturned) = true := by
      simp [Ne.symm hr]
    simp [hr, hr']
/-- Up to the definition of its lambda, a branch that is built reads what its statements read. -/
theorem buildBranch_reads {result : Option Node} {n : Node} (hs : Valid s)
    (hb : Lowered reads assigns returns b s) (h : Yields (Lower.buildBranch env b result loc) s n t) :
    ∃ u l, Reads reads s u ∧ l.ref = b.body.dest ∧ Reserved b.body.dest u ∧
      u.defining env l = t := by
  obtain ⟨code, -, hlift⟩ := buildBranch_iff.1 h
  obtain ⟨u, hu, hres, rfl⟩ := lift_reads hs hb.reserved hlift
  obtain ⟨p, hp, hfree⟩ := hb.free
  exact ⟨u, _, hu.of_inner hp hfree, rfl, hres, rfl⟩

theorem mergeBranches_effect {test : Node} {items : List Item} (hs₀ : Valid s₀) (h₀ : Reads r s₀ s)
    (hT : Lowered rT aT bT T s) (hF : Lowered rF aF bF F s) (hlT : s₀.issued < T.body.dest.token)
    (hlF : s₀.issued < F.body.dest.token) (hne : T.body.dest.token ≠ F.body.dest.token)
    (h : Yields (Lower.mergeBranches env loc test T F) s items t) :
    Effect (r ++ rT ++ rF) (if bT then [] else aT) (if bT then [] else aT) bT s₀ t := by
  obtain ⟨⟨hret, hperm⟩, result, s₁, nT, s₂, result', s₃, nF, s₄, hr, hbT, hr', hbF, hend⟩ :=
    mergeBranches_iff.1 h
  rw [hT.returned] at hr hr' hend
  have hre := returning_effect h₀.valid bT
  have hT₁ := hT.advance h₀.valid hre.advances
  have hF₁ := hF.advance h₀.valid hre.advances
  obtain ⟨-, rfl⟩ := (branchResult_iff hT₁.frame_lt).1 hr
  -- The true branch is defined first, then the false one.
  obtain ⟨u, l, hu, hl, hres, rfl⟩ := buildBranch_reads hre.valid hT₁ hbT
  have e₁ := ((h₀.toEffect.trans hs₀ hre).thenReads hs₀ hu).defining (l := l) env
    (hl ▸ hres) (hl ▸ hlT)
  have hF₂ := (hF₁.advance hre.valid hu.advances).defining (l := l) env (hl ▸ hne)
  obtain ⟨-, rfl⟩ := (branchResult_iff hF₂.frame_lt).1 hr'
  obtain ⟨u', l', hu', hl', hres', rfl⟩ := buildBranch_reads e₁.valid hF₂ hbF
  have e₂ := (e₁.thenReads hs₀ hu').defining (l := l') env (hl' ▸ hres') (hl' ▸ hlF)
  have e₃ := (e₂.trans hs₀ (bindResults_effect e₂.valid hend))
  have hassigned : ∀ x, x ∈ T.body.assigned ↔ x ∈ aT := by rw [hT.assigned]; simp
  cases bT with
  | true => simpa [List.filter_eq_self.2] using e₃
  | false =>
    refine (show Effect (r ++ rT ++ rF) T.body.assigned T.body.assigned false s₀ t by
      simpa [List.filter_eq_self.2] using e₃).congr hassigned fun acc => ?_
    rw [hT.assigned]
    exact noteAll_dedup

/-- The values that a branch ends in are at hand: it bound them itself. -/
theorem branchResult_ok (loc : Option Location) (names : List String)
    (hb : Lowered reads assigns bT b s)
    (hnames : ∀ x ∈ names, x ∈ b.body.assigned) (hend : returns = true → endsPlain b.items = true) :
    ∃ result code, Yields (Lower.branchResult b returns names loc) s result s ∧
      group b.items result loc = .ok code := by
  cases returns with
  | true =>
    obtain ⟨code, hcode⟩ := (group_none_iff b.items loc).2 (hend rfl)
    exact ⟨none, code, (branchResult_iff hb.frame_lt).2 ⟨rfl, rfl⟩, hcode⟩
  | false =>
    obtain ⟨syms, hsyms⟩ : ∃ syms : List Symbol,
        names.map (s.scopes.sees b.body.frame) = syms.map some := by
      refine exists_map_some_iff.2 fun x hx => ?_
      have := hb.own x (hnames x hx)
      rw [Scopes.sees_eq]
      cases ho : s.scopes.own b.body.frame x <;> simp_all
    obtain ⟨code, hcode⟩ := group_some b.items (packed loc syms) loc
    exact ⟨_, code, (branchResult_iff hb.frame_lt).2 ⟨⟨syms, hsyms, rfl⟩, rfl⟩, hcode⟩

theorem mergeBranches_ok (hs : Valid s) (hT : Lowered rT aT bT T s) (hF : Lowered rF aF bF F s)
    (hne : T.body.dest.token ≠ F.body.dest.token)
    (hendT : bT = true → endsPlain T.items = true) (hendF : bF = true → endsPlain F.items = true)
    (env : Env) (loc : Option Location) (test : Node) :
    (∃ items t, Yields (Lower.mergeBranches env loc test T F) s items t) ↔
      bF = bT ∧ ∀ x, x ∈ aT ↔ x ∈ aF := by
  rw [← perm_noteAll_iff, ← hT.assigned, ← hF.assigned]
  constructor
  · rintro ⟨items, t, h⟩
    obtain ⟨⟨hret, hperm⟩, -⟩ := mergeBranches_iff.1 h
    exact ⟨by rw [← hT.returned, ← hF.returned, hret], hperm⟩
  · rintro ⟨rfl, hperm⟩
    have hre := returning_effect hs bF
    have hT₁ := hT.advance hs hre.advances
    have hF₁ := hF.advance hs hre.advances
    obtain ⟨result, code, hr, hcode⟩ := branchResult_ok loc T.body.assigned hT₁
      (fun x hx => hx) hendT
    obtain ⟨nT, s₂, hlift⟩ := lift_ok hre.valid hT₁.reserved env [] code (code.loc.or loc)
    have hbT := buildBranch_iff.2 ⟨code, hcode, hlift⟩
    obtain ⟨u, l, hu, hl, hres, rfl⟩ := buildBranch_reads hre.valid hT₁ hbT
    have hF₂ := (hF₁.advance hre.valid hu.advances).defining (l := l) env (hl ▸ hne)
    have hv := hu.valid.defining (l := l) env (hl ▸ hres)
    obtain ⟨result', code', hr', hcode'⟩ := branchResult_ok loc T.body.assigned
      hF₂ (fun x hx => hperm.mem_iff.1 hx) hendF
    obtain ⟨nF, s₄, hlift'⟩ := lift_ok hv hF₂.reserved env [] code' (code'.loc.or loc)
    have hbF := buildBranch_iff.2 ⟨code', hcode', hlift'⟩
    obtain ⟨u', l', hu', hl', hres', rfl⟩ := buildBranch_reads hv hF₂ hbF
    have hv' := hu'.valid.defining (l := l') env (hl' ▸ hres')
    obtain ⟨items, t, hend⟩ := bindResults_ok hv' bF T.body.assigned
      (branchCall test nT nF loc) loc
    refine ⟨items, t, mergeBranches_iff.2 ⟨⟨by rw [hT.returned, hF.returned], hperm⟩, ?_⟩⟩
    rw [hT.returned]
    exact ⟨result, _, nT, _, result', _, nF, _, hr, hbT, hr', hbF, hend⟩

end Merging

end Hoist.Lowering
