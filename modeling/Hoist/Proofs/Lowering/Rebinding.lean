import Hoist.Proofs.Lowering.Statements

/-!
# What a step binds anew

A statement binds the names that it declares to new symbols, and leaves the other bindings of its frame
alone. So the last statement of a block that declares a name decides what the name is bound to behind
the block, and what a branch or a loop yields for a name is what such a statement bound there.
-/

namespace Hoist.Lowering

open Hoist.Flat (Symbol Node Location Table Lambda)
open Hoist.Surface (Expr Stmt Params Operator blockReads blockAssigns blockReturns blockDeclares
  blockTargets)

/-- A step that binds some names to new symbols, and leaves the other bindings of its frame alone. -/
structure Rebinds (names : List String) (s t : State) : Prop where
  keeps : ∀ x a, x ∉ names → s.own x = some a → t.own x = some a
  renews : ∀ x ∈ names, ∃ a, t.own x = some a ∧ s.issued < a.token

namespace Rebinds

variable {names more : List String} {s t u : State} {r : List String}

theorem of_reads (h : Reads r s t) : Rebinds [] s t where
  keeps x a _ ha := by
    obtain ⟨b, hb⟩ := Option.isSome_iff_exists.1 (h.advances.own x (by simp [ha]))
    rcases h.pulled x b hb with ho | ⟨ho, -⟩
    · rw [hb, ← ha, ho]
    · rw [ha] at ho
      cases ho
  renews x hx := by cases hx

theorem trans (h : Rebinds names s t) (h' : Rebinds more t u) (hle : s.issued ≤ t.issued) :
    Rebinds (names ++ more) s u where
  keeps x a hx ha := by
    rw [List.mem_append, not_or] at hx
    exact h'.keeps x a hx.2 (h.keeps x a hx.1 ha)
  renews x hx := by
    by_cases hm : x ∈ more
    · obtain ⟨a, ha, hlt⟩ := h'.renews x hm
      exact ⟨a, ha, lt_of_le_of_lt hle hlt⟩
    · obtain ⟨a, ha, hlt⟩ := h.renews x ((List.mem_append.1 hx).resolve_right hm)
      exact ⟨a, h'.keeps x a hm ha, hlt⟩

/-- The definition of a lambda binds no name. -/
theorem defining {l : Lambda} (h : Rebinds names s t) (env : Env) :
    Rebinds names s (t.defining env l) := ⟨h.keeps, h.renews⟩

theorem returning (s : State) (returns : Bool) : Rebinds [] s (s.returning returns) where
  keeps x a _ ha := by cases returns <;> exact ha
  renews x hx := by cases hx

theorem of_own {x : String} {a : Symbol} (hlt : s.issued < a.token)
    (h : ∀ y, t.own y = if y = x then some a else s.own y) : Rebinds [x] s t where
  keeps y b hy hb := by rw [h, if_neg (by simpa using hy), hb]
  renews y hy := by
    obtain rfl := List.mem_singleton.1 hy
    exact ⟨a, by rw [h, if_pos rfl], hlt⟩

end Rebinds

section Assigning

variable {s t : State} {x : String} {value call : Node} {loc : Option Location} {a : Symbol}
  {xs : List String} {items : List Item} {tuple : Symbol} {k : Nat}

theorem bindFresh_rebinds (h : Yields (Lower.bindFresh x) s a t) : Rebinds [x] s t := by
  obtain ⟨rfl, sc, hsc, rfl⟩ := bindFresh_iff.1 h
  exact .of_own (Nat.lt_succ_self _) (withScopes_own hsc)

/-- Parameters that differ are bound each to the symbol at its place. -/
theorem bindFreshAll_own {syms : List Symbol} (h : Yields (Lower.bindFreshAll xs) s syms t) :
    Rebinds xs s t ∧ s.issued ≤ t.issued ∧ (xs.Nodup → ∀ (i : Nat) x, xs[i]? = some x →
      ∃ a, syms[i]? = some a ∧ t.own x = some a) := by
  induction xs generalizing s syms with
  | nil =>
    obtain ⟨-, rfl⟩ := Yields.pure_iff.1 h
    exact ⟨⟨fun _ _ _ h => h, by simp⟩, le_rfl, by simp⟩
  | cons x xs ih =>
    simp only [Lower.bindFreshAll, Yields.bind_iff, Yields.pure_iff] at h
    obtain ⟨a, u, hx, as, v, hxs, rfl, rfl⟩ := h
    have h₁ := bindFresh_rebinds hx
    obtain ⟨rfl, sc, hsc, rfl⟩ := bindFresh_iff.1 hx
    have hle : s.issued ≤ (s.withScopes sc).issued := Nat.le_succ _
    obtain ⟨hre, hle', hat⟩ := ih hxs
    refine ⟨h₁.trans hre hle, le_trans hle hle', fun hn i y hy => ?_⟩
    obtain ⟨hnot, hn⟩ := List.nodup_cons.1 hn
    cases i with
    | zero =>
      obtain rfl : x = y := by simpa using hy
      exact ⟨_, rfl, hre.keeps x _ hnot (by rw [withScopes_own hsc, if_pos rfl])⟩
    | succ i => exact hat hn i y hy

/-- What is bound in the frame is read by its symbol. -/
theorem readNames_own {ns : List Node} (hs : Valid s) (h : Yields (Lower.readNames loc xs) s ns t)
    {i : Nat} (hx : xs[i]? = some x) (ha : s.own x = some a) : ns[i]? = some (.ref loc a) := by
  induction xs generalizing s ns i with
  | nil => simp at hx
  | cons y xs ih =>
    simp only [Lower.readNames, Yields.bind_iff, Yields.pure_iff] at h
    obtain ⟨n, u, hy, ms, v, hxs, rfl, rfl⟩ := h
    have h₁ := readName_reads hs hy
    cases i with
    | zero =>
      obtain rfl : y = x := by simpa using hx
      cases read_of_readName hs hy <;> simp_all
    | succ i => exact ih h₁.valid hxs hx ((Rebinds.of_reads h₁).keeps x a List.not_mem_nil ha)

theorem assign_own {i : Item} (h : Yields (Lower.assign x value loc) s i t) :
    ∃ a, i = .assign ⟨a, value, loc⟩ ∧ s.issued < a.token ∧ s.issued ≤ t.issued ∧
      ∀ y, t.own y = if y = x then some a else s.own y := by
  obtain ⟨a, sc, rfl, hsc, rfl, rfl⟩ := assign_iff.1 h
  exact ⟨_, rfl, Nat.lt_succ_self _, Nat.le_succ _, withScopes_own hsc⟩

theorem assign_rebinds {i : Item} (h : Yields (Lower.assign x value loc) s i t) :
    Rebinds [x] s t := by
  obtain ⟨a, -, hlt, -, hown⟩ := assign_own h
  exact .of_own hlt hown

/-- Every name gets an item of the tuple, the one at its place. -/
theorem assignItems_own (h : Yields (Lower.assignItems tuple loc k xs) s items t) :
    Rebinds xs s t ∧ s.issued ≤ t.issued ∧ (xs.Nodup → ∀ (i : Nat) x, xs[i]? = some x →
      ∃ a, t.own x = some a ∧
        Item.assign ⟨a, Lower.projection tuple (k + i) loc, loc⟩ ∈ items) := by
  induction xs generalizing s k items with
  | nil =>
    obtain ⟨-, rfl⟩ := Yields.pure_iff.1 h
    exact ⟨⟨fun _ _ _ h => h, by simp⟩, le_rfl, by simp⟩
  | cons x xs ih =>
    simp only [Lower.assignItems, Yields.bind_iff, Yields.pure_iff] at h
    obtain ⟨item, u, hx, is, v, hxs, rfl, rfl⟩ := h
    obtain ⟨a, rfl, hlt, hle, hown⟩ := assign_own hx
    obtain ⟨hre, hle', hat⟩ := ih hxs
    refine ⟨(Rebinds.of_own hlt hown).trans hre hle, le_trans hle hle', fun hn i y hy => ?_⟩
    obtain ⟨hnot, hn⟩ := List.nodup_cons.1 hn
    cases i with
    | zero =>
      obtain rfl : x = y := by simpa using hy
      have ha : u.own x = some a := by rw [hown, if_pos rfl]
      exact ⟨a, hre.keeps x a hnot ha, by simp⟩
    | succ i =>
      obtain ⟨b, hb, hm⟩ := hat hn i y (by simpa using hy)
      rw [Nat.add_right_comm, Nat.add_assoc] at hm
      exact ⟨b, hb, List.mem_cons_of_mem _ hm⟩

/-- What a call gives to a variable, by the result that the called code ends in: the value of a symbol
that is the whole result, or is the item of the result that is projected. -/
inductive Receives (items : List Item) (call : Node) (a : Symbol) : Node → Symbol → Prop
  | whole {loc loc' : Option Location} {c : Symbol} (h : Item.assign ⟨a, call, loc⟩ ∈ items) :
      Receives items call a (.ref loc' c) c
  | item {tmp c : Symbol} {i : Nat} {loc loc' : Option Location} {syms : List Symbol}
      (htmp : Item.assign ⟨tmp, call, loc⟩ ∈ items)
      (h : Item.assign ⟨a, Lower.projection tmp i loc, loc⟩ ∈ items) (hi : syms[i]? = some c) :
      Receives items call a (.tuple loc' (syms.map (.ref loc'))) c

theorem assignAll_own (h : Yields (Lower.assignAll xs call loc) s items t) :
    Rebinds xs s t ∧ (xs.Nodup → ∀ (i : Nat) x, xs[i]? = some x → ∃ a, t.own x = some a ∧
      ∀ (loc' : Option Location) (syms : List Symbol) c, syms[i]? = some c →
        Receives items call a (.tuple loc' (syms.map (.ref loc'))) c) := by
  simp only [Lower.assignAll, Yields.bind_iff, Yields.issue_iff, Yields.pure_iff] at h
  obtain ⟨tmp, _, ⟨rfl, rfl⟩, is, v, h, rfl, rfl⟩ := h
  obtain ⟨hre, -, hat⟩ := assignItems_own h
  refine ⟨⟨hre.keeps, fun x hx => ?_⟩, fun hn i x hx => ?_⟩
  · obtain ⟨a, ha, hlt⟩ := hre.renews x hx
    exact ⟨a, ha, Nat.lt_of_succ_lt hlt⟩
  · obtain ⟨a, ha, hm⟩ := hat hn i x hx
    rw [Nat.zero_add] at hm
    exact ⟨a, ha, fun loc' syms c hc =>
      .item List.mem_cons_self (List.mem_cons_of_mem _ hm) hc⟩

theorem bindResults_own {returns : Bool}
    (h : Yields (Lower.bindResults returns xs call loc) s items t) :
    Rebinds (if returns then [] else xs) s t ∧ (returns = false → xs.Nodup →
      ∀ (i : Nat) x, xs[i]? = some x → ∃ a, t.own x = some a ∧
        ∀ (loc' : Option Location) (syms : List Symbol) c, syms.length = xs.length →
          syms[i]? = some c → Receives items call a (packed loc' syms) c) := by
  cases returns with
  | true =>
    simp only [Lower.bindResults, if_true, Yields.pure_iff] at h
    obtain ⟨-, rfl⟩ := h
    exact ⟨⟨fun _ _ _ h => h, by simp⟩, by simp⟩
  | false =>
    simp only [Lower.bindResults, Bool.false_eq_true, if_false] at h ⊢
    split at h
    · simp only [Yields.bind_iff, Yields.issue_iff, Yields.pure_iff] at h
      obtain ⟨_, _, ⟨-, rfl⟩, -, rfl⟩ := h
      exact ⟨⟨fun _ _ _ h => h, by simp⟩, by simp⟩
    · simp only [Yields.bind_iff, Yields.pure_iff] at h
      obtain ⟨_, _, hx, rfl, rfl⟩ := h
      obtain ⟨a, rfl, hlt, -, hown⟩ := assign_own hx
      refine ⟨.of_own hlt hown, fun _ _ i y hy => ?_⟩
      rw [List.getElem?_singleton] at hy
      split at hy
      · cases hy
        subst i
        refine ⟨a, by rw [hown, if_pos rfl], fun loc' syms c hlen hc => ?_⟩
        obtain ⟨b, rfl⟩ := List.length_eq_one_iff.1 hlen
        cases hc
        exact .whole List.mem_cons_self
      · cases hy
    · rename_i hone
      obtain ⟨hre, hat⟩ := assignAll_own h
      refine ⟨hre, fun _ hn i x hx => ?_⟩
      obtain ⟨a, ha, hreceives⟩ := hat hn i x hx
      refine ⟨a, ha, fun loc' syms c hlen hc => ?_⟩
      have hpacked : packed loc' syms = .tuple loc' (syms.map (.ref loc')) := by
        rcases syms with - | ⟨b, - | ⟨d, syms⟩⟩
        · rfl
        · obtain ⟨y, rfl⟩ := List.length_eq_one_iff.1 hlen.symm
          exact absurd rfl (hone y)
        · rfl
      exact hpacked ▸ hreceives loc' syms c hc

end Assigning

section Merging

variable {s t : State} {env : Env} {loc : Option Location} {T F b : Lower.Branch}
  {rT rF aT aF reads assigns names : List String} {bT bF returns : Bool} {r : Option Node}
  {n test : Node} {items : List Item}

/-- A branch that is built: the value of its lambda, whose code ends in the symbols that the frame of
the branch binds to some names, unless it returns. -/
structure Built (env : Env) (loc : Option Location) (b : Lower.Branch) (returns : Bool)
    (names : List String) (s : State) (n : Node) (T : Table) : Prop where
  built : ∃ result code captured, group b.items result loc = .ok code ∧
    n = closureNode (code.loc.or loc) b.body.dest captured ∧
    b.body.lambda [] code (code.loc.or loc) ∈ T.lambdas ∧
    if returns then result = none else ∃ syms : List Symbol,
      names.map (s.scopes.own b.body.frame) = syms.map some ∧ result = some (packed loc syms)

theorem Built.advance (h : Built env loc b returns names s n t.table) {u : State}
    (hu : ∀ l ∈ t.table.lambdas, l ∈ u.table.lambdas) : Built env loc b returns names s n u.table := by
  obtain ⟨result, code, captured, hg, hn, hl, hr⟩ := h.built
  exact ⟨result, code, captured, hg, hn, hu _ hl, hr⟩

theorem buildBranch_built (hlt : b.body.frame < s.scopes.size)
    (hown : ∀ x ∈ names, (s.scopes.own b.body.frame x).isSome) {u : State}
    (hr : Yields (Lower.branchResult b returns names loc) s r u)
    (h : Yields (Lower.buildBranch env b r loc) u n t) :
    Built env loc b returns names s n t.table := by
  obtain ⟨hresult, rfl⟩ := (branchResult_iff hlt).1 hr
  obtain ⟨code, hcode, hlift⟩ := buildBranch_iff.1 h
  obtain ⟨captured, v, -, -, rfl, rfl⟩ := lift_iff.1 hlift
  refine ⟨r, code, captured, hcode, rfl, by simp [State.defining], ?_⟩
  cases returns with
  | true => exact hresult
  | false =>
    simp only [Bool.false_eq_true, if_false] at hresult ⊢
    obtain ⟨syms, hsyms, rfl⟩ := hresult
    refine ⟨syms, ?_, rfl⟩
    rw [← hsyms]
    apply List.map_congr_left
    intro x hx
    obtain ⟨a, ha⟩ := Option.isSome_iff_exists.1 (hown x hx)
    rw [Scopes.sees_eq, ha, Option.some_or]

/-- What a conditional does from behind its branches on: it builds them, and binds what its call
yields. -/
theorem mergeBranches_built (hs : Valid s) (hT : Lowered rT aT bT T s) (hF : Lowered rF aF bF F s)
    (hne : T.body.dest.token ≠ F.body.dest.token)
    (h : Yields (Lower.mergeBranches env loc test T F) s items t) :
    (bF = bT ∧ T.body.assigned.Perm F.body.assigned) ∧ ∃ u nT nF,
      Rebinds [] s u ∧ s.issued ≤ u.issued ∧ Built env loc T bT T.body.assigned s nT t.table ∧
      Built env loc F bT T.body.assigned s nF t.table ∧
      Yields (Lower.bindResults bT T.body.assigned (branchCall test nT nF loc) loc) u items t := by
  obtain ⟨⟨hret, hperm⟩, rT, s₁, nT, s₂, rF, s₃, nF, s₄, hrT, hbT, hrF, hbF, hend⟩ :=
    mergeBranches_iff.1 h
  rw [hT.returned] at hrT hrF hend hret
  rw [hF.returned] at hret
  have hre := returning_effect hs bT
  have hT₁ := hT.advance hs hre.advances
  have hF₁ := hF.advance hs hre.advances
  obtain ⟨-, rfl⟩ := (branchResult_iff hT₁.frame_lt).1 hrT
  obtain ⟨u, k, hu, hk, hres, rfl⟩ := buildBranch_reads hre.valid hT₁ hbT
  have hv := hu.valid.defining (l := k) env (hk ▸ hres)
  have hF₂ := (hF₁.advance hre.valid hu.advances).defining (l := k) env (hk ▸ hne)
  obtain ⟨-, rfl⟩ := (branchResult_iff hF₂.frame_lt).1 hrF
  obtain ⟨u', k', hu', hk', hres', rfl⟩ := buildBranch_reads hv hF₂ hbF
  have hv' := hu'.valid.defining (l := k') env (hk' ▸ hres')
  have hends := bindResults_effect hv' hend
  -- The frame of the false branch is not touched while the true one is built.
  have hkeep : ∀ x, (u.defining env k).scopes.own F.body.frame x = s.scopes.own F.body.frame x := by
    intro x
    exact (hF₁.own_eq hu.advances x).trans (hF.own_eq hre.advances x)
  have hbuiltT := buildBranch_built hT₁.frame_lt hT₁.own hrT hbT
  have hbuiltF := buildBranch_built hF₂.frame_lt (fun x hx => hF₂.own x (hperm.mem_iff.1 hx)) hrF hbF
  have hkeeps : Rebinds [] s (u'.defining env k') := by
    have h₁ := (Rebinds.returning s bT).trans (Rebinds.of_reads hu) hre.advances.issued
    have hle := le_trans hre.advances.issued hu.advances.issued
    exact ((h₁.defining (l := k) env).trans (.of_reads hu') hle).defining env
  refine ⟨⟨hret, hperm⟩, _, nT, nF, hkeeps, ?_, ?_, ?_, hend⟩
  · exact le_trans (le_trans hre.advances.issued hu.advances.issued) hu'.advances.issued
  · have hbuilt := hbuiltT.advance fun l hl => hends.advances.lambda_mem
      (List.mem_append_left [k'] (hu'.advances.lambda_mem hl))
    obtain ⟨result, code, captured, hg, hn, hl, hr⟩ := hbuilt.built
    refine ⟨result, code, captured, hg, hn, hl, ?_⟩
    cases bT <;> exact hr
  · have hbuilt := hbuiltF.advance fun l hl => hends.advances.lambda_mem hl
    obtain ⟨result, code, captured, hg, hn, hl, hr⟩ := hbuilt.built
    refine ⟨result, code, captured, hg, hn, hl, ?_⟩
    cases bT with
    | true => exact hr
    | false =>
      simp only [Bool.false_eq_true, if_false] at hr ⊢
      rwa [show (u.defining env k).scopes.own F.body.frame = s.scopes.own F.body.frame from
        funext hkeep] at hr

end Merging

section Statements

variable {s t u w : State} {env : Env} {loc : Option Location} {items : List Item} {x : String}
  {b o : List Stmt} {c : Expr}

theorem lowerAssign_rebinds (hx : env.expansions = []) (sp : Surface.Span) (target v : Expr)
    (hs : Valid s) (h : Yields (Lower.lowerAssign env loc target v) s items t) :
    Rebinds (Stmt.assign sp [target] v).declares s t := by
  unfold Lower.lowerAssign at h
  split at h
  · simp only [Yields.bind_iff, Yields.pure_iff] at h
    obtain ⟨n, u, hv, i, _, hi, -, rfl⟩ := h
    have h₁ := lowerExpr_reads hx v hs hv
    exact (Rebinds.of_reads h₁).trans (assign_rebinds hi) h₁.advances.issued
  · split at h
    · rename_i index _ sp'' y
      simp only [Yields.bind_iff, Yields.pure_iff] at h
      obtain ⟨n, u, hv, o, u', ho, j, u'', hj, i, _, hi, -, rfl⟩ := h
      have h₁ := lowerExpr_reads hx v hs hv
      have h₂ := h₁.trans hs (lowerExpr_reads hx _ h₁.valid ho)
      have h₃ := h₂.trans hs (lowerExpr_reads hx index h₂.valid hj)
      exact (Rebinds.of_reads h₃).trans (assign_rebinds hi) h₃.advances.issued
    · simp at h
  all_goals simp at h

theorem lowerAugAssign_rebinds (hx : env.expansions = []) (sp : Surface.Span) (target : Expr)
    (op : Operator) (v : Expr) (hs : Valid s)
    (h : Yields (Lower.lowerAugAssign env loc target op v) s items t) :
    Rebinds (Stmt.augAssign sp target op v).declares s t := by
  unfold Lower.lowerAugAssign at h
  split at h
  · simp only [Yields.bind_iff, Yields.pure_iff, operatorNode_iff] at h
    obtain ⟨n, u, hv, _, _, ⟨f, -, rfl, rfl⟩, o, u', ho, a, u'', ha, i, _, hi, -, rfl⟩ := h
    have h₁ := lowerExpr_reads hx v hs hv
    have h₂ := h₁.trans hs (readName_reads h₁.valid ho)
    obtain ⟨-, rfl⟩ := (current_iff h₂.valid).1 ha
    exact (Rebinds.of_reads h₂).trans (assign_rebinds hi) h₂.advances.issued
  all_goals simp at h

theorem lowerReturn_rebinds (hx : env.expansions = []) (value : Option Expr) (hs : Valid s)
    (h : Yields (Lower.lowerReturn env loc value) s items t) : Rebinds [] s t := by
  unfold Lower.lowerReturn at h
  simp only [Yields.bind_iff, Yields.body_iff] at h
  obtain ⟨_, _, ⟨rfl, rfl⟩, h⟩ := h
  split at h
  · simp at h
  · simp only [Yields.bind_iff, Yields.modifyBody_iff] at h
    obtain ⟨_, _, rfl, h⟩ := h
    have hr := returning_effect hs true
    cases value with
    | none =>
      obtain ⟨-, rfl⟩ := Yields.pure_iff.1 h
      exact .returning s true
    | some e =>
      simp only [Yields.bind_iff, Yields.pure_iff] at h
      obtain ⟨n, _, he, -, rfl⟩ := h
      exact (Rebinds.returning s true).trans (.of_reads (lowerExpr_reads hx e hr.valid he))
        hr.advances.issued

theorem lowerFunction_rebinds (hx : env.expansions = []) {f : String} {ps : Params Expr}
    {ds : List Expr} {ad : Bool} (hs : Valid s) (htop : s.body.topLevel = false)
    (h : Yields (Lower.lowerFunction env loc f ps ds ad (Lower.lowerBlock env b)) s items t) :
    Rebinds [f] s t := by
  obtain ⟨-, -, a, u, n, hb, hc, -⟩ := (lowerFunction_iff htop).1 h
  have hi := issued_reads hs
  have hu := bindFresh_effect hi.valid hb
  have hres := (Reserved.issue hs (Flat.fresh s.issued f .global_) rfl).advance hu.advances
  obtain ⟨w, l, hw, -, -, rfl⟩ := lowerClosure_reads hu.valid hres
    (functionBody_acts loc (lowerBlock_acts hx b)) hc
  have hle := le_trans hi.advances.issued hu.advances.issued
  have h₁ := (Rebinds.of_reads hi).trans (bindFresh_rebinds hb) hi.advances.issued
  exact (h₁.trans (.of_reads hw) hle).defining env

theorem lowerIf_rebinds (hx : env.expansions = []) (hs : Valid s)
    (h : Yields (do
      let test ← Lower.lowerExpr env c
      let whenTrue ← Lower.lowerBranch "then" (Lower.lowerBlock env b)
      let whenFalse ← Lower.lowerBranch "else" (Lower.lowerBlock env o)
      Lower.mergeBranches env loc test whenTrue whenFalse) s items t) :
    Rebinds (if blockReturns b then [] else blockAssigns b) s t := by
  simp only [Yields.bind_iff] at h
  obtain ⟨n, s₁, hn, T, s₂, hT, F, s₃, hF, hm⟩ := h
  have h₁ := lowerExpr_reads hx c hs hn
  obtain ⟨h₂, hlT, lT⟩ := lowerBranch_reads h₁.valid (lowerBlock_acts hx b) hT
  obtain ⟨h₃, hlF, lF⟩ := lowerBranch_reads h₂.valid (lowerBlock_acts hx o) hF
  have h₀ := (h₁.trans hs h₂).trans hs h₃
  have hleT := lT.reserved.le
  obtain ⟨-, u, nT, nF, hu, hle, -, -, hend⟩ := mergeBranches_built h₃.valid
    (lT.advance h₂.valid h₃.advances) lF (by omega) hm
  have hre := ((Rebinds.of_reads h₀).trans hu h₀.advances.issued).trans (bindResults_own hend).1
    (le_trans h₀.advances.issued hle)
  cases hr : blockReturns b with
  | true => simpa [hr] using hre
  | false =>
    -- The names are noted once each; which these are is what matters here.
    simp only [hr, lT.assigned, List.nil_append, Bool.false_eq_true, if_false] at hre ⊢
    exact ⟨fun x a hx => hre.keeps x a (by simpa using hx), fun x hx => hre.renews x (by simpa using hx)⟩

theorem lowerLoop_rebinds (hx : env.expansions = []) (hs : Valid s)
    (h : Yields (Lower.lowerLoop env loc (Lower.lowerExpr env c) (Lower.lowerBlock env b)) s items t) :
    Rebinds (blockAssigns b) s t := by
  obtain ⟨p, hp⟩ := lowerLoop_runs hs (lowerExpr_acts hx c) (lowerBlock_acts hx b) h
  have hre := (Rebinds.of_reads hp.defined).trans (assignAll_own p.gives).1 hp.defined.advances.issued
  rw [hp.vars, List.nil_append] at hre
  simp only [loopVariables] at hre
  exact ⟨fun x a hx => hre.keeps x a (by simpa using hx), fun x hx => hre.renews x (by simpa using hx)⟩

/-- A statement binds what it declares anew, and nothing else. -/
theorem lowerStmt_rebinds (hx : env.expansions = []) (st : Stmt) {ad : Bool} (hs : Valid s)
    (htop : s.body.topLevel = false) (h : Yields (Lower.lowerStmt env st ad) s items t) :
    Rebinds st.declares s t := by
  cases st with
  | expr sp v =>
    simp only [Lower.lowerStmt, Yields.bind_iff, Yields.pure_iff] at h
    obtain ⟨n, _, hv, -, rfl⟩ := h
    exact .of_reads (lowerExpr_reads hx v hs hv)
  | assign sp ts v =>
    rcases ts with - | ⟨target, - | ⟨_, _⟩⟩
    · simp [Lower.lowerStmt] at h
    · simp only [Lower.lowerStmt] at h
      exact lowerAssign_rebinds hx sp target v hs h
    · simp [Lower.lowerStmt] at h
  | augAssign sp target op v =>
    simp only [Lower.lowerStmt] at h
    exact lowerAugAssign_rebinds hx sp target op v hs h
  | functionDef sp f ps b ds =>
    simp only [Lower.lowerStmt] at h
    exact lowerFunction_rebinds hx hs htop h
  | returnValue sp v =>
    simp only [Lower.lowerStmt] at h
    exact lowerReturn_rebinds hx v hs h
  | ifElse sp c b o =>
    simp only [Lower.lowerStmt] at h
    exact lowerIf_rebinds hx hs h
  | whileLoop sp c b o =>
    simp only [Lower.lowerStmt] at h
    split at h
    · simp at h
    · exact lowerLoop_rebinds hx hs h
  | forLoop | tryExcept | raise | breakLoop | continueLoop | pass | scopeDecl =>
    simp [Lower.lowerStmt] at h

theorem lowerBlock_cons_iff {st : Stmt} : Yields (Lower.lowerBlock env (st :: b)) s items t ↔
    s.body.hasReturned = false ∧ ∃ is u js, Yields (Lower.lowerStmt env st false) s is u ∧
      Yields (Lower.lowerBlock env b) u js t ∧ items = is ++ js := by
  simp only [Lower.lowerBlock, Yields.bind_iff, Yields.body_iff]
  constructor
  · rintro ⟨_, _, ⟨rfl, rfl⟩, h⟩
    split at h
    · simp at h
    · rename_i hr
      simp only [Yields.bind_iff, Yields.pure_iff] at h
      obtain ⟨is, u, hst, js, _, hb, rfl, rfl⟩ := h
      exact ⟨by simpa using hr, is, u, js, hst, hb, rfl⟩
  · rintro ⟨hr, is, u, js, hst, hb, rfl⟩
    refine ⟨_, s, ⟨rfl, rfl⟩, ?_⟩
    rw [if_neg (by simp [hr])]
    simp only [Yields.bind_iff, Yields.pure_iff]
    exact ⟨is, u, hst, js, t, hb, rfl, rfl⟩

theorem lowerBlock_rebinds (hx : env.expansions = []) (hs : Valid s)
    (htop : s.body.topLevel = false) (h : Yields (Lower.lowerBlock env b) s items t) :
    Rebinds (blockDeclares b) s t := by
  induction b generalizing s items with
  | nil =>
    obtain ⟨-, rfl⟩ := Yields.pure_iff.1 h
    exact ⟨fun _ _ _ h => h, by simp [blockDeclares]⟩
  | cons st b ih =>
    obtain ⟨-, is, u, js, hst, hb, -⟩ := lowerBlock_cons_iff.1 h
    have h₁ := lowerStmt_acts hx st false hs htop hst
    exact (lowerStmt_rebinds hx st hs htop hst).trans
      (ih h₁.valid (h₁.advances.body.topLevel.trans htop) hb) h₁.advances.issued

/-- The last statement of a block that binds a name, and the symbol that it binds the name to: the
block is lowered from one state to another. -/
structure LastBinding (env : Env) (b : List Stmt) (s t : State) (x : String) (a : Symbol) : Prop where
  last : ∃ before st after is u js v, b = before ++ st :: after ∧ x ∈ st.declares ∧
    x ∉ blockDeclares after ∧ Yields (Lower.lowerBlock env before) s is u ∧
    Yields (Lower.lowerStmt env st false) u js v ∧ v.own x = some a ∧ u.issued < a.token
  behind : t.own x = some a

theorem lowerBlock_lastBinding (hx : env.expansions = []) (hs : Valid s)
    (htop : s.body.topLevel = false) (h : Yields (Lower.lowerBlock env b) s items t)
    (hb : x ∈ blockDeclares b) : ∃ a, LastBinding env b s t x a := by
  induction b generalizing s items with
  | nil => cases hb
  | cons st b ih =>
    obtain ⟨hr, is, u, js, hst, hrest, -⟩ := lowerBlock_cons_iff.1 h
    have h₁ := lowerStmt_acts hx st false hs htop hst
    have htop' := h₁.advances.body.topLevel.trans htop
    by_cases hlater : x ∈ blockDeclares b
    · obtain ⟨a, ⟨before, st', after, is', v, js', w, rfl, hst', hafter, hbefore, hyields, ha, hlt⟩, hend⟩ :=
        ih h₁.valid htop' hrest hlater
      exact ⟨a, ⟨st :: before, st', after, _, v, js', w, rfl, hst', hafter,
        lowerBlock_cons_iff.2 ⟨hr, is, u, is', hst, hbefore, rfl⟩, hyields, ha, hlt⟩, hend⟩
    · have hhere : x ∈ st.declares := (List.mem_append.1 hb).resolve_right hlater
      obtain ⟨a, ha, hlt⟩ := (lowerStmt_rebinds hx st hs htop hst).renews x hhere
      exact ⟨a, ⟨[], st, b, [], s, is, u, rfl, hhere, hlater, Yields.pure_iff.2 ⟨rfl, rfl⟩, hst, ha,
        hlt⟩, (lowerBlock_rebinds hx h₁.valid htop' hrest).keeps x a hlater ha⟩

end Statements

section Targets

variable {s t : State} {env : Env} {items : List Item} {b : List Stmt}

theorem assigns_subset_declares (st : Stmt) : st.assigns ⊆ st.declares := by
  unfold Stmt.declares
  split
  · simp [Stmt.assigns]
  · exact List.Subset.refl _

theorem blockAssigns_subset_blockDeclares (b : List Stmt) : blockAssigns b ⊆ blockDeclares b := by
  induction b with
  | nil => simp [blockAssigns]
  | cons st b ih =>
    intro x hx
    rcases List.mem_append.1 hx with hx | hx
    · exact List.mem_append_left _ (assigns_subset_declares st hx)
    · exact List.mem_append_right _ (ih hx)

theorem lowerBlock_targets (hx : env.expansions = [])
    (ih : ∀ st ∈ b, ∀ {s items t}, Valid s → s.body.topLevel = false →
      Yields (Lower.lowerStmt env st false) s items t → st.returns = false →
      ∀ x, x ∈ st.targets ↔ x ∈ st.assigns) (hs : Valid s) (htop : s.body.topLevel = false)
    (h : Yields (Lower.lowerBlock env b) s items t) (hr : blockReturns b = false) (x : String) :
    x ∈ blockTargets b ↔ x ∈ blockAssigns b := by
  induction b generalizing s items with
  | nil => rfl
  | cons st b ihb =>
    obtain ⟨-, is, u, js, hst, hb, -⟩ := lowerBlock_cons_iff.1 h
    have h₁ := lowerStmt_acts hx st false hs htop hst
    simp only [blockReturns, Bool.or_eq_false_iff] at hr
    have hhere := ih st (by simp) hs htop hst hr.1 x
    have hlater := ihb (fun y hy => ih y (List.mem_cons_of_mem _ hy)) h₁.valid
      (h₁.advances.body.topLevel.trans htop) hb hr.2
    simp only [blockTargets, blockAssigns, List.mem_append, hhere, hlater]

/-- What is lowered and does not return leaves behind all the names that it assigns, however deep
inside: the names of a conditional that returns would not be, but it returns. -/
theorem lowerStmt_targets (hx : env.expansions = []) (st : Stmt) :
    ∀ {ad s items t}, Valid s → s.body.topLevel = false →
      Yields (Lower.lowerStmt env st ad) s items t → st.returns = false →
      ∀ x, x ∈ st.targets ↔ x ∈ st.assigns := by
  induction st using Stmt.ind with
  | ifElse sp c b o ihb iho =>
    intro ad s items t hs htop h hr x
    simp only [Lower.lowerStmt, Yields.bind_iff] at h
    obtain ⟨n, s₁, hn, T, s₂, hT, F, s₃, hF, hm⟩ := h
    have h₁ := lowerExpr_reads hx c hs hn
    obtain ⟨h₂, -, lT⟩ := lowerBranch_reads h₁.valid (lowerBlock_acts hx b) hT
    obtain ⟨h₃, -, lF⟩ := lowerBranch_reads h₂.valid (lowerBlock_acts hx o) hF
    obtain ⟨⟨hret, hperm⟩, -⟩ := mergeBranches_iff.1 hm
    rw [lT.assigned, lF.assigned, perm_noteAll_iff] at hperm
    rw [lT.returned, lF.returned] at hret
    simp only [Stmt.returns] at hr
    obtain ⟨u, hu, hiff⟩ := lowerBranch_iff h₁.valid "then" (Lower.lowerBlock env b)
    obtain ⟨w, hw, -⟩ := (hiff T s₂).1 hT
    obtain ⟨u', hu', hiff'⟩ := lowerBranch_iff h₂.valid "else" (Lower.lowerBlock env o)
    obtain ⟨w', hw', -⟩ := (hiff' F s₃).1 hF
    have hb := lowerBlock_targets hx (fun y hy => ihb y hy) (hu.valid (issued_reads h₁.valid).valid)
      (by rw [hu.body]) hw hr x
    have ho := lowerBlock_targets hx (fun y hy => iho y hy) (hu'.valid (issued_reads h₂.valid).valid)
      (by rw [hu'.body]) hw' (hret.trans hr) x
    simp only [Stmt.targets, Stmt.assigns, hr, Bool.false_eq_true, if_false, List.mem_append, hb, ho,
      ← hperm, or_self]
  | whileLoop sp c b o ih =>
    intro ad s items t hs htop h _ x
    simp only [Lower.lowerStmt] at h
    split at h
    · simp at h
    · obtain ⟨vars, s₁, -, -, -, -, h₁, -⟩ := lowerLoop_iff.1 h
      obtain ⟨u, hu, hiff⟩ := dryRun_iff hs (Lower.lowerExpr env c) (Lower.lowerBlock env b)
      obtain ⟨n, v, items, w, hn, hi, -⟩ := (hiff vars s₁).1 h₁
      have hread := lowerExpr_reads hx c (hu.valid hs.scratch) hn
      have htop' : v.body.topLevel = false := by rw [hread.advances.body.topLevel, hu.body]
      have hr := lowerBlock_forbidden hx (fun y _ => lowerStmt_forbidden hx y) hread.valid htop'
        (by rw [hread.advances.body.returnError, hu.body]; rfl) hi
      exact lowerBlock_targets hx (fun y hy => ih y hy) hread.valid htop' hi hr x
  | foreign st hf =>
    intros
    cases st <;> first | rfl | cases hf
  | _ => intros; rfl

end Targets

end Hoist.Lowering
