import Hoist.Proofs.Lowering.Scoped
import Hoist.Proofs.Lowering.Grouped

/-!
# Projections that cannot fail

The items of a tuple that a conditional or a loop returns are bound to names by projections that are
marked as unable to fail. The tuple is bound before them, and every way in which it can be returned
ends in a tuple of as many items as there are names.
-/

namespace Hoist.Lowering

open Hoist.Flat (Symbol Node Location Table Lambda Returns)
open Hoist.Surface (Expr Stmt Params blockReads blockAssigns blockReturns)

/-- What conditionals and loops hand over: the choice of a branch that is called at once, or the call of
a loop. -/
inductive IsResult (T : Table) : Node → Prop
  | choice {loc t x y} : IsResult T (branchCall t x y loc)
  | loop {loc place l args} (hl : l ∈ T.lambdas) (hrelation : l.ref.relation = "loop") :
      IsResult T (.apply loc (.ref place l.ref) args false)

/-- A marked call that projects an item from a tuple, bound in its scope to what a conditional or a loop
hands over: on every way the tuple has more items. -/
inductive Secured (T : Table) : Node × List (Symbol × Node) → Prop
  | mk {tuple i loc value scope} (bound : scope.find? (·.1.same tuple) = some (tuple, value))
      (result : IsResult T value)
      (long : ∀ r, Returns T value r → ∃ place ns, r = .tuple place ns ∧ i < ns.length) :
      Secured T (Lower.projection tuple i loc, scope)

section Ways

variable {T : Table} {n r : Node} {loc : Option Location} {rs : List Run} {items : List Item}
  {xs : List String} {syms : List Symbol} {Δ : Ctx}

/-- What a body with a result returns, its result returns. -/
theorem assemble_returns (h : assemble (some r) loc rs = .ok n) {v : Node} (hv : Returns T n v) :
    Returns T r v := by
  induction rs generalizing n with
  | nil =>
    cases h
    exact hv
  | cons run rs ih =>
    obtain ⟨body, hbody, honward⟩ := assemble_onward (T := T) h
    cases hv with
    | here hnone =>
      rw [honward] at hnone
      cases hnone
    | onward hms hm hr =>
      rw [honward] at hms
      cases hms
      obtain rfl := List.mem_singleton.1 hm
      exact ih hbody hr

theorem group_returns (h : group items (some r) loc = .ok n) {v : Node} (hv : Returns T n v) :
    Returns T r v := assemble_returns h hv

/-- Several names are packed into a tuple, which has a value of its own. -/
theorem packed_returns (hsyms : Δ.Have xs syms) (hlen : 2 ≤ xs.length) {v : Node}
    (hv : Returns T (packed loc syms) v) : ∃ place ns, v = .tuple place ns ∧ ns.length = xs.length := by
  have hlen' := hsyms.length
  have htuple : packed loc syms = .tuple loc (syms.map (.ref loc)) := by
    unfold packed
    split
    · simp at hlen'
      omega
    · rfl
  rw [htuple] at hv
  cases hv with
  | here => exact ⟨loc, _, rfl, by simp [hlen']⟩
  | onward hms => cases hms

/-- The value of a lambda, when it is chosen, is that of its body. -/
theorem Lifted.chosen {Γ : Ctx} {own : List (String × Symbol)} {reads : List String}
    {formals : List Symbol} {m : Made} (h : Lifted T Γ own reads formals Δ m n) :
    n.chosen? T = some m.lambda.body := by
  have hfind := h.find
  have hidentity : m.lambda.ref ≠ Flat.identity := fun he => by
    have := m.generated
    rw [he] at this
    cases this
  cases h
  unfold closureNode
  split <;> simp [Node.chosen?, hfind, hidentity]

theorem branchCall_onward {x y a b : Node} (hx : x.chosen? T = some a) (hy : y.chosen? T = some b)
    (t : Node) (loc : Option Location) : (branchCall t x y loc).onward? T = some [a, b] := by
  simp [branchCall, Node.onward?, hx, hy]

/-- A conditional whose branches assign several names returns a tuple of them. -/
theorem choice_long {Γ ΔT ΔF ΔT' ΔF' : Ctx} {xsT xsF : List String} {mT mF : Made} {t nT nF : Node}
    {symsT symsF : List Symbol} {itemsT itemsF : List Item} (hT : Lifted T Γ [] xsT [] ΔT mT nT)
    (hcodeT : group itemsT (some (packed loc symsT)) loc = .ok mT.lambda.body)
    (hsT : ΔT'.Have xs symsT) (hF : Lifted T Γ [] xsF [] ΔF mF nF)
    (hcodeF : group itemsF (some (packed loc symsF)) loc = .ok mF.lambda.body)
    (hsF : ΔF'.Have xs symsF) (hlen : 2 ≤ xs.length) {v : Node}
    (hv : Returns T (branchCall t nT nF loc) v) :
    ∃ place ns, v = .tuple place ns ∧ ns.length = xs.length := by
  have honward := branchCall_onward hT.chosen hF.chosen t loc
  cases hv with
  | here hnone =>
    rw [honward] at hnone
    cases hnone
  | onward hms hm hr =>
    rw [honward] at hms
    cases hms
    simp only [List.mem_cons, List.not_mem_nil, or_false] at hm
    rcases hm with rfl | rfl
    · exact packed_returns hsT hlen (group_returns hcodeT hr)
    · exact packed_returns hsF hlen (group_returns hcodeF hr)

/-- A loop returns the tuple of what it gives: another turn ends in a call of the loop again. -/
theorem loop_long {next loop : Made} {t code : Node} {formals exits updated : List Symbol}
    (hnext : next.lambda = ⟨next.lambda.ref, formals, code, loc⟩)
    (hloop : loop.lambda =
      ⟨loop.lambda.ref, formals, turnCode loc t next.lambda.ref formals exits, loc⟩)
    (hfound : ∀ m ∈ [next, loop], T.find? m.lambda.ref = some m.lambda)
    (hcode : group items
      (some (.apply loc (.ref loc loop.lambda.ref) (updated.map (.ref loc)) false)) loc = .ok code)
    {args : List Node} {v : Node} (hv : Returns T (.apply loc (.ref loc loop.lambda.ref) args false) v) :
    ∃ place ns, v = .tuple place ns ∧ ns.length = exits.length := by
  have hcall : ∀ as, (Node.apply loc (.ref loc loop.lambda.ref) as false).onward? T =
      some [turnCode loc t next.lambda.ref formals exits] := by
    intro as
    have hbody : loop.lambda.body = turnCode loc t next.lambda.ref formals exits := by rw [hloop]
    simp [Node.onward?, hfound loop (by simp), hbody]
  have hidentity : next.lambda.ref ≠ Flat.identity := fun he => by
    have := next.generated
    rw [he] at this
    cases this
  have hturn : (turnCode loc t next.lambda.ref formals exits).onward? T =
      some [code, .tuple loc (exits.map (.ref loc))] := by
    have hbody : next.lambda.body = code := by rw [hnext]
    refine branchCall_onward ?_ rfl _ _
    rw [Node.chosen?, if_neg hidentity, hfound next (by simp), Option.map_some, hbody]
  -- On every way one is at a call of the loop, at its choice, in a turn, or at the tuple given.
  let way (n : Node) : Prop := (∃ as, n = .apply loc (.ref loc loop.lambda.ref) as false) ∨
    n = turnCode loc t next.lambda.ref formals exits ∨
    (∃ rs, assemble (some (.apply loc (.ref loc loop.lambda.ref) (updated.map (.ref loc)) false)) loc
      rs = .ok n) ∨ n = .tuple loc (exits.map (.ref loc))
  have hstep : ∀ n ms, way n → n.onward? T = some ms → ∀ m ∈ ms, way m := by
    rintro n ms (⟨as, rfl⟩ | rfl | ⟨rs, hrs⟩ | rfl) hms m hm
    · rw [hcall] at hms
      cases hms
      exact .inr (.inl (List.mem_singleton.1 hm))
    · rw [hturn] at hms
      cases hms
      simp only [List.mem_cons, List.not_mem_nil, or_false] at hm
      rcases hm with rfl | rfl
      · exact .inr (.inr (.inl ⟨_, hcode⟩))
      · exact .inr (.inr (.inr rfl))
    · cases rs with
      | nil =>
        cases hrs
        rw [hcall] at hms
        cases hms
        exact .inr (.inl (List.mem_singleton.1 hm))
      | cons run rs =>
        obtain ⟨body, hbody, honward⟩ := assemble_onward (T := T) hrs
        rw [honward] at hms
        cases hms
        obtain rfl := List.mem_singleton.1 hm
        exact .inr (.inr (.inl ⟨rs, hbody⟩))
    · cases hms
  obtain ⟨hway, hend⟩ := hv.invariant hstep (.inl ⟨args, rfl⟩)
  rcases hway with ⟨as, rfl⟩ | rfl | ⟨rs, hrs⟩ | rfl
  · rw [hcall] at hend
    cases hend
  · rw [hturn] at hend
    cases hend
  · cases rs with
    | nil =>
      cases hrs
      rw [hcall] at hend
      cases hend
    | cons run rs =>
      obtain ⟨body, -, honward⟩ := assemble_onward (T := T) hrs
      rw [honward] at hend
      cases hend
  · exact ⟨loc, _, rfl, by simp⟩

end Ways

section Scopes

variable {T : Table} {Γ Γ' Δ : Ctx} {own : List (String × Symbol)} {xs : List String}
  {formals syms : List Symbol} {m : Made} {n t x y : Node} {loc : Option Location} {items : List Item}
  {L : List Made} {scope : List (Symbol × Node)}

theorem allMarked_refs : Node.allMarked scope (syms.map (.ref loc)) = [] := by
  induction syms with
  | nil => rfl
  | cons a syms ih => simpa [Node.allMarked, Node.marked] using ih

theorem Lifted.marked (h : Lifted T Γ own xs formals Δ m n) : n.marked scope = [] := by
  cases h
  unfold closureNode
  split
  · rfl
  · exact allMarked_refs

/-- Expressions have no marked calls. -/
theorem ExprCode.marked {e : Expr} (h : ExprCode T Γ e n L) : n.marked scope = [] := by
  refine Node.marked_eq_nil (ExprCode.all (P := fun x => x.isMarked = false) e ?_ h)
  refine ⟨fun _ _ _ _ => rfl, fun _ _ => rfl, fun _ _ => rfl, fun _ _ => rfl, fun _ _ _ => rfl, ?_⟩
  intro m _ own reads formals Δ n _ hl
  cases hl
  unfold closureNode
  split <;> rfl

theorem branchCall_marked (ht : t.marked scope = []) (hx : x.marked scope = [])
    (hy : y.marked scope = []) : (branchCall t x y loc).marked scope = [] := by
  simp [branchCall, Node.marked, Node.allMarked, ht, hx, hy]

theorem invoke_marked {f : Symbol} {ns : List Node} (h : ∀ n ∈ ns, n.marked scope = []) :
    (invoke loc f ns).marked scope = [] := by
  have hns : Node.allMarked scope ns = [] := by
    induction ns with
    | nil => rfl
    | cons n ns ih =>
      simp [Node.allMarked, h n (by simp), ih fun m hm => h m (List.mem_cons_of_mem _ hm)]
  simp [invoke, Node.marked, hns]

theorem call_marked {a : Symbol} :
    (Node.apply loc (.ref loc a) (syms.map (.ref loc)) false).marked scope = [] := by
  simp [Node.marked, allMarked_refs]

theorem packed_marked : (packed loc syms).marked scope = [] := by
  unfold packed
  split
  · rfl
  · exact allMarked_refs

theorem itemsMarked_single {i : Item} (h : i.node.marked scope = []) : itemsMarked scope [i] = [] := by
  cases i <;> simpa [itemsMarked, Item.node] using h

/-- What is bound behind a tuple leaves the tuple in scope. -/
theorem Unpacks.secured {tuple : Symbol} {i : Nat} {value : Node}
    (h : Unpacks T tuple i Γ xs items Γ') (htuple : tuple ∈ Γ.bound)
    (hscope : scope.find? (·.1.same tuple) = some (tuple, value)) (hresult : IsResult T value)
    (hlong : ∀ r, Returns T value r → ∃ place ns, r = .tuple place ns ∧ i + xs.length ≤ ns.length) :
    ∀ c ∈ itemsMarked scope items, Secured T c := by
  induction h generalizing scope with
  | nil => simp [itemsMarked]
  | @cons i Γ Γ' x xs is a loc ha _ ih =>
    have hne : a.same tuple = false := by
      rw [Symbol.same_comm, Symbol.same_of_generated ha.generated, beq_eq_false_iff_ne]
      exact ha.bound tuple htuple
    intro c hc
    rw [itemsMarked, List.mem_append] at hc
    rcases hc with hc | hc
    · have hhere : (Lower.projection tuple i loc).marked scope =
          [(Lower.projection tuple i loc, scope)] := by
        simp [Lower.projection, Node.marked, Node.allMarked]
      rw [hhere, List.mem_singleton] at hc
      subst hc
      refine ⟨hscope, hresult, fun r hr => ?_⟩
      obtain ⟨place, ns, rfl, hle⟩ := hlong r hr
      exact ⟨place, ns, rfl, by rw [List.length_cons] at hle; omega⟩
    · refine ih (List.mem_append_left _ htuple) ?_ (fun r hr => ?_) c hc
      · simp [Assignment.binding, hne, hscope]
      · obtain ⟨place, ns, rfl, hle⟩ := hlong r hr
        exact ⟨place, ns, rfl, by rw [List.length_cons] at hle; omega⟩

theorem Unpacked.secured (h : Unpacked T Γ xs n items Γ') (hn : n.marked scope = [])
    (hresult : IsResult T n)
    (hlong : ∀ r, Returns T n r → ∃ place ns, r = .tuple place ns ∧ ns.length = xs.length) :
    ∀ c ∈ itemsMarked scope items, Secured T c := by
  cases h with
  | @mk _ tmp is loc htmp h =>
    rw [itemsMarked, hn, List.nil_append]
    refine h.secured (by simp [Ctx.hide]) ?_ hresult fun r hr => ?_
    · simp [Assignment.binding, Symbol.same_self]
    · obtain ⟨place, ns, rfl, hlen⟩ := hlong r hr
      exact ⟨place, ns, rfl, by omega⟩

theorem Results.secured (h : Results T Γ n xs items Γ') (hn : n.marked scope = [])
    (hresult : IsResult T n) (hlong : 2 ≤ xs.length →
      ∀ r, Returns T n r → ∃ place ns, r = .tuple place ns ∧ ns.length = xs.length) :
    ∀ c ∈ itemsMarked scope items, Secured T c := by
  have none : ∀ a loc, ∀ c ∈ itemsMarked scope [.assign ⟨a, n, loc⟩], Secured T c := by
    simp [itemsMarked, hn]
  cases h with
  | nil ha => exact none _ _
  | one ha => exact none _ _
  | many hlen h => exact h.secured hn hresult (hlong hlen)

/-- The marked calls of a statement are the projections of the tuple that it yields. -/
theorem StmtCode.secured {st : Stmt} (h : StmtCode T Γ st items L Γ') :
    ∀ c ∈ itemsMarked scope items, Secured T c := by
  have none : ∀ {i : Item}, i.node.marked scope = [] → ∀ c ∈ itemsMarked scope [i], Secured T c :=
    fun h c hc => by simp [itemsMarked_single h] at hc
  cases h with
  | expr h => exact none h.marked
  | assign h ha => exact none h.marked
  | setItem hv ho hi ha =>
    exact none (invoke_marked (by simp [Node.marked, hi.marked, hv.marked]))
  | augAssign hop hv ho ha => exact none (invoke_marked (by simp [Node.marked, hv.marked]))
  | functionDef hrole hlen hl hb hcode ha => exact none hl.marked
  | returnNone => exact none rfl
  | returnSome h => exact none h.marked
  | ifReturns ht hroles hT hb hcodeT hrT hF ho hcodeF hrF =>
    exact none (branchCall_marked ht.marked hT.marked hF.marked)
  | ifAssigns ht hroles hT hb hsT hcodeT hrT hF ho hsF hcodeF hrF hsame h =>
    exact h.secured (branchCall_marked ht.marked hT.marked hF.marked) .choice fun hlen r hr =>
      choice_long hT hcodeT hsT hF hcodeF hsF hlen hr
  | whileLoop hvars hlen hformals hΔ hexits ht hb hr hupdated hcode hroles hnext hloop hfound hinitial h =>
    rename_i loop _ _ _ _
    have hfoundL := hfound loop (by simp)
    have hrelation : loop.lambda.ref.relation = "loop" := by rw [loop.named, hroles.2]; rfl
    refine h.secured call_marked (.loop (List.mem_of_find?_eq_some hfoundL) hrelation) fun r hr => ?_
    rw [hexits.length]
    exact loop_long hnext hloop hfound hcode hr

theorem BlockCode.secured {b : List Stmt} (h : BlockCode T Γ b items L Γ') :
    ∀ c ∈ itemsMarked scope items, Secured T c := by
  induction b generalizing Γ items L scope with
  | nil =>
    cases h
    simp [itemsMarked]
  | cons st b ih =>
    cases h with
    | cons hst hlast hb =>
      intro c hc
      rw [itemsMarked_append, List.mem_append] at hc
      exact hc.elim (hst.secured c) (ih hb c)

/-- The marked calls in the body of a lambda are secured there. -/
theorem BodyCode.secured (h : BodyCode T m L) : ∀ c ∈ m.lambda.body.marked [], Secured T c := by
  cases h with
  | lambda h =>
    obtain ⟨hrole, hlen, hl, hb⟩ := h
    simp [hb.marked]
  | function hrole hlen hl hb hcode =>
    rw [group_marked (by simp) hcode]
    exact hb.secured
  | returns hrole hl hb hcode =>
    rw [group_marked (by simp) hcode]
    exact hb.secured
  | assigns hrole hl hb hsyms hcode =>
    rw [group_marked (fun r hr scope => by cases hr; exact packed_marked) hcode]
    exact hb.secured
  | next h =>
    obtain ⟨taken, given, exits, t', items, updated, code, Δ, Δ', -, -, -, -, hb, -, hcode, hnext, -⟩ :=
      h.inside
    rw [show m.lambda.body = code by rw [hnext],
      group_marked (fun r hr scope => by cases hr; exact call_marked) hcode]
    exact hb.secured
  | @loop _ _ _ next _ formals loc _ _ h =>
    obtain ⟨taken, given, exits, t', items, updated, code, Δ, Δ', -, -, -, ht, -, -, -, -, hloop⟩ :=
      h.inside
    rw [show m.lambda.body = turnCode loc t' next.lambda.ref formals exits by rw [hloop], turnCode,
      branchCall_marked ht.marked]
    · simp
    · exact allMarked_refs
    · simp [Node.marked, Node.allMarked, allMarked_refs]

end Scopes

end Hoist.Lowering
