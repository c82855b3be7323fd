import Hoist.Proofs.Lowering.Code

/-!
# The bodies of lambdas

Every lambda that comes with a piece of code was made for a function, a branch or a loop inside the
tree. `BodyCode` says for each of them what its body is: the code of its own part of the tree, which
comes with lambdas in turn.
-/

namespace Hoist.Lowering

open Hoist.Flat (Symbol Node Location Table)
open Hoist.Surface (Expr Stmt Params blockReads blockAssigns blockReturns)

/-- The inside of a loop: test and body, in the context of its parameters, and the two lambdas that are
made of them. -/
structure LoopCode (T : Table) (Γ : Ctx) (t : Expr) (b : List Stmt) (next loop : Made)
    (formals : List Symbol) (loc : Option Location) (L R : List Made) : Prop where
  roles : next.role = .next ∧ loop.role = .loop
  params : Formals T formals
  inside : ∃ taken given exits t' items updated code Δ Δ', taken.length = formals.length ∧
    Γ.inner (paramBindings taken formals) [] formals = Δ ∧ Δ.Have given exits ∧
    ExprCode T Δ t t' L ∧ BlockCode T Δ b items R Δ' ∧ Δ'.Have taken updated ∧
    group items (some (.apply loc (.ref loc loop.lambda.ref) (updated.map (.ref loc)) false)) loc =
      .ok code ∧
    next.lambda = ⟨next.lambda.ref, formals, code, loc⟩ ∧
    loop.lambda = ⟨loop.lambda.ref, formals, turnCode loc t' next.lambda.ref formals exits, loc⟩
  found : ∀ m ∈ [next, loop], T.find? m.lambda.ref = some m.lambda

/-- The body of a lambda expression: the code of its own expression. -/
inductive LambdaCode (T : Table) : Made → List Made → Prop
  | mk {Γ Δ : Ctx} {ps : Params Expr} {b : Expr} {m formals n L}
      (hrole : m.role = .function ps.names.length) (hlen : ps.names.length = formals.length)
      (h : Lifted T Γ (paramBindings ps.names formals) b.reads formals Δ m n)
      (hb : ExprCode T Δ b m.lambda.body L) : LambdaCode T m L

/-- What the body of a lambda is the code of, and the lambdas that come with that code. -/
inductive BodyCode (T : Table) : Made → List Made → Prop
  | lambda {m L} (h : LambdaCode T m L) : BodyCode T m L
  | function {Γ Δ Δ' : Ctx} {f : String} {ps : Params Expr} {b : List Stmt} {m formals items n loc L}
      (hrole : m.role = .function ps.names.length) (hlen : ps.names.length = formals.length)
      (h : Lifted T Γ (paramBindings ps.names formals ++ [(f, m.lambda.ref)]) (blockReads b) formals Δ
        m n)
      (hb : BlockCode T Δ b items L Δ') (hcode : group items none loc = .ok m.lambda.body) :
      BodyCode T m L
  | returns {Γ Δ Δ' : Ctx} {b : List Stmt} {m : Made} {n items loc L}
      (hrole : m.role = .whenTrue ∨ m.role = .whenFalse)
      (h : Lifted T Γ [] (blockReads b) [] Δ m n) (hb : BlockCode T Δ b items L Δ')
      (hcode : group items none loc = .ok m.lambda.body) : BodyCode T m L
  | assigns {Γ Δ Δ' : Ctx} {b : List Stmt} {m : Made} {n items names syms loc L}
      (hrole : m.role = .whenTrue ∨ m.role = .whenFalse)
      (h : Lifted T Γ [] (blockReads b) [] Δ m n) (hb : BlockCode T Δ b items L Δ')
      (hsyms : Δ'.Have names syms)
      (hcode : group items (some (packed loc syms)) loc = .ok m.lambda.body) : BodyCode T m L
  | next {Γ t b next loop formals loc L R} (h : LoopCode T Γ t b next loop formals loc L R) :
      BodyCode T next R
  | loop {Γ t b next loop formals loc L R} (h : LoopCode T Γ t b next loop formals loc L R) :
      BodyCode T loop L

/-- A lambda among some, made behind the lambdas that come with the code of its body. -/
def Among (P : Made → List Made → Prop) (M : List Made) (m : Made) : Prop :=
  ∃ L, (L ++ [m]).Sublist M ∧ P m L

namespace Among

variable {P Q : Made → List Made → Prop} {L M N : List Made} {m : Made}

theorem mono (h : Among P M m) (hN : M.Sublist N) : Among P N m := by
  obtain ⟨L, hL, hP⟩ := h
  exact ⟨L, hL.trans hN, hP⟩

theorem imp (h : Among P M m) (hPQ : ∀ {m L}, P m L → Q m L) : Among Q M m := by
  obtain ⟨L, hL, hP⟩ := h
  exact ⟨L, hL, hPQ hP⟩

theorem append (hL : ∀ m ∈ L, Among P L m) (hM : ∀ m ∈ M, Among P M m) :
    ∀ m ∈ L ++ M, Among P (L ++ M) m := by
  intro m hm
  rcases List.mem_append.1 hm with hm | hm
  · exact (hL m hm).mono (List.sublist_append_left _ _)
  · exact (hM m hm).mono (List.sublist_append_right _ _)

theorem snoc (hL : ∀ m ∈ L, Among P L m) {m₀ : Made} (h : P m₀ L) :
    ∀ m ∈ L ++ [m₀], Among P (L ++ [m₀]) m := by
  intro m hm
  rcases List.mem_append.1 hm with hm | hm
  · exact (hL m hm).mono (List.sublist_append_left _ _)
  · obtain rfl := List.mem_singleton.1 hm
    exact ⟨L, .refl _, h⟩

theorem pair (hM : ∀ m ∈ M, Among P M m) {a b : Made} {La Lb : List Made} (ha : P a La)
    (hb : P b Lb) (hLa : La.Sublist M) (hLb : Lb.Sublist M) :
    ∀ m ∈ M ++ [a, b], Among P (M ++ [a, b]) m := by
  intro m hm
  rcases List.mem_append.1 hm with hm | hm
  · exact (hM m hm).mono (List.sublist_append_left _ _)
  · simp only [List.mem_cons, List.not_mem_nil, or_false] at hm
    rcases hm with rfl | rfl
    · exact ⟨La, hLa.append (by simp), ha⟩
    · exact ⟨Lb, hLb.append (by simp), hb⟩

end Among

section Bodies

variable {T : Table} {Γ Γ' : Ctx}

theorem ExprsCode.lambdas {es : List Expr} {ns : List Node} {L : List Made}
    (ih : ∀ e ∈ es, ∀ {n L}, ExprCode T Γ e n L → ∀ m ∈ L, Among (LambdaCode T) L m)
    (h : ExprsCode T Γ es ns L) : ∀ m ∈ L, Among (LambdaCode T) L m := by
  induction es generalizing ns L with
  | nil => cases h; simp
  | cons e es ihs =>
    cases h with
    | cons he hes =>
      exact .append (ih e (by simp) he)
        (ihs (fun e' he' => ih e' (List.mem_cons_of_mem _ he')) hes)

theorem OptionCode.lambdas {o : Option Expr} {v : Literal} {n : Node} {L : List Made}
    (ih : ∀ e ∈ o, ∀ {n L}, ExprCode T Γ e n L → ∀ m ∈ L, Among (LambdaCode T) L m)
    (h : OptionCode T Γ v o n L) : ∀ m ∈ L, Among (LambdaCode T) L m := by
  cases h with
  | none => simp
  | some he => exact ih _ rfl he

/-- The lambdas of an expression are lambda expressions. -/
theorem ExprCode.lambdas (e : Expr) :
    ∀ {Γ n L}, ExprCode T Γ e n L → ∀ m ∈ L, Among (LambdaCode T) L m := by
  induction e using Expr.ind with
  | name sp x =>
    rintro Γ n L (_ | _)
    simp
  | constant sp v =>
    intro Γ n L h
    cases h
    simp
  | binary sp op l r ihl ihr =>
    intro Γ n L h
    cases h with
    | binary hop hl hr => exact .append (ihl hl) (ihr hr)
  | unary sp op x ih =>
    intro Γ n L h
    cases h with
    | unary hop hx => exact ih hx
  | compare sp l op r ihl ihr =>
    intro Γ n L h
    cases h with
    | compare hop hl hr => exact .append (ihl hl) (ihr hr)
  | chain sp l rest hlen =>
    intro Γ n L h
    cases h
    simp at hlen
  | call sp f args ks ihf ihargs =>
    intro Γ n L h
    cases h with
    | call hargs hf => exact .append (hargs.lambdas fun e he _ _ => ihargs e he) (ihf hf)
  | attr sp v name ih =>
    intro Γ n L h
    cases h with
    | attr hv => exact ih hv
  | subscript sp v i ihv ihi =>
    intro Γ n L h
    cases h with
    | subscript hv hi => exact .append (ihv hv) (ihi hi)
  | slice sp a b c iha ihb ihc =>
    intro Γ n L h
    cases h with
    | slice ha hb hc =>
      exact .append (.append (ha.lambdas fun e he _ _ => iha e he) (hb.lambdas fun e he _ _ => ihb e he))
        (hc.lambdas fun e he _ _ => ihc e he)
  | extSlice sp es ih =>
    intro Γ n L h
    cases h with
    | extSlice h => exact h.lambdas fun e he _ _ => ih e he
  | tuple sp es ih =>
    intro Γ n L h
    cases h with
    | tuple h => exact h.lambdas fun e he _ _ => ih e he
  | lambda sp ps b ih =>
    intro Γ n L h
    cases h with
    | lambda hrole hlen hl hb => exact .snoc (ih hb) (.mk hrole hlen hl hb)
  | foreign e hf =>
    intro Γ n L h
    cases h <;> simp [Expr.isForeign] at hf

theorem ExprCode.bodies {e : Expr} {n : Node} {L : List Made} (h : ExprCode T Γ e n L) :
    ∀ m ∈ L, Among (BodyCode T) L m := fun m hm => (ExprCode.lambdas e h m hm).imp .lambda

theorem BlockCode.bodies_of {b : List Stmt} {items : List Item} {L : List Made}
    (ih : ∀ st ∈ b, ∀ {Γ Γ' items L}, StmtCode T Γ st items L Γ' → ∀ m ∈ L, Among (BodyCode T) L m)
    (h : BlockCode T Γ b items L Γ') : ∀ m ∈ L, Among (BodyCode T) L m := by
  induction b generalizing Γ items L with
  | nil => cases h; simp
  | cons st b ihb =>
    cases h with
    | cons hst hlast hb =>
      exact .append (ih st (by simp) hst) (ihb (fun y hy => ih y (List.mem_cons_of_mem _ hy)) hb)

/-- The lambdas of a statement have their bodies. -/
theorem StmtCode.bodies (st : Stmt) :
    ∀ {Γ Γ' items L}, StmtCode T Γ st items L Γ' → ∀ m ∈ L, Among (BodyCode T) L m := by
  induction st using Stmt.ind with
  | expr sp v =>
    intro Γ Γ' items L h
    cases h with
    | expr h => exact h.bodies
  | assign sp ts v =>
    intro Γ Γ' items L h
    cases h with
    | assign h ha => exact h.bodies
    | setItem hv ho hi ha => exact .append hv.bodies hi.bodies
  | augAssign sp t op v =>
    intro Γ Γ' items L h
    cases h with
    | augAssign hop hv ho ha => exact hv.bodies
  | functionDef sp f ps b ds ih =>
    intro Γ Γ' items L h
    cases h with
    | functionDef hrole hlen hl hb hcode ha =>
      exact .snoc (hb.bodies_of ih) (.function hrole hlen hl hb hcode)
  | returnValue sp v =>
    intro Γ Γ' items L h
    cases h with
    | returnNone => simp
    | returnSome h => exact h.bodies
  | ifElse sp t b o ihb iho =>
    intro Γ Γ' items L h
    cases h with
    | ifReturns ht hroles hT hb hcodeT hrT hF ho hcodeF hrF =>
      exact .pair (.append (.append ht.bodies (hb.bodies_of ihb)) (ho.bodies_of iho))
        (.returns (.inl hroles.1) hT hb hcodeT) (.returns (.inr hroles.2) hF ho hcodeF) (by simp)
        (by simp)
    | ifAssigns ht hroles hT hb hsT hcodeT hrT hF ho hsF hcodeF hrF hsame h =>
      exact .pair (.append (.append ht.bodies (hb.bodies_of ihb)) (ho.bodies_of iho))
        (.assigns (.inl hroles.1) hT hb hsT hcodeT) (.assigns (.inr hroles.2) hF ho hsF hcodeF)
        (by simp) (by simp)
  | whileLoop sp t b o ih =>
    intro Γ Γ' items L h
    cases h with
    | whileLoop hvars hlen hformals hΔ hexits ht hb hr hupdated hcode hroles hnext hloop hfound _ _ =>
      have hloop' : LoopCode T Γ t b _ _ _ _ _ _ := ⟨hroles, hformals,
        ⟨_, _, _, _, _, _, _, _, _, hlen, hΔ, hexits, ht, hb, hupdated, hcode, hnext, hloop⟩, hfound⟩
      exact .pair (.append ht.bodies (hb.bodies_of ih)) (.next hloop') (.loop hloop') (by simp) (by simp)
  | foreign st hf =>
    intro Γ Γ' items L h
    cases h <;> simp [Stmt.isForeign] at hf

theorem BlockCode.bodies {b : List Stmt} {items : List Item} {L : List Made}
    (h : BlockCode T Γ b items L Γ') : ∀ m ∈ L, Among (BodyCode T) L m :=
  h.bodies_of fun st _ => StmtCode.bodies st

end Bodies

end Hoist.Lowering
