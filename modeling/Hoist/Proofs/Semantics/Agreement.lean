import Hoist.Proofs.Lowering.Scoped
import Hoist.Proofs.Semantics.Items
import Hoist.Proofs.Semantics.Related
import Hoist.Proofs.Semantics.Surface
import Hoist.Proofs.Surface.Tidy

/-!
# Agreeing environments

The bindings of names agree with the bindings of symbols, as a context sees them, when every name that
is visible has the value of the symbol it is read by, and no name that is not visible is bound. A
closure is related to the lambda it was lifted to when the values that the lambda has captured are
those of the names around the closure; then the two agree again when they are called.
-/

namespace Hoist

namespace Surface

/-- The names that the body of a function mentions. -/
def Code.mentions : Code → List String
  | .expr e => e.mentions
  | .block b => blockMentions b

/-- Whether the body of a function is tidy. -/
def Code.isTidy : Code → Bool
  | .expr _ => true
  | .block b => blockIsTidy b

end Surface

namespace Lowering

open Hoist.Flat (Symbol Node Location Table Lambda known readSymbol evals)
open Hoist.Surface (Expr Stmt Code)

/-- The code of the body of a function. -/
inductive FunctionCode (T : Table) (Δ : Ctx) : Code → Node → Prop
  | expr {e n L} (h : ExprCode T Δ e n L) : FunctionCode T Δ (.expr e) n
  | block {b items L Δ' n loc} (h : BlockCode T Δ b items L Δ') (hn : group items none loc = .ok n) :
      FunctionCode T Δ (.block b) n

/-- A closure and the lambda that it was lifted to, with the values of the names it captures. -/
inductive FnRel {α : Type} (T : Table) : Surface.Closure α → Flat.Fn α → Prop
  | mk {params : List String} {code : Code} {env : Surface.Bindings α} {l : Lambda} {Γ : Ctx}
      {own captured : List (String × Symbol)} {formals : List Symbol} {vs : List (Surface.Val α)}
      {ws : List (Flat.Val α)}
      (hlambda : T.find? l.ref = some l) (hbound : l.params = captured.map (·.2) ++ formals)
      (hformals : Formals T l.params) (hlen : params.length = formals.length)
      (hown : ∀ p ∈ own, p.2 ∈ formals ∨ p.2 = l.ref)
      (hparams : ∀ x ∈ code.mentions, own.lookup x = (paramBindings params formals).lookup x)
      (hbody : FunctionCode T (Γ.inner own captured formals) code l.body) (htidy : code.isTidy = true)
      (hvalues : captured.map (env.lookup ·.1) = vs.map some)
      (hrel : List.Forall₂ (Value.Rel (FnRel T)) vs ws)
      (hhidden : ∀ x ∈ code.mentions, Γ.visible x = false →
        env.lookup x = none ∧ T.contains (.global x) = false) :
      FnRel T ⟨params, code, env⟩ ⟨l.ref, ws⟩

/-- Values of the surface language and of flat code that differ in their functions at most. -/
abbrev ValRel {α : Type} (T : Table) : Surface.Val α → Flat.Val α → Prop := Value.Rel (FnRel T)

/-- The bindings of some names agree with those of the symbols by which a context reads them. -/
structure Agrees {α : Type} (T : Table) (names : List String) (Γ : Ctx) (env : Surface.Bindings α)
    (ρ : Flat.Bindings α) : Prop where
  sound : Γ.Sound T
  generated : ∀ p ∈ ρ, p.1.isGenerated = true
  visible : ∀ x ∈ names, Γ.visible x = true → ∀ a, Γ.sym x = some a →
    T.contains a = false ∧ ∃ v w, env.lookup x = some v ∧ ρ.get? a = some w ∧ ValRel T v w
  hidden : ∀ x ∈ names, Γ.visible x = false →
    env.lookup x = none ∧ T.contains (.global x) = false

section Bindings

variable {α : Type} {W : World α} {T : Table} {ρ : Flat.Bindings α} {a b : Symbol} {w : Flat.Val α}

theorem get?_cons_self : Flat.Bindings.get? ((a, w) :: ρ) a = some w := by
  simp [Flat.Bindings.get?]

theorem get?_cons_of_ne (h : b.same a = false) :
    Flat.Bindings.get? ((a, w) :: ρ) b = ρ.get? b := by
  rw [Symbol.same_comm] at h
  simp [Flat.Bindings.get?, h]

/-- A variable is read by its binding. -/
theorem readSymbol_of_get? (h : T.contains a = false) (ha : ρ.get? a = some w) :
    readSymbol W T ρ a = some w := by
  simp [readSymbol, h, ha]

theorem get?_plain (h : ∀ p ∈ ρ, p.1.isGenerated = true) (ha : a.isGenerated = false) :
    ρ.get? a = none := by
  unfold Flat.Bindings.get?
  rw [Option.map_eq_none_iff, List.find?_eq_none]
  intro p hp
  rw [Symbol.same_comm, Symbol.not_same_of_plain (h p hp) ha]
  exact Bool.false_ne_true

/-- Each of distinct symbols has the value that stands at its place. -/
theorem get?_zip_reverse {syms : List Symbol} {ws : List (Flat.Val α)}
    (hg : ∀ a ∈ syms, a.isGenerated = true)
    (hd : syms.Pairwise fun a b => a.token ≠ b.token) (h : (a, w) ∈ syms.zip ws) :
    Flat.Bindings.get? (syms.zip ws).reverse a = some w := by
  induction syms generalizing ws with
  | nil => cases h
  | cons b syms ih =>
    cases ws with
    | nil => cases h
    | cons u ws =>
      obtain ⟨hb, hd⟩ := List.pairwise_cons.1 hd
      unfold Flat.Bindings.get?
      rw [List.zip_cons_cons, List.reverse_cons, List.find?_append]
      rcases List.mem_cons.1 h with he | h
      · cases he
        have hnone : (syms.zip ws).reverse.find? (fun p => p.1.same a) = none := by
          rw [List.find?_eq_none]
          intro p hp
          have hm := (List.of_mem_zip (List.mem_reverse.1 hp)).1
          rw [Symbol.same_comm, Symbol.same_of_generated (hg _ (List.mem_cons_of_mem _ hm))]
          simpa using hb _ hm
        simp [hnone]
      · have := ih (fun a ha => hg a (List.mem_cons_of_mem _ ha)) hd h
        obtain ⟨p, hp, hw⟩ := Option.map_eq_some_iff.1 this
        rw [hp]
        simpa using hw

end Bindings

section Starts

variable {α : Type} {T : Table} {names xs : List String} {Γ : Ctx} {env env' : Surface.Bindings α}
  {ρ : Flat.Bindings α} {own captured : List (String × Symbol)} {formals : List Symbol}
  {vs as : List (Surface.Val α)} {ws bs : List (Flat.Val α)}

theorem lookup_captured {x : String} {a : Symbol}
    (hvalues : captured.map (env.lookup ·.1) = vs.map some)
    (hrel : List.Forall₂ (ValRel T) vs ws) (h : captured.lookup x = some a) :
    ∃ v w, env.lookup x = some v ∧ (a, w) ∈ (captured.map (·.2)).zip ws ∧ ValRel T v w := by
  induction captured generalizing vs ws with
  | nil => cases h
  | cons p captured ih =>
    obtain ⟨y, b⟩ := p
    cases hrel with
    | nil => cases hvalues
    | @cons v w vs ws hv hvs =>
      simp only [List.map_cons, List.cons.injEq] at hvalues
      rw [List.lookup_cons] at h
      split at h
      · rename_i he
        cases h
        cases eq_of_beq he
        exact ⟨v, w, hvalues.1, by simp, hv⟩
      · obtain ⟨v', w', h₁, h₂, h₃⟩ := ih hvalues.2 hvs h
        exact ⟨v', w', h₁, List.mem_cons_of_mem _ h₂, h₃⟩

theorem lookup_params {x : String} (hlen : xs.length = formals.length) (has : xs.length = as.length)
    (hrel : List.Forall₂ (ValRel T) as bs) :
    ((xs.zip as).reverse.lookup x = none ∧ (paramBindings xs formals).lookup x = none) ∨
      ∃ v w a, (xs.zip as).reverse.lookup x = some v ∧
        (paramBindings xs formals).lookup x = some a ∧ (a, w) ∈ formals.zip bs ∧ ValRel T v w := by
  unfold paramBindings
  induction xs generalizing formals as bs with
  | nil => exact .inl ⟨rfl, rfl⟩
  | cons y xs ih =>
    cases formals with
    | nil => cases hlen
    | cons a formals =>
      cases hrel with
      | nil => cases has
      | @cons v w as bs hv hvs =>
        simp only [List.zip_cons_cons, List.reverse_cons, List.lookup_append]
        rcases ih (by simpa using hlen) (by simpa using has) hvs with
          ⟨h₁, h₂⟩ | ⟨v', w', a', h₁, h₂, h₃, h₄⟩
        · rw [h₁, h₂]
          by_cases hx : x = y
          · exact .inr ⟨v, w, a, by simp [hx], by simp [hx], by simp, hv⟩
          · have : (x == y) = false := by simpa using hx
            exact .inl (by simp [List.lookup_cons, this])
        · rw [h₁, h₂]
          exact .inr ⟨v', w', a', rfl, rfl, List.mem_cons_of_mem _ h₃, h₄⟩

/-- Where a lambda begins, its parameters have the values of the names it captures and of its
arguments. -/
theorem Agrees.inner (hsound : (Γ.inner own captured formals).Sound T)
    (hformals : Formals T (captured.map (·.2) ++ formals)) (hlen : xs.length = formals.length)
    (hown : ∀ x ∈ names, own.lookup x = (paramBindings xs formals).lookup x)
    (hvalues : captured.map (env.lookup ·.1) = vs.map some)
    (hrel : List.Forall₂ (ValRel T) vs ws) (has : xs.length = as.length)
    (hargs : List.Forall₂ (ValRel T) as bs)
    (hhidden : ∀ x ∈ names, Γ.visible x = false →
      env.lookup x = none ∧ T.contains (.global x) = false) :
    Agrees T names (Γ.inner own captured formals) ((xs.zip as).reverse ++ env)
      ((captured.map (·.2) ++ formals).zip (ws ++ bs)).reverse := by
  have hzip : (captured.map (·.2) ++ formals).zip (ws ++ bs) =
      (captured.map (·.2)).zip ws ++ formals.zip bs := by
    refine List.zip_append ?_
    rw [← hrel.length_eq, List.length_map]
    simpa using congrArg List.length hvalues
  have hget : ∀ {a w}, (a, w) ∈ (captured.map (·.2)).zip ws ++ formals.zip bs →
      T.contains a = false ∧
        Flat.Bindings.get? ((captured.map (·.2) ++ formals).zip (ws ++ bs)).reverse a = some w := by
    intro a w h
    rw [← hzip] at h
    exact ⟨hformals.table a (List.of_mem_zip h).1,
      get?_zip_reverse hformals.generated hformals.distinct h⟩
  refine ⟨hsound, fun p hp => ?_, fun x hx hv a ha => ?_, fun x hx hv => ?_⟩
  · exact hformals.generated p.1 (List.of_mem_zip (List.mem_reverse.1 hp)).1
  · simp only [Ctx.inner, hown x hx] at ha
    rcases lookup_params (x := x) hlen has hargs with ⟨h₁, h₂⟩ | ⟨v, w, a', h₁, h₂, h₃, h₄⟩
    · rw [h₂, Option.none_or] at ha
      obtain ⟨v, w, hx', hm, hr⟩ := lookup_captured hvalues hrel ha
      obtain ⟨ht, hw⟩ := hget (List.mem_append_left _ hm)
      exact ⟨ht, v, w, by rw [List.lookup_append, h₁, Option.none_or, hx'], hw, hr⟩
    · rw [h₂, Option.some_or] at ha
      cases ha
      obtain ⟨ht, hw⟩ := hget (List.mem_append_right _ h₃)
      exact ⟨ht, v, w, by rw [List.lookup_append, h₁, Option.some_or], hw, h₄⟩
  · simp only [Ctx.inner, hown x hx, Bool.or_eq_false_iff] at hv
    rcases lookup_params (x := x) hlen has hargs with ⟨h₁, -⟩ | ⟨v, w, a', -, h₂, -, -⟩
    · rw [List.lookup_append, h₁, Option.none_or]
      exact hhidden x hx hv.2
    · rw [h₂] at hv
      cases hv.1

end Starts

namespace Agrees

variable {α : Type} {W : World α} {T : Table} {names xs reads : List String} {Γ Δ : Ctx}
  {env env' : Surface.Bindings α} {ρ : Flat.Bindings α} {x : String} {a : Symbol}
  {call : Flat.Fn α → List (Flat.Val α) → Option (Flat.Val α)} {syms : List Symbol}
  {loc : Option Location} (h : Agrees T names Γ env ρ)

include h

/-- Of the bindings of names, only what they make of the names matters. -/
theorem congr (he : ∀ x ∈ names, env'.lookup x = env.lookup x) : Agrees T names Γ env' ρ :=
  ⟨h.sound, h.generated, fun x hx => by rw [he x hx]; exact h.visible x hx,
    fun x hx => by rw [he x hx]; exact h.hidden x hx⟩

/-- A new symbol changes nothing for the others. -/
theorem get?_fresh {b : Symbol} {w : Flat.Val α} (ha : Fresh T Γ.bound a) (hx : Γ.sym x = some b) :
    Flat.Bindings.get? ((a, w) :: ρ) b = ρ.get? b :=
  get?_cons_of_ne (ha.ne_known (h.sound x b hx))

/-- A value that is bound to no name. -/
theorem hide {w : Flat.Val α} (ha : Fresh T Γ.bound a) :
    Agrees T names (Γ.hide a) env ((a, w) :: ρ) where
  sound := h.sound.hide
  generated p hp := by
    rcases List.mem_cons.1 hp with rfl | hp
    · exact ha.generated
    · exact h.generated p hp
  visible x hx hv b hb := by
    rw [h.get?_fresh ha hb]
    exact h.visible x hx hv b hb
  hidden := h.hidden

/-- A name and a new symbol are bound to related values. -/
theorem bind {v : Surface.Val α} {w : Flat.Val α} (ha : Fresh T Γ.bound a) (hv : ValRel T v w) :
    Agrees T names (Γ.bind x a) ((x, v) :: env) ((a, w) :: ρ) where
  sound := h.sound.bind
  generated p hp := by
    rcases List.mem_cons.1 hp with rfl | hp
    · exact ha.generated
    · exact h.generated p hp
  visible y hy hvis b hb := by
    simp only [Ctx.bind] at hvis hb
    rw [List.lookup_cons]
    split at hb
    · rename_i he
      cases hb
      subst he
      exact ⟨ha.table, v, w, by simp, get?_cons_self, hv⟩
    · rename_i he
      have hne : (y == x) = false := by simpa using he
      rw [hne, Bool.false_or] at hvis
      rw [hne, h.get?_fresh ha hb]
      exact h.visible y hy hvis b hb
  hidden y hy hvis := by
    simp only [Ctx.bind, Bool.or_eq_false_iff] at hvis
    rw [List.lookup_cons, hvis.1]
    exact h.hidden y hy hvis.2

/-- A name and the symbol by which it is read have related values, or none. -/
theorem read (hx : x ∈ names) (ha : Γ.symbol x = some a) :
    Option.Rel (ValRel T) (Surface.read W env x) (readSymbol W T ρ a) := by
  unfold Ctx.symbol at ha
  unfold Surface.read
  split at ha
  · rename_i hv
    obtain ⟨ht, v, w, hlookup, hw, hr⟩ := h.visible x hx hv a ha
    rw [hlookup, readSymbol_of_get? ht hw, Option.some_or]
    exact .some hr
  · rename_i hv
    cases ha
    obtain ⟨hlookup, ht⟩ := h.hidden x hx (by simpa using hv)
    have hget := get?_plain (a := .global x) h.generated rfl
    rw [hlookup, Option.none_or]
    simp only [readSymbol, ht, hget, Bool.false_eq_true, if_false]
    cases hg : W.global x with
    | none => simp [Symbol.global, Symbol.isGenerated, hg]
    | some v => simpa [Symbol.global, Symbol.isGenerated, hg] using Option.Rel.some (.lift v)

/-- Names that are visible and the symbols that they are read by have related values. -/
theorem readAll (hx : ∀ x ∈ xs, x ∈ names) (hs : Γ.Have xs syms) :
    ∃ vs ws, xs.map (env.lookup ·) = vs.map some ∧ List.Forall₂ (ValRel T) vs ws ∧
      ∀ W call loc, evals W T call ρ (syms.map (.ref loc)) = some ws := by
  obtain ⟨hvis, hsym⟩ := hs
  induction xs generalizing syms with
  | nil =>
    cases syms with
    | nil => exact ⟨[], [], rfl, .nil, fun _ _ _ => rfl⟩
    | cons a syms => cases hsym
  | cons x xs ih =>
    cases syms with
    | nil => cases hsym
    | cons a syms =>
      simp only [List.map_cons, List.cons.injEq] at hsym
      obtain ⟨ht, v, w, hv, hw, hr⟩ := h.visible x (hx x (by simp)) (hvis x (by simp)) a hsym.1
      obtain ⟨vs, ws, hvs, hrs, hws⟩ := ih (fun y hy => hx y (List.mem_cons_of_mem _ hy))
        (fun y hy => hvis y (List.mem_cons_of_mem _ hy)) hsym.2
      refine ⟨v :: vs, w :: ws, by simp [hv, hvs], .cons hr hrs, fun W call loc => ?_⟩
      simp [evals, Flat.eval, readSymbol_of_get? ht hw, hws]

/-- A lambda is lifted to a function that has captured the values of names around it. -/
theorem lifted {m : Made} {own : List (String × Symbol)} {formals : List Symbol} {n : Node}
    (hl : Lifted T Γ own reads formals Δ m n) (hreads : ∀ x ∈ reads, x ∈ names) :
    ∃ captured vs ws, T.find? m.lambda.ref = some m.lambda ∧
      m.lambda.params = captured.map (·.2) ++ formals ∧ Formals T m.lambda.params ∧
      Δ = Γ.inner own captured formals ∧
      captured.map (env.lookup ·.1) = vs.map some ∧ List.Forall₂ (ValRel T) vs ws ∧
      ∀ W call, Flat.eval W T call ρ n = some (.fn ⟨m.lambda.ref, ws⟩) := by
  cases hl with
  | @mk _ captured syms loc found bound params free read have_ =>
    have hnames : ∀ x ∈ captured.map (·.1), x ∈ names := by
      intro x hx
      obtain ⟨p, hp, rfl⟩ := List.mem_map.1 hx
      exact hreads p.1 (read p hp)
    obtain ⟨vs, ws, hvs, hrs, hws⟩ := h.readAll hnames have_
    refine ⟨captured, vs, ws, found, bound, params, rfl, by rw [← hvs, List.map_map]; rfl, hrs,
      fun W call => ?_⟩
    have href : T.contains m.lambda.ref = true := contains_of_find found
    have hws := hws W call loc
    unfold closureNode
    split
    · rename_i he
      rw [List.isEmpty_iff.1 he] at hws
      cases hws
      simp [Flat.eval, readSymbol, href]
    · simp [Flat.eval, hws]

/-- A function is related to the lambda that it is lifted to. -/
theorem function {m : Made} {own : List (String × Symbol)} {formals : List Symbol} {n : Node}
    {params : List String} {code : Code} {d : Direction} (hl : Lifted T Γ own reads formals Δ m n)
    (hlen : params.length = formals.length) (hbody : FunctionCode T Δ code m.lambda.body)
    (htidy : code.isTidy = true) (hm : code.mentions ⊆ names) (hreads : reads ⊆ code.mentions)
    (hown : ∀ p ∈ own, p.2 ∈ formals ∨ p.2 = m.lambda.ref)
    (hparams : ∀ x ∈ code.mentions, own.lookup x = (paramBindings params formals).lookup x) :
    Follows d (ValRel T) (some (.fn ⟨params, code, env⟩)) (Flat.eval W T call ρ n) := by
  obtain ⟨captured, vs, ws, hfind, hbound, hformals, rfl, hvalues, hrel, heval⟩ :=
    h.lifted hl fun x hx => hm (hreads hx)
  rw [heval]
  exact .some (.fn (.mk hfind hbound hformals hlen hown hparams hbody htidy hvalues hrel
    fun x hx => h.hidden x (hm hx)))

end Agrees

end Lowering

end Hoist
