import Hoist.Proofs.Lowering.Entry
import Hoist.Proofs.Lowering.Statements

/-!
# Finished units

When a unit is done, its table holds the lambda of the function and those of all bodies inside it. The
code of the function stands for its statements over that very table, and every lambda of it is closed.
-/

namespace Hoist.Lowering

open Hoist.Flat (Symbol Node Location Space Source Table Lambda)
open Hoist.Surface (Expr Stmt Params Module blockReads blockAssigns blockReturns blockDeclares)

/-- The context that the function of a unit begins in: it sees its parameters and itself. -/
def entryCtx (f : String) (xs : List String) (formals : List Symbol) : Ctx where
  visible x := x == f || xs.contains x
  sym x := (paramBindings xs formals ++ [(f, Symbol.global f)]).lookup x
  bound := formals

/-- A finished unit: the table holds the lambdas that come with the code of its function, and that of
the function. -/
structure Finished (T : Table) (f : String) (xs : List String) (b : List Stmt) (formals : List Symbol)
    (code : Node) (loc : Option Location) (items : List Item) (L : List Made) (Δ : Ctx) : Prop where
  length : xs.length = formals.length
  params : Formals T formals
  block : BlockCode T (entryCtx f xs formals) b items L Δ
  grouped : group items none loc = .ok code
  lambdas : T.lambdas = L.map (·.lambda) ++ [⟨.global f, formals, code, loc⟩]
  refs_ne : T.lambdas.Pairwise fun l m => l.ref.same m.ref = false

section Entries

variable {s t v w z : State} {env : Env} {loc : Option Location} {f : String} {ps : Params Expr}
  {ds : List Expr} {b : List Stmt} {items : List Item} {xs : List String} {formals : List Symbol}
  {code : Node}

theorem lookup_paramBindings_isSome (h : xs.length = formals.length) (x : String) :
    ((paramBindings xs formals).lookup x).isSome = xs.contains x := by
  unfold paramBindings
  induction xs generalizing formals with
  | nil => simp
  | cons y xs ih =>
    cases formals with
    | nil => cases h
    | cons a formals =>
      rw [List.zip_cons_cons, List.reverse_cons, List.lookup_append, Option.isSome_or,
        ih (by simpa using h)]
      by_cases hy : x = y
      · simp [hy]
      · have : (x == y) = false := by simpa using hy
        simp [List.lookup_cons, hy, this]

/-- Inside the function of a unit one sees its parameters and itself. -/
theorem entry_ctx {Γ : Ctx} (h : xs.length = formals.length) (hΓ : ∀ x, Γ.visible x = true ↔ x = f) :
    Γ.inner (paramBindings xs formals ++ [(f, .global f)]) [] formals = entryCtx f xs formals := by
  unfold Ctx.inner entryCtx
  congr 1
  · funext x
    have hx : Γ.visible x = (x == f) := by
      rw [Bool.eq_iff_iff, hΓ]
      simp
    simp only [hx, List.lookup_append, Option.isSome_or, lookup_paramBindings_isSome h]
    cases hxf : x == f <;> simp [List.lookup_cons, hxf]
  · funext x
    simp

theorem entryCtx_sound {T : Table} (f : String) (xs : List String) (formals : List Symbol) :
    (entryCtx f xs formals).Sound T := by
  intro x a ha
  obtain ⟨l₁, l₂, h, -⟩ := List.lookup_eq_some_iff.1 ha
  have hm : (x, a) ∈ paramBindings xs formals ++ [(f, Symbol.global f)] := by rw [h]; simp
  rcases functionBindings_mem hm with hm | rfl
  · exact known_of_mem hm
  · exact known_of_plain rfl

/-- The table of a unit is finished when the lambda of its function joins those defined inside. -/
theorem final_of_entry (hz : Valid z) (hadv : Advances v z)
    (htable : v.table = .empty) (formals : List Symbol) (code : Node) (loc : Option Location) :
    Final ⟨z.table.lambdas ++ [⟨.global f, formals, code, loc⟩]⟩ v z := by
  have hpos : ∀ l ∈ z.table.lambdas, 0 < l.ref.token := by
    intro l hl
    obtain ⟨new, hn, hlt⟩ := hadv.lambdas
    rw [hn, htable] at hl
    have := hlt l hl
    omega
  refine ⟨fun l hl => List.mem_append_left _ hl, fun l hl hlt _ => ?_, ?_⟩
  · rcases List.mem_append.1 hl with hl | hl
    · exact hl
    · obtain rfl := List.mem_singleton.1 hl
      cases hlt
  · refine List.pairwise_append.2 ⟨hz.refs_ne, by simp, fun l hl m hm => ?_⟩
    obtain rfl := List.mem_singleton.1 hm
    have := not_contains_global (f := f) hpos
    rw [Table.contains, List.any_eq_false] at this
    simpa using this l hl

theorem lowerFunction_finished (hx : env.expansions = []) (hs : Root s)
    (h : Yields (Lower.lowerFunction env loc f ps ds true (Lower.lowerBlock env b)) s items t) :
    ∃ formals code items L Δ, Finished t.table f ps.names b formals code loc items L Δ := by
  obtain ⟨a, u, v, hu, ho, hvisible, htable, hfree, hiff⟩ := entry_iff hx hs f ps ds b loc
  obtain ⟨-, formals, w, code, z, hw, hz, -, rfl⟩ := (hiff items t).1 h
  have hv := ho.valid hu
  have binds := bindFreshAll_code hw
  have e₁ := bindFreshAll_effect hv hw
  have htop : w.body.topLevel = false := by rw [binds.body, ho.body]
  have e₂ := functionBody_acts loc (lowerBlock_acts hx b) e₁.valid htop hz
  have hnil := hfree formals w code z hw hz
  have hadv := e₁.advances.trans e₂.advances
  have hT := final_of_entry (f := f) e₂.valid hadv (ho.table.trans htable) formals code loc
  have hcaught : Caught [] w z := ⟨.nil, by simp [hnil], by simp, fun _ => rfl⟩
  have hbounded : Bounded formals [] w := fun a ha => .inr (binds.named a ha).2
  obtain ⟨items', hblock, hgroup⟩ := functionBody_iff.1 hz
  obtain ⟨L, B', hadds, -, hcode⟩ := lowerBlock_emits hx b e₁.valid htop hblock
    (hT.behind e₁.advances) hcaught hbounded
  have hctx := binds.ctx (F := []) (B := []) [(f, .global f)] ho hu
    (fun x => @ownName_lookup (some f) (.global f) x) []
  rw [List.map_nil, List.nil_append, entry_ctx (Γ := u.ctx [] []) binds.length hvisible] at hctx
  rw [hctx] at hcode
  have hparams := binds.params hv (by rw [ho.body]) e₂.valid e₂.advances hT fun _ => hnil
  rw [hnil, List.map_nil, List.nil_append] at hparams
  have hlambdas : z.table.lambdas = L.map (·.lambda) := by
    rw [hadds, binds.table, ho.table, htable]
    rfl
  refine ⟨formals, code, items', L, _, binds.length, hparams, hcode, hgroup, ?_, hT.refs_ne⟩
  rw [← hlambdas]
  rfl

end Entries

namespace Finished

variable {T : Table} {f : String} {xs : List String} {b : List Stmt} {formals : List Symbol}
  {code : Node} {loc : Option Location} {items : List Item} {L : List Made} {Δ : Ctx}
  (h : Finished T f xs b formals code loc items L Δ)

include h

/-- The function of a unit is found by its name. -/
theorem find_entry : T.find? (.global f) = some ⟨.global f, formals, code, loc⟩ :=
  find_of_mem (l := ⟨.global f, formals, code, loc⟩) h.refs_ne (by rw [h.lambdas]; simp)

theorem find_made {m : Made} (hm : m ∈ L) : T.find? m.lambda.ref = some m.lambda :=
  find_of_mem h.refs_ne (by rw [h.lambdas]; exact List.mem_append_left _ (List.mem_map_of_mem hm))

theorem closed : ∀ l ∈ T.lambdas, l.isClosed T = true := by
  intro l hl
  rw [h.lambdas] at hl
  rcases List.mem_append.1 hl with hl | hl
  · obtain ⟨m, hm, rfl⟩ := List.mem_map.1 hl
    obtain ⟨M, -, hbody⟩ := h.block.bodies m hm
    exact hbody.isClosed
  · obtain rfl := List.mem_singleton.1 hl
    exact h.block.closed none (entryCtx_sound f xs formals) (by simp) h.grouped

end Finished

/-- A module that is lowered over an empty table leaves a finished unit. -/
theorem lowerModule_finished {opts : Options} {m : Module} {source : Source} {log : String}
    {entry : Symbol} (ht : opts.table = .empty) (hx : opts.expansions = [])
    (h : (lowerModule m source opts log).result = .ok entry) :
    ∃ sp f ps b ds formals code loc items L Δ, m.body = [.functionDef sp f ps b ds] ∧
      entry = .global f ∧
      Finished (lowerModule m source opts log).table f ps.names b formals code loc items L Δ := by
  obtain ⟨t, hy, htable⟩ := lowerModule_iff.1 ⟨h, rfl⟩
  obtain ⟨sp, f, ps, b, ds, items, hm, rfl, hf⟩ := lowerEntry_iff.1 hy
  obtain ⟨formals, code, items', L, Δ, hfinished⟩ :=
    lowerFunction_finished hx (rootState_root log ht) hf
  exact ⟨sp, f, ps, b, ds, formals, code, _, items', L, Δ, hm, rfl, htable ▸ hfinished⟩

end Hoist.Lowering
