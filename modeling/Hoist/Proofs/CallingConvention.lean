import Mathlib.Data.List.Pairwise
import Hoist.Proofs.ClosedTables
import Hoist.Proofs.Lowering.Arities
import Hoist.Proofs.Lowering.Projections

/-!
# How the lambdas of a unit are called

The lambdas made for branches and loops take the names they use as parameters, and each is named just
where it was made: by as many values as it takes, in the call that it was made for. Closures over functions
hold what the function captures, and the projections that are marked as unable to fail cannot.
-/

namespace Hoist.Flat

/-- Whether a lambda stands for a function of the source inside another one. -/
def Lambda.isInner (l : Lambda) : Bool := l.ref.isGenerated && l.ref.relation == ""

end Hoist.Flat

namespace Hoist.Lowering

open Hoist.Flat (Symbol Node Location Table Lambda)
open Hoist.Surface (Module Expr Stmt Params blockArities)

/-- A lambda for a function with some parameters of its own, behind those for what it captures: wherever
it is named, it gets just what it captures, unless it captures something and names itself. -/
structure Captures (T : Table) (own : Nat) (l : Lambda) : Prop where
  own_le : own ≤ l.params.length
  fits : ∀ k ∈ T.lambdas, ∀ x ∈ k.body.nodes, l.fits own (k.ref.same l.ref) x = true

/-- How the lambdas of a table are called, where `arities` are the numbers of parameters of the functions
inside the function of the unit. -/
structure FollowsConvention (T : Table) (arities : List Nat) : Prop where
  /-- A branch is named once, outside its own body, in the choice that calls it at once. -/
  branches : ∀ l ∈ T.lambdas, l.ref.relation = "then" ∨ l.ref.relation = "else" →
    l.body.count (Node.names l.ref) = 0 ∧ T.count (Node.names l.ref) = 1 ∧
      T.count (l.isPicked (l.ref.relation = "then")) = 1
  /-- The body of a loop is named once, by a closure over all its parameters. -/
  turns : ∀ l ∈ T.lambdas, l.ref.relation = "continue" →
    T.count (Node.names l.ref) = 1 ∧ T.count l.isPassed = 1
  /-- A loop is named by its two calls only, and chooses another turn over the parameters it has. -/
  loops : ∀ l ∈ T.lambdas, l.ref.relation = "loop" →
    T.count (Node.names l.ref) = 2 ∧ T.count l.isCalled = 2 ∧
      ∃ k ∈ T.lambdas, k.ref.relation = "continue" ∧ k.params = l.params ∧
        ∃ loc test exits, l.body = turnCode loc test k.ref l.params exits
  functions : List.Forall₂ (Captures T) arities (T.lambdas.filter (·.isInner))
  marked : ∀ k ∈ T.lambdas, ∀ c ∈ k.body.marked [], Secured T c

theorem entryCtx_shuns {T : Table} {l : Lambda} (hl : Defined T l) {f : String} {xs : List String}
    {formals : List Symbol} (hformals : Formals T formals) : (entryCtx f xs formals).Shuns l.ref := by
  intro x a ha
  unfold Ctx.symbol entryCtx at ha
  split at ha
  · obtain ⟨l₁, l₂, heq, -⟩ := List.lookup_eq_some_iff.1 ha
    have hm : (x, a) ∈ paramBindings xs formals ++ [(f, Symbol.global f)] := by rw [heq]; simp
    rcases functionBindings_mem hm with hm | rfl
    · exact hl.not_param hformals a hm
    · exact Symbol.not_same_of_plain hl.generated rfl
  · cases ha
    exact Symbol.not_same_of_plain hl.generated rfl

/-- A function has its own parameters behind those for what it captures. -/
theorem BodyCode.own_le {T : Table} {m : Made} {L : List Made} {k : Nat} (h : BodyCode T m L)
    (hrole : m.role = .function k) : k ≤ m.lambda.params.length := by
  have own : ∀ {Γ Δ : Ctx} {names : List (String × Symbol)} {reads : List String}
      {formals : List Symbol} {n : Node}, m.role = .function formals.length →
      Lifted T Γ names reads formals Δ m n → k ≤ m.lambda.params.length := by
    rintro Γ Δ names reads formals _ hrole' ⟨-, bound, -⟩
    rw [hrole] at hrole'
    cases hrole'
    simp [bound]
  cases h with
  | lambda h =>
    obtain ⟨hrole', hlen, hl, -⟩ := h
    exact own (hlen ▸ hrole') hl
  | function hrole' hlen hl _ _ => exact own (hlen ▸ hrole') hl
  | returns hrole' => simp [hrole] at hrole'
  | assigns hrole' => simp [hrole] at hrole'
  | next h => simp [h.roles.1] at hrole
  | loop h => simp [h.roles.2] at hrole

namespace Finished

variable {T : Table} {f : String} {xs : List String} {b : List Stmt} {formals : List Symbol}
  {code : Node} {loc : Option Location} {items : List Item} {L : List Made} {Δ : Ctx} {m : Made}
  (h : Finished T f xs b formals code loc items L Δ)

include h

theorem defined (hm : m ∈ L) : Defined T m.lambda := ⟨h.find_made hm, m.generated⟩

/-- The lambdas that come with the code of the function are called differently. -/
theorem distinct : L.Pairwise fun k m => k.lambda.ref.same m.lambda.ref = false := by
  have hne := h.refs_ne
  rw [h.lambdas] at hne
  exact List.pairwise_map.1 (List.pairwise_append.1 hne).1

theorem unique {k : Made} (hk : k ∈ L) (hm : m ∈ L) (hs : k.lambda.ref.same m.lambda.ref = true) :
    k = m := by
  by_contra hne
  have : Std.Symm fun a b : Made => a.lambda.ref.same b.lambda.ref = false :=
    ⟨fun a b hab => by rwa [Symbol.same_comm]⟩
  rw [h.distinct.forall hk hm hne] at hs
  cases hs

/-- Lambdas that are not for functions come with the code. -/
theorem made_of_relation {l : Lambda} (hl : l ∈ T.lambdas) (hne : l.ref.relation ≠ "") :
    ∃ m ∈ L, m.lambda = l := by
  rw [h.lambdas] at hl
  rcases List.mem_append.1 hl with hl | hl
  · exact List.mem_map.1 hl
  · obtain rfl := List.mem_singleton.1 hl
    exact absurd rfl hne

/-- A kind of nodes that is found just where a part of a conditional or of a loop is put is found there
once, or twice if the part is a loop. -/
theorem count_of_tracks {p : Node → Bool} (hm : m ∈ L) (hpart : IsPart T m.lambda)
    (hp : Tracks m.lambda p) : T.count p = if m.role = .loop then 2 else 1 := by
  obtain ⟨htally, -⟩ := h.block.tally hp hpart (entryCtx_shuns (h.defined hm) h.params)
  have hcode := hp.body h.grouped
  have htotal : T.count p = bodiesCount p L + code.count p := by
    simp [Table.count, bodiesCount, h.lambdas, Function.comp_def]
  rw [htotal, hcode, Option.elim_none, Nat.add_zero, Nat.add_comm, htally,
    weights_of_mem h.distinct hm]

theorem isPart (hm : m ∈ L) (hne : m.role.tag ≠ "") : IsPart T m.lambda :=
  { h.defined hm with tagged := m.named ▸ hne }

/-- A part of a conditional or of a loop is named where it is used, and nowhere else. -/
theorem named_and_used (hm : m ∈ L) (hne : m.role.tag ≠ "") :
    T.count (Node.names m.lambda.ref) = (if m.role = .loop then 2 else 1) ∧
      T.count m.lambda.isUsed = if m.role = .loop then 2 else 1 :=
  ⟨h.count_of_tracks hm (h.isPart hm hne) (names_tracks m.generated),
    h.count_of_tracks hm (h.isPart hm hne) (used_tracks m.generated)⟩

theorem branch_once (hm : m ∈ L) (hrole : m.role = .whenTrue ∨ m.role = .whenFalse) :
    m.lambda.body.count (Node.names m.lambda.ref) = 0 ∧ T.count (Node.names m.lambda.ref) = 1 ∧
      T.count (m.lambda.isPicked (m.lambda.ref.relation = "then")) = 1 := by
  have hne : m.role.tag ≠ "" := by rcases hrole with hr | hr <;> rw [hr] <;> decide
  have hloop : m.role ≠ .loop := by rcases hrole with hr | hr <;> rw [hr] <;> decide
  have hused : m.lambda.isUsed = m.lambda.isPicked (m.lambda.ref.relation = "then") := by
    rcases hrole with hr | hr <;> simp [Lambda.isUsed, m.named, hr, Role.tag]
  obtain ⟨hnames, huses⟩ := h.named_and_used hm hne
  rw [if_neg hloop] at hnames huses
  obtain ⟨L', hL, hbody⟩ := h.block.bodies m hm
  have hbefore := (List.pairwise_append.1 (h.distinct.sublist hL)).2.2
  exact ⟨hbody.names_self (h.isPart hm hne) hrole fun k hk => hbefore k hk m (by simp), hnames,
    hused ▸ huses⟩

theorem turn_once (hm : m ∈ L) (hrole : m.role = .next) :
    T.count (Node.names m.lambda.ref) = 1 ∧ T.count m.lambda.isPassed = 1 := by
  have hused : m.lambda.isUsed = m.lambda.isPassed := by simp [Lambda.isUsed, m.named, hrole, Role.tag]
  obtain ⟨hnames, huses⟩ := h.named_and_used hm (by rw [hrole]; decide)
  rw [if_neg (by rw [hrole]; decide)] at hnames huses
  exact ⟨hnames, hused ▸ huses⟩

theorem loop_twice (hm : m ∈ L) (hrole : m.role = .loop) :
    T.count (Node.names m.lambda.ref) = 2 ∧ T.count m.lambda.isCalled = 2 ∧
      ∃ k ∈ T.lambdas, k.ref.relation = "continue" ∧ k.params = m.lambda.params ∧
        ∃ loc test exits, m.lambda.body = turnCode loc test k.ref m.lambda.params exits := by
  have hused : m.lambda.isUsed = m.lambda.isCalled := by simp [Lambda.isUsed, m.named, hrole, Role.tag]
  obtain ⟨hnames, huses⟩ := h.named_and_used hm (by rw [hrole]; decide)
  rw [if_pos hrole] at hnames huses
  refine ⟨hnames, hused ▸ huses, ?_⟩
  obtain ⟨L', -, hbody⟩ := h.block.bodies m hm
  cases hbody with
  | lambda h =>
    obtain ⟨hrole', -⟩ := h
    simp [hrole] at hrole'
  | function hrole' => simp [hrole] at hrole'
  | returns hrole' => simp [hrole] at hrole'
  | assigns hrole' => simp [hrole] at hrole'
  | next h => simp [h.roles.1] at hrole
  | @loop _ _ _ next _ formals loc _ _ h =>
    obtain ⟨taken, given, exits, t', items, updated, code, Δ, Δ', -, -, -, -, -, -, -, hnext, hloop⟩ :=
      h.inside
    refine ⟨next.lambda, List.mem_of_find?_eq_some (h.found next (by simp)), ?_, ?_, loc, t', exits, ?_⟩
    · rw [next.named, h.roles.1]
      rfl
    · rw [hnext, hloop]
    · rw [hloop]

theorem captures {k : Nat} (hm : m ∈ L) (hrole : m.role = .function k) : Captures T k m.lambda := by
  have hnested : IsNested T L m k :=
    { h.defined hm with role := hrole, mem := hm, unique := fun _ hk hs => h.unique hk hm hs }
  obtain ⟨L', -, hbody⟩ := h.block.bodies m hm
  refine ⟨hbody.own_le hrole, fun l hl => ?_⟩
  rw [h.lambdas] at hl
  rcases List.mem_append.1 hl with hl | hl
  · obtain ⟨u, hu, rfl⟩ := List.mem_map.1 hl
    obtain ⟨L'', hL, hbody⟩ := h.block.bodies u hu
    exact hnested.body (fun v hv => hL.subset (List.mem_append_left _ hv)) hbody
  · obtain rfl := List.mem_singleton.1 hl
    refine fits_group (hnested.block (List.Subset.refl L) (.inr ?_) h.block).1 (by simp) h.grouped
    exact entryCtx_shuns (h.defined hm) h.params

/-- The functions inside, in the order of their definition, capture what they are not called with. -/
theorem functions : List.Forall₂ (Captures T) (blockArities b) (T.lambdas.filter (·.isInner)) := by
  have inner : ∀ L' ⊆ L, List.Forall₂ (Captures T) (L'.filterMap Made.arity?)
      ((L'.map (·.lambda)).filter (·.isInner)) := by
    intro L' hL'
    induction L' with
    | nil => exact .nil
    | cons m L' ih =>
      rw [List.cons_subset] at hL'
      have hinner : m.lambda.isInner = (m.role.tag == "") := by
        simp [Lambda.isInner, m.generated, m.named]
      rw [List.map_cons, List.filter_cons, List.filterMap_cons, hinner]
      cases hrole : m.role with
      | function k => simpa [Made.arity?, hrole, Role.tag] using ⟨h.captures hL'.1 hrole, ih hL'.2⟩
      | _ => simpa [Made.arity?, hrole, Role.tag] using ih hL'.2
  have := inner L (List.Subset.refl L)
  rw [h.block.arities] at this
  simpa [h.lambdas, Lambda.isInner, Symbol.global, Symbol.isGenerated] using this

theorem secured : ∀ l ∈ T.lambdas, ∀ c ∈ l.body.marked [], Secured T c := by
  intro l hl
  rw [h.lambdas] at hl
  rcases List.mem_append.1 hl with hl | hl
  · obtain ⟨m, hm, rfl⟩ := List.mem_map.1 hl
    obtain ⟨L', -, hbody⟩ := h.block.bodies m hm
    exact hbody.secured
  · obtain rfl := List.mem_singleton.1 hl
    rw [show Lambda.body ⟨.global f, formals, code, loc⟩ = code from rfl,
      group_marked (by simp) h.grouped]
    exact h.block.secured

theorem followsConvention : FollowsConvention T (blockArities b) where
  branches l hl hrelation := by
    obtain ⟨m, hm, rfl⟩ := h.made_of_relation hl (by rcases hrelation with hr | hr <;> simp [hr])
    rw [m.named] at hrelation
    exact h.branch_once hm (by cases hrole : m.role <;> simp [hrole, Role.tag] at hrelation ⊢)
  turns l hl hrelation := by
    obtain ⟨m, hm, rfl⟩ := h.made_of_relation hl (by simp [hrelation])
    rw [m.named] at hrelation
    exact h.turn_once hm (by cases hrole : m.role <;> simp [hrole, Role.tag] at hrelation ⊢)
  loops l hl hrelation := by
    obtain ⟨m, hm, rfl⟩ := h.made_of_relation hl (by simp [hrelation])
    rw [m.named] at hrelation
    exact h.loop_twice hm (by cases hrole : m.role <;> simp [hrole, Role.tag] at hrelation ⊢)
  functions := h.functions
  marked := h.secured

end Finished

/-- The lambdas of a unit follow the convention. -/
theorem lowerSource_followsConvention {source : Flat.Source} {issued : Nat} {verbose : Bool}
    {entry : Symbol}
    (h : (lowerSource source { issued := issued, verbose := verbose }).result = .ok entry) :
    ∃ m sp f ps b ds, Surface.readModule source.text = .ok m ∧ m.body = [.functionDef sp f ps b ds] ∧
      FollowsConvention (lowerSource source { issued := issued, verbose := verbose }).table
        (blockArities b) := by
  unfold lowerSource at h ⊢
  cases hm : Surface.readModule source.text with
  | error fault =>
    simp only [hm] at h
    cases h
  | ok m =>
    simp only [hm] at h
    obtain ⟨sp, f, ps, b, ds, formals, code, loc, items, L, Δ, hbody, -, hfinished⟩ :=
      lowerModule_finished rfl rfl h
    exact ⟨m, sp, f, ps, b, ds, rfl, hbody, hfinished.followsConvention⟩

/-- A unit with a function, both branches, a loop and a projection. -/
theorem countingUp_followsConvention :
    ((lowerSource countingUp {}).table.lambdas.map (·.ref.relation) =
        ["", "then", "else", "continue", "loop", ""] ∧
      (lowerSource countingUp {}).table.count Node.isMarked = 1) ∧
    ∃ m sp f ps b ds, Surface.readModule countingUp.text = .ok m ∧
      m.body = [.functionDef sp f ps b ds] ∧
      FollowsConvention (lowerSource countingUp {}).table (blockArities b) :=
  ⟨by decide +kernel, lowerSource_followsConvention countingUp_lowered⟩

end Hoist.Lowering
