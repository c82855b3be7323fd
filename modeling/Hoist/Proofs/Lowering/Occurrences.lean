import Hoist.Proofs.Lowering.Scoped
import Hoist.Proofs.Lowering.Grouped

/-!
# Where the lambdas of branches and loops occur

Names are never read by the lambda of a branch or of a loop, so such a lambda occurs only where it was
put when it was made: the lambdas of a conditional at its choice, the lambda of a turn in its loop, and
a loop where it is entered and at the end of a turn. A kind of nodes that is found at these places only
is counted by the lambdas that come with the code.
-/

namespace Hoist.Lowering

open Hoist.Flat (Symbol Node Location Table Lambda allOver allOver_iff)
open Hoist.Surface (Expr Stmt Params blockReads blockAssigns blockReturns)

section Shunning

variable {T : Table} {Γ Γ' Δ : Ctx} {a b : Symbol} {l : Lambda} {m : Made} {x : String}
  {own : List (String × Symbol)} {xs : List String} {formals syms : List Symbol} {n : Node}

/-- No name is read by a symbol. -/
def Ctx.Shuns (Γ : Ctx) (a : Symbol) : Prop := ∀ x b, Γ.symbol x = some b → b.same a = false

/-- What is no lambda is not called like one. -/
theorem not_same_of_contains (ha : T.contains a = true) (hg : a.isGenerated = true)
    (hb : T.contains b = false) : b.same a = false := by
  rw [Symbol.same_of_generated hg, beq_eq_false_iff_ne]
  intro he
  have hg' : b.isGenerated = true := by
    rw [Symbol.isGenerated] at hg ⊢
    rwa [he]
  have : T.contains b = T.contains a := by
    simp only [Table.contains, Symbol.same_of_generated hg, Symbol.same_of_generated hg', he]
  rw [ha, hb] at this
  cases this

/-- Lambdas that are called alike are one. -/
theorem eq_of_same {l k : Lambda} (hl : T.find? l.ref = some l) (hk : T.find? k.ref = some k)
    (hg : k.ref.isGenerated = true) (h : l.ref.same k.ref = true) : l = k := by
  rw [Symbol.same_of_generated hg, beq_iff_eq] at h
  have hg' : l.ref.isGenerated = true := by
    rw [Symbol.isGenerated] at hg ⊢
    rwa [h]
  have hfind : T.find? l.ref = T.find? k.ref := by
    simp only [Table.find?, Symbol.same_of_generated hg, Symbol.same_of_generated hg', h]
  rw [hl, hk] at hfind
  exact Option.some.inj hfind

namespace Ctx.Shuns

theorem bind (h : Γ.Shuns a) (hb : b.same a = false) : (Γ.bind x b).Shuns a := by
  intro y c hc
  unfold Ctx.symbol Ctx.bind at hc
  by_cases hy : y = x
  · simp only [hy, beq_self_eq_true, Bool.true_or, if_true, Option.some.injEq] at hc
    exact hc ▸ hb
  · have hne : (y == x) = false := by simpa using hy
    simp only [hne, Bool.false_or, hy, if_false] at hc
    exact h y c hc

theorem hide (h : Γ.Shuns a) : (Γ.hide b).Shuns a := fun y c hc => h y c hc

theorem inner {captured : List (String × Symbol)} (hg : a.isGenerated = true)
    (hown : ∀ p ∈ own, p.2.same a = false) (hcaptured : ∀ p ∈ captured, p.2.same a = false) :
    (Γ.inner own captured formals).Shuns a := by
  intro y c hc
  unfold Ctx.symbol Ctx.inner at hc
  split at hc
  · rcases Option.or_eq_some_iff.1 hc with hc | ⟨-, hc⟩
    · obtain ⟨l₁, l₂, rfl, -⟩ := List.lookup_eq_some_iff.1 hc
      exact hown (y, c) (by simp)
    · obtain ⟨l₁, l₂, rfl, -⟩ := List.lookup_eq_some_iff.1 hc
      exact hcaptured (y, c) (by simp)
  · cases hc
    exact Symbol.not_same_of_plain hg rfl

theorem have_ (h : Γ.Shuns a) (hs : Γ.Have xs syms) : ∀ b ∈ syms, b.same a = false := by
  intro b hb
  obtain ⟨y, hy⟩ := hs.symbol b hb
  exact h y b hy

end Ctx.Shuns

/-- A lambda that was made for a table. -/
structure Defined (T : Table) (l : Lambda) : Prop where
  found : T.find? l.ref = some l
  generated : l.ref.isGenerated = true

namespace Defined

variable (hl : Defined T l)

include hl

theorem contains : T.contains l.ref = true := contains_of_find hl.found

theorem fresh {B : List Symbol} (hb : Fresh T B b) : b.same l.ref = false :=
  not_same_of_contains hl.contains hl.generated hb.table

/-- A lambda that is called like one is that one. -/
theorem eq_of_same (hm : T.find? m.lambda.ref = some m.lambda)
    (h : m.lambda.ref.same l.ref = true) : m.lambda = l :=
  Lowering.eq_of_same hm hl.found hl.generated h

theorem not_same (hm : T.find? m.lambda.ref = some m.lambda) (h : m.role.tag ≠ l.ref.relation) :
    m.lambda.ref.same l.ref = false := by
  cases hs : m.lambda.ref.same l.ref with
  | false => rfl
  | true => exact absurd (by rw [← m.named, hl.eq_of_same hm hs]) h

theorem not_param (h : Formals T formals) : ∀ b ∈ formals, b.same l.ref = false := fun b hb =>
  not_same_of_contains hl.contains hl.generated (h.table b hb)

/-- Inside a lambda no name is read by another one, as its parameters are none. -/
theorem lifted (h : Lifted T Γ own xs formals Δ m n)
    (hown : ∀ p ∈ own, p.2 ∈ formals ∨ p.2.same l.ref = false) : Δ.Shuns l.ref := by
  cases h with
  | mk found bound params free read have_ =>
    rw [bound] at params
    have hparams := hl.not_param params
    refine .inner hl.generated (fun p hp => ?_) fun p hp => ?_
    · rcases hown p hp with hf | hf
      · exact hparams _ (List.mem_append_right _ hf)
      · exact hf
    · exact hparams _ (List.mem_append_left _ (List.mem_map_of_mem hp))

theorem loop {taken : List String} (hformals : Formals T formals) :
    (Γ.inner (paramBindings taken formals) [] formals).Shuns l.ref :=
  .inner hl.generated (fun p hp => hl.not_param hformals _ (paramBindings_mem hp)) (by simp)

end Defined

/-- A lambda that was made for a part of a conditional or of a loop. -/
structure IsPart (T : Table) (l : Lambda) : Prop extends Defined T l where
  tagged : l.ref.relation ≠ ""

namespace IsPart

variable (hl : IsPart T l)

include hl

theorem function {k : Nat} (hm : T.find? m.lambda.ref = some m.lambda) (h : m.role = .function k) :
    m.lambda.ref.same l.ref = false :=
  hl.not_same hm (by rw [h]; exact hl.tagged.symm)

theorem covers (hΓ : Γ.Shuns l.ref) : Γ.Covers T (!·.same l.ref) where
  builtin f := by simp [Symbol.not_same_of_plain hl.generated (b := .builtin f) rfl]
  symbol x a ha := by simp [hΓ x a ha]
  function m k hm hrole := by simp [hl.function hm hrole]

end IsPart

end Shunning

section Tracking

variable {T : Table} {Γ Γ' Δ : Ctx} {a b : Symbol} {l : Lambda} {m : Made} {x : String}
  {xs : List String} {formals syms exits : List Symbol} {n t whenTrue whenFalse : Node}
  {loc : Option Location} {L R : List Made} {items : List Item} {p : Node → Bool}

/-- How often a lambda occurs where lambdas like another one occur: a loop is entered, and entered again
at the end of each turn. -/
def Made.weight (l : Lambda) (m : Made) : Nat :=
  if m.lambda.ref.same l.ref then (if m.role = .loop then 2 else 1) else 0

/-- The number of nodes of a kind in the bodies of lambdas. -/
def bodiesCount (p : Node → Bool) (L : List Made) : Nat := (L.map (·.lambda.body.count p)).sum

/-- How often lambdas like one occur in the code that comes with some lambdas. -/
def weights (l : Lambda) (L : List Made) : Nat := (L.map (Made.weight l)).sum

theorem bodiesCount_append : bodiesCount p (L ++ R) = bodiesCount p L + bodiesCount p R := by
  simp [bodiesCount]

theorem weights_append : weights l (L ++ R) = weights l L + weights l R := by
  simp [weights]

/-- Code without `let` that does not name a lambda. -/
def Clear (l : Lambda) (n : Node) : Prop := n.isOver (!·.same l.ref) = true

/-- The value of a lambda that captures all its parameters. -/
inductive Captured (l : Lambda) : Node → Prop
  | mk {place : Option Location} {values : List Symbol} (clear : ∀ b ∈ values, b.same l.ref = false)
      (length : values.length = l.params.length) :
      Captured l (closureNode place l.ref (values.map (.ref place)))

/-- A kind of nodes that is found just where a lambda is put. -/
structure Tracks (l : Lambda) (p : Node → Bool) : Prop where
  letIn : ∀ loc bs b, p (.letIn loc bs b) = false
  begin : ∀ loc ns, p (.begin loc ns) = false
  clear : ∀ {n}, Clear l n → n.count p = 0
  whenTrue : ∀ {loc t x y}, l.ref.relation = "then" → Clear l t → Captured l x → Clear l y →
    (branchCall t x y loc).count p = 1
  whenFalse : ∀ {loc t x y}, l.ref.relation = "else" → Clear l t → Clear l x → Captured l y →
    (branchCall t x y loc).count p = 1
  next : ∀ {loc t exits}, l.ref.relation = "continue" → Clear l t →
    (∀ b ∈ l.params, b.same l.ref = false) → (∀ b ∈ exits, b.same l.ref = false) →
    (turnCode loc t l.ref l.params exits).count p = 1
  loop : ∀ {loc loc'} {syms : List Symbol}, l.ref.relation = "loop" →
    (∀ b ∈ syms, b.same l.ref = false) → syms.length = l.params.length →
    (Node.apply loc (.ref loc l.ref) (syms.map (.ref loc')) false).count p = 1

theorem map_count_refs (loc : Option Location) (h : ∀ b ∈ syms, p (.ref loc b) = false) :
    ((syms.map (.ref loc)).map (Node.count p)).sum = 0 := by
  induction syms with
  | nil => rfl
  | cons b syms ih =>
    have hsyms := ih fun c hc => h c (List.mem_cons_of_mem _ hc)
    rw [List.map_cons, List.map_cons, List.sum_cons, hsyms, Node.count_ref, h b (by simp)]
    rfl

/-- The value of a lambda names it once. -/
theorem closureNode_names (h : ∀ b ∈ syms, b.same l.ref = false) :
    (closureNode loc l.ref (syms.map (.ref loc))).count (Node.names l.ref) = 1 := by
  have hrefs : ((syms.map (Node.ref loc)).map (Node.count (Node.names l.ref))).sum = 0 :=
    map_count_refs loc h
  unfold closureNode
  split
  · simp [Node.count_ref, Node.names]
  · rw [Node.count_closure, hrefs]
    simp [Node.names]

theorem count_branchCall (p : Node → Bool) (t x y : Node) (loc : Option Location) :
    (branchCall t x y loc).count p = t.count p + x.count p + y.count p +
      (Node.ref loc Flat.switch).count p +
      (if p (.apply loc (.ref loc Flat.switch) [t, x, y] false) then 1 else 0) +
      (if p (branchCall t x y loc) then 1 else 0) := by
  unfold branchCall
  simp only [Node.count_apply, List.map_cons, List.map_nil, List.sum_cons, List.sum_nil]
  omega

theorem names_tracks (hg : l.ref.isGenerated = true) : Tracks l (Node.names l.ref) where
  letIn _ _ _ := rfl
  begin _ _ := rfl
  clear := Node.count_names_of_isOver
  whenTrue := by
    rintro loc t x y - ht ⟨hsyms, -⟩ hy
    have hswitch := Symbol.not_same_of_plain (b := Flat.switch) hg rfl
    rw [count_branchCall, Node.count_names_of_isOver ht, Node.count_names_of_isOver hy,
      closureNode_names hsyms]
    simp [Node.names, Node.count_ref, hswitch, branchCall]
  whenFalse := by
    rintro loc t x y - ht hx ⟨hsyms, -⟩
    have hswitch := Symbol.not_same_of_plain (b := Flat.switch) hg rfl
    rw [count_branchCall, Node.count_names_of_isOver ht, Node.count_names_of_isOver hx,
      closureNode_names hsyms]
    simp [Node.names, Node.count_ref, hswitch, branchCall]
  next := by
    rintro loc t exits - ht hparams hexits
    have hswitch := Symbol.not_same_of_plain (b := Flat.switch) hg rfl
    have hidentity := Symbol.not_same_of_plain (b := Flat.identity) hg rfl
    have hrefs := map_count_refs (p := Node.names l.ref) loc hparams
    have hrefs' := map_count_refs (p := Node.names l.ref) loc hexits
    rw [turnCode, count_branchCall, Node.count_names_of_isOver ht]
    simp only [Node.count_closure, Node.count_tuple, hrefs, hrefs', List.map_cons, List.map_nil,
      List.sum_cons, List.sum_nil, Node.count_ref]
    simp [Node.names, hswitch, hidentity, branchCall]
  loop := by
    rintro loc loc' syms - hsyms -
    have hrefs := map_count_refs (p := Node.names l.ref) loc' hsyms
    rw [Node.count_apply, hrefs]
    simp [Node.count_ref, Node.names]

/-- A use of a lambda names it. -/
theorem names_of_used {n : Node} (h : l.isUsed n = true) :
    ∃ y ∈ n.nodes, y.names l.ref = true := by
  have value : ∀ {y : Node}, l.isValue y = true → y.names l.ref = true := by
    intro y hy
    cases y <;> simp_all [Lambda.isValue, Node.names]
  have picked : ∀ {first}, l.isPicked first n = true → ∃ y ∈ n.nodes, y.names l.ref = true := by
    intro first hn
    unfold Lambda.isPicked at hn
    split at hn
    · rename_i x y _
      rw [Bool.and_eq_true] at hn
      refine ⟨_, ?_, value hn.2⟩
      cases first <;> simp [Node.nodes, Node.allNodes, Node.mem_nodes_self]
    · cases hn
  unfold Lambda.isUsed at h
  split at h
  · exact picked h
  · split at h
    · exact picked h
    · split at h
      · unfold Lambda.isPassed at h
        split at h
        · rw [Bool.and_eq_true] at h
          exact ⟨_, Node.mem_nodes_self _, h.1⟩
        · cases h
      · unfold Lambda.isCalled at h
        split at h
        · rename_i place a args safe
          rw [Bool.and_eq_true] at h
          exact ⟨.ref place a, by simp [Node.nodes], h.1⟩
        · cases h

/-- The value of a lambda is nothing but a closure over variables, or a variable. -/
theorem Captured.count_eq_zero {x : Node} (h : Captured l x) (href : ∀ loc b, p (.ref loc b) = false)
    (hclosure : ∀ loc b ns, p (.closure loc b ns) = false) : x.count p = 0 := by
  cases h with
  | @mk loc captured _ _ =>
    unfold closureNode
    split
    · simp [Node.count_ref, href]
    · rw [Node.count_closure, map_count_refs loc fun b _ => href loc b]
      simp [hclosure]

theorem Captured.isValue {x : Node} (h : Captured l x) : l.isValue x = true := by
  cases h with
  | @mk loc captured _ hlen =>
    unfold closureNode
    split
    · rename_i he
      obtain rfl : captured = [] := by simpa using he
      simpa [Lambda.isValue] using hlen.symm
    · simp [Lambda.isValue, hlen]

theorem used_tracks (hg : l.ref.isGenerated = true) : Tracks l l.isUsed where
  letIn _ _ _ := by
    unfold Lambda.isUsed
    split_ifs <;> rfl
  begin _ _ := by
    unfold Lambda.isUsed
    split_ifs <;> rfl
  clear h := Node.count_eq_zero_of_isOver (fun _ => names_of_used) h
  whenTrue := by
    intro loc t x y htag ht hx hy
    have hused : l.isUsed = l.isPicked true := by simp [Lambda.isUsed, htag]
    have clear := fun n (h : Clear l n) => Node.count_eq_zero_of_isOver (fun _ => names_of_used) h
    rw [hused] at clear ⊢
    rw [count_branchCall, clear t ht, clear y hy, hx.count_eq_zero (fun _ _ => rfl) fun _ _ _ => rfl]
    simp [Node.count_ref, Lambda.isPicked, branchCall, hx.isValue]
  whenFalse := by
    intro loc t x y htag ht hx hy
    have hused : l.isUsed = l.isPicked false := by simp [Lambda.isUsed, htag]
    have clear := fun n (h : Clear l n) => Node.count_eq_zero_of_isOver (fun _ => names_of_used) h
    rw [hused] at clear ⊢
    rw [count_branchCall, clear t ht, clear x hx, hy.count_eq_zero (fun _ _ => rfl) fun _ _ _ => rfl]
    simp [Node.count_ref, Lambda.isPicked, branchCall, hy.isValue]
  next := by
    intro loc t exits htag ht _ _
    have hused : l.isUsed = l.isPassed := by simp [Lambda.isUsed, htag]
    have clear := fun n (h : Clear l n) => Node.count_eq_zero_of_isOver (fun _ => names_of_used) h
    rw [hused] at clear ⊢
    rw [turnCode, count_branchCall, clear t ht]
    have hrefs := map_count_refs (p := l.isPassed) loc fun b (_ : b ∈ l.params) => rfl
    have hrefs' := map_count_refs (p := l.isPassed) loc fun b (_ : b ∈ exits) => rfl
    simp only [Node.count_closure, Node.count_tuple, hrefs, hrefs', List.map_cons, List.map_nil,
      List.sum_cons, List.sum_nil, Node.count_ref]
    have hidentity := Symbol.not_same_of_plain (b := Flat.identity) hg rfl
    simp [Lambda.isPassed, branchCall, hidentity]
  loop := by
    intro loc loc' syms htag _ hlen
    have hused : l.isUsed = l.isCalled := by simp [Lambda.isUsed, htag]
    rw [hused, Node.count_apply, map_count_refs loc' fun _ _ => rfl]
    simp [Node.count_ref, Lambda.isCalled, hlen]

end Tracking

section Tallying

variable {T : Table} {Γ Γ' Δ ΔT ΔF : Ctx} {l : Lambda} {m mT mF next loop : Made} {xs ys : List String}
  {own : List (String × Symbol)} {formals syms exits : List Symbol} {n t nT nF : Node}
  {loc : Option Location} {L R : List Made} {items : List Item} {p : Node → Bool}

theorem weight_of_not_same (h : m.lambda.ref.same l.ref = false) : m.weight l = 0 := by
  simp [Made.weight, h]

theorem weight_of_same (h : m.lambda.ref.same l.ref = true) (hrole : m.role ≠ .loop) :
    m.weight l = 1 := by
  simp [Made.weight, h, hrole]

theorem Lifted.clear (hl : IsPart T l) (hΓ : Γ.Shuns l.ref) (h : Lifted T Γ own xs formals Δ m n)
    (hne : m.lambda.ref.same l.ref = false) : Clear l n :=
  h.covered (hl.covers hΓ) (by simp [hne])

theorem Lifted.captured (hΓ : Γ.Shuns l.ref) (h : Lifted T Γ own xs [] Δ m n) (hm : m.lambda = l) :
    Captured l n := by
  cases h with
  | mk found bound params free read have_ =>
    subst hm
    refine .mk (hΓ.have_ have_) ?_
    rw [bound, ← have_.length]
    simp

theorem clear_branchCall (hl : IsPart T l) (ht : Clear l t) (hT : Clear l nT) (hF : Clear l nF) :
    Clear l (branchCall t nT nF loc) := by
  unfold Clear at ht hT hF ⊢
  rw [isOver_branchCall (by simp [Symbol.not_same_of_plain hl.generated (b := Flat.switch) rfl])]
  simp [ht, hT, hF]

theorem clear_ref {b : Symbol} (h : b.same l.ref = false) : Clear l (.ref loc b) := by
  simp [Clear, Node.isOver, h]

theorem clear_invoke {f : String} {ns : List Node} (hl : IsPart T l) (h : ∀ n ∈ ns, Clear l n) :
    Clear l (invoke loc (.builtin f) ns) := by
  rw [Clear, isOver_invoke (by simp [Symbol.not_same_of_plain (b := .builtin f) hl.generated rfl])]
  exact allOver_iff.2 h

theorem clear_refs (h : ∀ b ∈ syms, b.same l.ref = false) :
    allOver (!·.same l.ref) (syms.map (.ref loc)) = true :=
  allOver_refs fun b hb => by simp [h b hb]

theorem Tracks.packed (hp : Tracks l p) (h : ∀ b ∈ syms, b.same l.ref = false)
    (loc : Option Location) : (packed loc syms).count p = 0 :=
  hp.clear (isOver_packed fun b hb => by simp [h b hb])

/-- The choice of a conditional holds the lambdas of its branches. -/
theorem Tracks.branch (hp : Tracks l p) (hl : IsPart T l) (hΓ : Γ.Shuns l.ref) (ht : Clear l t)
    (hroles : mT.role = .whenTrue ∧ mF.role = .whenFalse) (hT : Lifted T Γ [] xs [] ΔT mT nT)
    (hF : Lifted T Γ [] ys [] ΔF mF nF) :
    (branchCall t nT nF loc).count p = mT.weight l + mF.weight l := by
  have tagT : mT.role.tag = "then" := by rw [hroles.1]; rfl
  have tagF : mF.role.tag = "else" := by rw [hroles.2]; rfl
  cases hsT : mT.lambda.ref.same l.ref with
  | true =>
    have heq := hl.eq_of_same hT.find hsT
    have hrelation : l.ref.relation = "then" := by rw [← heq, mT.named, tagT]
    have hsF : mF.lambda.ref.same l.ref = false :=
      hl.not_same hF.find (by rw [tagF, hrelation]; decide)
    rw [hp.whenTrue hrelation ht (hT.captured hΓ heq) (hF.clear hl hΓ hsF),
      weight_of_same hsT (by simp [hroles.1]), weight_of_not_same hsF]
  | false =>
    rw [weight_of_not_same hsT]
    cases hsF : mF.lambda.ref.same l.ref with
    | true =>
      have heq := hl.eq_of_same hF.find hsF
      have hrelation : l.ref.relation = "else" := by rw [← heq, mF.named, tagF]
      rw [hp.whenFalse hrelation ht (hT.clear hl hΓ hsT) (hF.captured hΓ heq),
        weight_of_same hsF (by simp [hroles.2])]
    | false =>
      rw [weight_of_not_same hsF]
      exact hp.clear (clear_branchCall hl ht (hT.clear hl hΓ hsT) (hF.clear hl hΓ hsF))

/-- Each of the two calls of a loop holds its lambda. -/
theorem Tracks.call (hp : Tracks l p) (hl : IsPart T l)
    (hfound : T.find? loop.lambda.ref = some loop.lambda) (hrole : loop.role = .loop)
    (hsyms : ∀ b ∈ syms, b.same l.ref = false) (hlen : syms.length = loop.lambda.params.length)
    (loc : Option Location) :
    2 * (Node.apply loc (.ref loc loop.lambda.ref) (syms.map (.ref loc)) false).count p =
      loop.weight l := by
  cases hs : loop.lambda.ref.same l.ref with
  | true =>
    have heq := hl.eq_of_same hfound hs
    have hrelation : l.ref.relation = "loop" := by rw [← heq, loop.named, hrole]; rfl
    subst heq
    rw [hp.loop hrelation hsyms hlen]
    simp [Made.weight, hrole]
  | false =>
    rw [weight_of_not_same hs, hp.clear]
    simp [Clear, Node.isOver, hs, clear_refs hsyms]

/-- The choice of the next turn holds the lambda of the turn. -/
theorem Tracks.turn (hp : Tracks l p) (hl : IsPart T l)
    (hfound : T.find? next.lambda.ref = some next.lambda) (hrole : next.role = .next)
    (ht : Clear l t) (hformals : ∀ b ∈ next.lambda.params, b.same l.ref = false)
    (hexits : ∀ b ∈ exits, b.same l.ref = false) (loc : Option Location) :
    (turnCode loc t next.lambda.ref next.lambda.params exits).count p = next.weight l := by
  cases hs : next.lambda.ref.same l.ref with
  | true =>
    have heq := hl.eq_of_same hfound hs
    have hrelation : l.ref.relation = "continue" := by rw [← heq, next.named, hrole]; rfl
    rw [weight_of_same hs (by simp [hrole])]
    subst heq
    exact hp.next hrelation ht hformals hexits
  | false =>
    have hidentity := Symbol.not_same_of_plain (b := Flat.identity) hl.generated rfl
    rw [weight_of_not_same hs, hp.clear]
    refine clear_branchCall hl ht ?_ ?_
    · simp [Clear, Node.isOver, hs, clear_refs hformals]
    · simp [Clear, Node.isOver, allOver, hidentity, clear_refs hexits]

theorem Unpacks.tally {tuple : Symbol} {i : Nat} (hp : Tracks l p) (hl : IsPart T l)
    (h : Unpacks T tuple i Γ xs items Γ') (hΓ : Γ.Shuns l.ref) (htuple : tuple.same l.ref = false) :
    itemsCount p items = 0 ∧ Γ'.Shuns l.ref := by
  have hindex := Symbol.not_same_of_plain (b := Flat.index) hl.generated rfl
  induction h with
  | nil => exact ⟨rfl, hΓ⟩
  | cons ha _ ih =>
    obtain ⟨hitems, hΓ'⟩ := ih (hΓ.bind (hl.fresh ha))
    refine ⟨?_, hΓ'⟩
    rw [← List.singleton_append, itemsCount_append, itemsCount_singleton, hitems, Item.node,
      hp.clear (isOver_projection (by simp [hindex]) (by simp [htuple]))]

theorem Unpacked.tally (hp : Tracks l p) (hl : IsPart T l) (h : Unpacked T Γ xs n items Γ')
    (hΓ : Γ.Shuns l.ref) : itemsCount p items = n.count p ∧ Γ'.Shuns l.ref := by
  cases h with
  | mk htmp h =>
    obtain ⟨hitems, hΓ'⟩ := h.tally hp hl hΓ.hide (hl.fresh htmp)
    refine ⟨?_, hΓ'⟩
    rw [← List.singleton_append, itemsCount_append, itemsCount_singleton, hitems]
    rfl

theorem Results.tally (hp : Tracks l p) (hl : IsPart T l) (h : Results T Γ n xs items Γ')
    (hΓ : Γ.Shuns l.ref) : itemsCount p items = n.count p ∧ Γ'.Shuns l.ref := by
  cases h with
  | nil ha => exact ⟨itemsCount_singleton, hΓ.hide⟩
  | one ha => exact ⟨itemsCount_singleton, hΓ.bind (hl.fresh ha)⟩
  | many hlen h => exact h.tally hp hl hΓ

theorem ExprCode.clear {e : Expr} (hl : IsPart T l) (h : ExprCode T Γ e n L) (hΓ : Γ.Shuns l.ref) :
    Clear l n := h.covered (hl.covers hΓ)

/-- Nothing occurs in the lambdas of an expression. -/
theorem ExprCode.tally {e : Expr} (hp : Tracks l p) (hl : IsPart T l) (h : ExprCode T Γ e n L) :
    bodiesCount p L = 0 ∧ weights l L = 0 := by
  have hlambda : ∀ m ∈ L, m.lambda.body.count p = 0 ∧ m.weight l = 0 := by
    intro m hm
    obtain ⟨L', -, ⟨hrole, hlen, hlifted, hb⟩⟩ := ExprCode.lambdas e h m hm
    have hne := hl.function hlifted.find hrole
    have hΔ := hl.lifted hlifted fun q hq => .inl (paramBindings_mem hq)
    exact ⟨hp.clear (hb.clear hl hΔ), weight_of_not_same hne⟩
  clear h
  induction L with
  | nil => exact ⟨rfl, rfl⟩
  | cons m L ih =>
    obtain ⟨hb, hw⟩ := ih fun m' hm => hlambda m' (List.mem_cons_of_mem _ hm)
    obtain ⟨hb', hw'⟩ := hlambda m (by simp)
    unfold bodiesCount weights at *
    simp [hb, hw, hb', hw']

/-- The nodes of a body: those of its items, and of its result. -/
theorem Tracks.body (hp : Tracks l p) {result : Option Node} {code : Node}
    (h : group items result loc = .ok code) :
    code.count p = itemsCount p items + result.elim 0 (Node.count p) :=
  group_count hp.letIn hp.begin h

theorem bodiesCount_singleton : bodiesCount p [m] = m.lambda.body.count p := by
  simp [bodiesCount]

theorem weights_singleton : weights l [m] = m.weight l := by
  simp [weights]

theorem BlockCode.tally_of {b : List Stmt}
    (ih : ∀ st ∈ b, ∀ {Γ Γ' items L}, Γ.Shuns l.ref → StmtCode T Γ st items L Γ' →
      itemsCount p items + bodiesCount p L = weights l L ∧ Γ'.Shuns l.ref)
    (hΓ : Γ.Shuns l.ref) (h : BlockCode T Γ b items L Γ') :
    itemsCount p items + bodiesCount p L = weights l L ∧ Γ'.Shuns l.ref := by
  induction b generalizing Γ items L with
  | nil =>
    cases h
    exact ⟨rfl, hΓ⟩
  | cons st b ihb =>
    cases h with
    | cons hst hlast hb =>
      obtain ⟨h₁, hΓ₁⟩ := ih st (by simp) hΓ hst
      obtain ⟨h₂, hΓ₂⟩ := ihb (fun y hy => ih y (List.mem_cons_of_mem _ hy)) hΓ₁ hb
      rw [itemsCount_append, bodiesCount_append, weights_append, ← h₁, ← h₂]
      exact ⟨by omega, hΓ₂⟩

/-- In the items of a statement and in the bodies that come with them, a lambda occurs as often as
lambdas like it come with them. -/
theorem StmtCode.tally (hp : Tracks l p) (hl : IsPart T l) (st : Stmt) :
    ∀ {Γ Γ' items L}, Γ.Shuns l.ref → StmtCode T Γ st items L Γ' →
      itemsCount p items + bodiesCount p L = weights l L ∧ Γ'.Shuns l.ref := by
  have plain : ∀ {Γ e n L}, Γ.Shuns l.ref → ExprCode T Γ e n L →
      n.count p = 0 ∧ bodiesCount p L = 0 ∧ weights l L = 0 := fun hΓ h =>
    ⟨hp.clear (h.clear hl hΓ), h.tally hp hl⟩
  induction st using Stmt.ind with
  | expr sp v =>
    intro Γ Γ' items L hΓ h
    cases h with
    | expr h =>
      obtain ⟨hn, hb, hw⟩ := plain hΓ h
      exact ⟨by rw [itemsCount_singleton, Item.node, hn, hb, hw], hΓ⟩
  | assign sp ts v =>
    intro Γ Γ' items L hΓ h
    cases h with
    | assign h ha =>
      obtain ⟨hn, hb, hw⟩ := plain hΓ h
      exact ⟨by rw [itemsCount_singleton, Item.node, hn, hb, hw], hΓ.bind (hl.fresh ha)⟩
    | setItem hv ho hi ha =>
      obtain ⟨-, hb, hw⟩ := plain hΓ hv
      obtain ⟨-, hb', hw'⟩ := plain hΓ hi
      refine ⟨?_, hΓ.bind (hl.fresh ha)⟩
      rw [itemsCount_singleton, bodiesCount_append, weights_append, hb, hb', hw, hw']
      refine hp.clear (clear_invoke hl ?_)
      simp [clear_ref (hΓ _ _ ho), hi.clear hl hΓ, hv.clear hl hΓ]
  | augAssign sp t op v =>
    intro Γ Γ' items L hΓ h
    cases h with
    | augAssign hop hv ho ha =>
      obtain ⟨-, hb, hw⟩ := plain hΓ hv
      refine ⟨?_, hΓ.bind (hl.fresh ha)⟩
      rw [itemsCount_singleton, hb, hw]
      refine hp.clear (clear_invoke hl ?_)
      simp [clear_ref (hΓ _ _ ho), hv.clear hl hΓ]
  | functionDef sp f ps b ds ih =>
    intro Γ Γ' items L hΓ h
    cases h with
    | functionDef hrole hlen hlifted hb hcode ha =>
      have hne := hl.function hlifted.find hrole
      have hΔ := hl.lifted hlifted fun q hq => by
        rcases List.mem_append.1 hq with hq | hq
        · exact .inl (paramBindings_mem hq)
        · obtain rfl := List.mem_singleton.1 hq
          exact .inr hne
      obtain ⟨htally, -⟩ := hb.tally_of ih hΔ
      refine ⟨?_, hΓ.bind (hl.fresh ha)⟩
      rw [itemsCount_singleton, Item.node, hp.clear (hlifted.clear hl hΓ hne), bodiesCount_append,
        bodiesCount_singleton, hp.body hcode, weights_append, weights_singleton,
        weight_of_not_same hne, ← htally, Option.elim_none]
      omega
  | returnValue sp v =>
    intro Γ Γ' items L hΓ h
    cases h with
    | returnNone =>
      refine ⟨?_, hΓ⟩
      rw [itemsCount_singleton, Item.node, hp.clear (show Clear l (.value _ _) from rfl)]
      rfl
    | returnSome h =>
      obtain ⟨hn, hb, hw⟩ := plain hΓ h
      exact ⟨by rw [itemsCount_singleton, Item.node, hn, hb, hw], hΓ⟩
  | ifElse sp t b o ihb iho =>
    intro Γ Γ' items L hΓ h
    have own : ∀ {formals : List Symbol} {q}, q ∈ ([] : List (String × Symbol)) →
        q.2 ∈ formals ∨ q.2.same l.ref = false := fun hq => by cases hq
    cases h with
    | ifReturns ht hroles hT hb hcodeT _ hF ho hcodeF _ =>
      obtain ⟨-, hbt, hwt⟩ := plain hΓ ht
      obtain ⟨htallyT, -⟩ := hb.tally_of ihb (hl.lifted hT fun _ => own)
      obtain ⟨htallyF, -⟩ := ho.tally_of iho (hl.lifted hF fun _ => own)
      refine ⟨?_, hΓ⟩
      rw [itemsCount_singleton, Item.node, hp.branch hl hΓ (ht.clear hl hΓ) hroles hT hF]
      simp only [bodiesCount_append, weights_append, ← List.singleton_append (l := [_]),
        bodiesCount_singleton, weights_singleton, hp.body hcodeT, hp.body hcodeF, hbt, hwt,
        ← htallyT, ← htallyF, Option.elim_none]
      omega
    | ifAssigns ht hroles hT hb hsT hcodeT _ hF ho hsF hcodeF _ _ h =>
      obtain ⟨-, hbt, hwt⟩ := plain hΓ ht
      obtain ⟨htallyT, hΔT⟩ := hb.tally_of ihb (hl.lifted hT fun _ => own)
      obtain ⟨htallyF, hΔF⟩ := ho.tally_of iho (hl.lifted hF fun _ => own)
      obtain ⟨hitems, hΓ'⟩ := h.tally hp hl hΓ
      have hresT := hp.packed (hΔT.have_ hsT)
      have hresF := hp.packed (hΔF.have_ hsF)
      refine ⟨?_, hΓ'⟩
      rw [hitems, hp.branch hl hΓ (ht.clear hl hΓ) hroles hT hF]
      simp only [bodiesCount_append, weights_append, ← List.singleton_append (l := [_]),
        bodiesCount_singleton, weights_singleton, hp.body hcodeT, hp.body hcodeF, hbt, hwt,
        ← htallyT, ← htallyF, Option.elim_some, hresT, hresF]
      omega
  | whileLoop sp t b o ih =>
    intro Γ Γ' items L hΓ h
    cases h with
    | whileLoop hvars hlen hformals hΔ hexits ht hb hr hupdated hcode hroles hnext hloop hfound hinitial h =>
      rename_i formals exits inside updated code next loop initial loc L R
      have hparams := hl.not_param hformals
      have hΔ' : Ctx.Shuns _ l.ref := hΔ ▸ hl.loop hformals
      obtain ⟨-, hbt, hwt⟩ := plain hΔ' ht
      obtain ⟨htally, hΔ''⟩ := hb.tally_of ih hΔ'
      obtain ⟨hitems, hΓ'⟩ := h.tally hp hl hΓ
      have hfoundL := hfound loop (by simp)
      have hfoundN := hfound next (by simp)
      have hparamsL : loop.lambda.params = formals := by rw [hloop]
      have hparamsN : next.lambda.params = formals := by rw [hnext]
      have henter := hp.call hl hfoundL hroles.2 (hΓ.have_ hinitial)
        (by rw [hparamsL, ← hlen, hinitial.length]) loc
      have hagain := hp.call hl hfoundL hroles.2 (hΔ''.have_ hupdated)
        (by rw [hparamsL, ← hlen, hupdated.length]) loc
      have hturn := hp.turn hl hfoundN hroles.1 (ht.clear hl hΔ') (by rw [hparamsN]; exact hparams)
        (hΔ'.have_ hexits) loc
      rw [hparamsN] at hturn
      have hbodyL : loop.lambda.body.count p = next.weight l := by rw [hloop, ← hturn]
      have hbodyN := hp.body hcode
      rw [show code = next.lambda.body by rw [hnext]] at hbodyN
      refine ⟨?_, hΓ'⟩
      rw [hitems]
      simp only [bodiesCount_append, weights_append, ← List.singleton_append (l := [_]),
        bodiesCount_singleton, weights_singleton, hbodyL, hbodyN, hbt, hwt, ← htally, Option.elim_some]
      omega
  | foreign st hf =>
    intro Γ Γ' items L hΓ h
    cases h <;> simp [Stmt.isForeign] at hf

theorem BlockCode.tally {b : List Stmt} (hp : Tracks l p) (hl : IsPart T l) (hΓ : Γ.Shuns l.ref)
    (h : BlockCode T Γ b items L Γ') :
    itemsCount p items + bodiesCount p L = weights l L ∧ Γ'.Shuns l.ref :=
  h.tally_of (fun st _ => StmtCode.tally hp hl st) hΓ

theorem weights_eq_zero (h : ∀ k ∈ L, k.lambda.ref.same l.ref = false) : weights l L = 0 := by
  induction L with
  | nil => rfl
  | cons k L ih =>
    rw [← List.singleton_append, weights_append, weights_singleton,
      weight_of_not_same (h k (by simp)), ih fun k' hk => h k' (List.mem_cons_of_mem _ hk)]

/-- Among lambdas that are called differently, only a lambda itself is like it. -/
theorem weights_of_mem (hd : L.Pairwise fun k m => k.lambda.ref.same m.lambda.ref = false)
    (hm : m ∈ L) : weights m.lambda L = if m.role = .loop then 2 else 1 := by
  obtain ⟨A, B, rfl⟩ := List.append_of_mem hm
  obtain ⟨-, hB, hAB⟩ := List.pairwise_append.1 hd
  have hA : weights m.lambda A = 0 := weights_eq_zero fun k hk => hAB k hk m (by simp)
  have hB : weights m.lambda B = 0 := weights_eq_zero fun k hk => by
    rw [Symbol.same_comm]
    exact (List.pairwise_cons.1 hB).1 k hk
  rw [weights_append, ← List.singleton_append, weights_append, weights_singleton, hA, hB]
  simp [Made.weight, Symbol.same_self]

/-- The lambda of a branch does not occur in its own body. -/
theorem BodyCode.names_self (hl : IsPart T m.lambda) (hrole : m.role = .whenTrue ∨ m.role = .whenFalse)
    (hne : ∀ k ∈ L, k.lambda.ref.same m.lambda.ref = false) (h : BodyCode T m L) :
    m.lambda.body.count (Node.names m.lambda.ref) = 0 := by
  have hp := names_tracks hl.generated
  cases h with
  | lambda h =>
    obtain ⟨hrole', -⟩ := h
    simp [hrole'] at hrole
  | function hrole' => simp [hrole'] at hrole
  | returns _ hlifted hb hcode =>
    obtain ⟨htally, -⟩ := hb.tally hp hl (hl.lifted hlifted (by simp))
    rw [weights_eq_zero hne] at htally
    rw [hp.body hcode, Option.elim_none]
    omega
  | assigns _ hlifted hb hsyms hcode =>
    obtain ⟨htally, hΔ⟩ := hb.tally hp hl (hl.lifted hlifted (by simp))
    rw [weights_eq_zero hne] at htally
    rw [hp.body hcode, Option.elim_some, hp.packed (hΔ.have_ hsyms)]
    omega
  | next h => simp [h.roles.1] at hrole
  | loop h => simp [h.roles.2] at hrole

end Tallying

end Hoist.Lowering
