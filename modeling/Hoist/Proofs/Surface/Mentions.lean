import Hoist.Proofs.Surface.Names

/-!
# Mentioned names

The names that stand anywhere in a tree, be they read, assigned, defined or bound as parameters.
-/

namespace Hoist.Surface

mutual

/-- The names that an expression mentions. -/
def Expr.mentions : Expr → List String
  | .name _ x => [x]
  | .binary _ _ l r => l.mentions ++ r.mentions
  | .unary _ _ x => x.mentions
  | .compare _ l [(_, r)] => l.mentions ++ r.mentions
  | .call _ f args _ => f.mentions ++ allMentions args
  | .attribute _ v _ => v.mentions
  | .subscript _ v i => v.mentions ++ i.mentions
  | .slice _ a b c => optMentions a ++ optMentions b ++ optMentions c
  | .extSlice _ es | .tuple _ es => allMentions es
  | .lambda _ ps b => ps.names ++ b.mentions
  | _ => []

/-- The names that expressions mention. -/
def allMentions : List Expr → List String
  | [] => []
  | e :: es => e.mentions ++ allMentions es

/-- The names that an expression mentions, if there is one. -/
def optMentions : Option Expr → List String
  | none => []
  | some e => e.mentions

end

mutual

/-- The names that a statement mentions. -/
def Stmt.mentions : Stmt → List String
  | .expr _ v => v.mentions
  | .assign _ ts v => allMentions ts ++ v.mentions
  | .augAssign _ t _ v => t.mentions ++ v.mentions
  | .functionDef _ f ps b _ => f :: ps.names ++ blockMentions b
  | .returnValue _ v => optMentions v
  | .ifElse _ t b o => t.mentions ++ blockMentions b ++ blockMentions o
  | .whileLoop _ t b _ => t.mentions ++ blockMentions b
  | _ => []

/-- The names that statements mention. -/
def blockMentions : List Stmt → List String
  | [] => []
  | s :: ss => s.mentions ++ blockMentions ss

end

section

variable {es : List Expr} {o : Option Expr} {b : List Stmt} {x : String}

theorem append_subset_append {k l m n : List String} (h : k ⊆ m) (h' : l ⊆ n) :
    k ++ l ⊆ m ++ n :=
  List.append_subset.2
    ⟨List.subset_append_of_subset_left _ h, List.subset_append_of_subset_right _ h'⟩

theorem allReads_subset (ih : ∀ e ∈ es, e.reads ⊆ e.mentions) : allReads es ⊆ allMentions es := by
  induction es with
  | nil => exact List.Subset.refl _
  | cons e es ihs =>
    simp only [allReads, allMentions]
    exact append_subset_append (ih e (by simp))
      (ihs fun e he => ih e (List.mem_cons_of_mem _ he))

theorem optReads_subset (ih : ∀ e ∈ o, e.reads ⊆ e.mentions) : optReads o ⊆ optMentions o := by
  cases o with
  | none => exact List.Subset.refl _
  | some e => exact ih e rfl

/-- What an expression reads it mentions. -/
theorem Expr.reads_subset (e : Expr) : e.reads ⊆ e.mentions := by
  induction e using Expr.ind with
  | name sp x => exact List.Subset.refl _
  | constant sp v => exact List.Subset.refl _
  | binary sp op l r ihl ihr => exact append_subset_append ihl ihr
  | unary sp op x ih => exact ih
  | compare sp l op r ihl ihr => exact append_subset_append ihl ihr
  | chain sp l rest hlen =>
    rcases rest with - | ⟨r, - | ⟨_, _⟩⟩
    · exact List.Subset.refl _
    · exact absurd rfl hlen
    · exact List.Subset.refl _
  | call sp f args ks ihf ihargs =>
    simp only [reads, mentions]
    exact List.append_subset.2 ⟨fun x hx => List.mem_append_right _ (allReads_subset ihargs hx),
      fun x hx => List.mem_append_left _ (ihf hx)⟩
  | attr sp v a ih => exact ih
  | subscript sp v i ihv ihi => exact append_subset_append ihv ihi
  | slice sp a b c iha ihb ihc =>
    exact append_subset_append
      (append_subset_append (optReads_subset iha) (optReads_subset ihb)) (optReads_subset ihc)
  | extSlice sp es ih => exact allReads_subset ih
  | tuple sp es ih => exact allReads_subset ih
  | lambda sp ps b ih =>
    intro x hx
    simp only [reads, List.mem_filter] at hx
    exact List.mem_append_right _ (ih hx.1)
  | foreign e hf => cases e <;> simp [Expr.isForeign] at hf <;> exact List.Subset.refl _

theorem blockAssigns_subset (ih : ∀ s ∈ b, s.assigns ⊆ s.mentions) :
    blockAssigns b ⊆ blockMentions b := by
  induction b with
  | nil => exact List.Subset.refl _
  | cons s b ihb =>
    simp only [blockAssigns, blockMentions]
    exact append_subset_append (ih s (by simp))
      (ihb fun s hs => ih s (List.mem_cons_of_mem _ hs))

/-- What a statement assigns it mentions. -/
theorem Stmt.assigns_subset (s : Stmt) : s.assigns ⊆ s.mentions := by
  induction s using Stmt.ind with
  | assign sp ts v =>
    unfold assigns
    split <;> simp_all [mentions, allMentions, Expr.mentions]
  | augAssign sp t op v =>
    unfold assigns
    split <;> simp_all [mentions, Expr.mentions]
  | ifElse sp t b o ihb iho =>
    intro x hx
    simp only [assigns] at hx
    split at hx
    · cases hx
    · exact List.mem_append_left _ (List.mem_append_right _ (blockAssigns_subset ihb hx))
  | whileLoop sp t b o ih =>
    exact fun x hx => List.mem_append_right _ (blockAssigns_subset ih hx)
  | foreign s hf => cases s <;> simp [Stmt.isForeign] at hf <;> exact List.nil_subset _
  | _ => exact List.nil_subset _

theorem blockReads_subset (ih : ∀ s ∈ b, s.reads ⊆ s.mentions) :
    blockReads b ⊆ blockMentions b := by
  induction b with
  | nil => exact List.Subset.refl _
  | cons s b ihb =>
    simp only [blockReads, blockMentions]
    exact append_subset_append (ih s (by simp)) fun x hx =>
      ihb (fun s hs => ih s (List.mem_cons_of_mem _ hs)) (List.mem_filter.1 hx).1

/-- What a statement reads it mentions. -/
theorem Stmt.reads_subset (s : Stmt) : s.reads ⊆ s.mentions := by
  induction s using Stmt.ind with
  | expr sp v => exact v.reads_subset
  | assign sp ts v =>
    have hv := v.reads_subset
    rcases ts with - | ⟨t, - | ⟨t', ts⟩⟩
    · exact List.nil_subset _
    · cases t with
      | name sp x => exact List.subset_append_of_subset_right _ hv
      | subscript sp o i =>
        cases o with
        | name sp x =>
          have hi := i.reads_subset
          simp only [reads, mentions, allMentions, Expr.mentions, List.append_nil]
          intro y hy
          simp only [List.mem_append, List.mem_cons, List.not_mem_nil, or_false] at hy ⊢
          rcases hy with hy | rfl | hy
          · exact .inr (hv hy)
          · exact .inl (.inl rfl)
          · exact .inl (.inr (hi hy))
        | _ => exact List.nil_subset _
      | _ => exact List.nil_subset _
    · cases t with
      | subscript sp o i => cases o <;> exact List.nil_subset _
      | _ => exact List.nil_subset _
  | augAssign sp t op v =>
    cases t with
    | name sp x =>
      simp only [reads, mentions, Expr.mentions]
      exact List.append_subset.2 ⟨List.subset_append_of_subset_right _ v.reads_subset,
        List.subset_append_left _ _⟩
    | _ => exact List.nil_subset _
  | functionDef sp f ps b ds ih =>
    intro x hx
    simp only [reads, List.mem_filter] at hx
    exact List.mem_append_right _ (blockReads_subset ih hx.1)
  | returnValue sp v => exact optReads_subset fun e _ => e.reads_subset
  | ifElse sp t b o ihb iho =>
    exact append_subset_append
      (append_subset_append t.reads_subset (blockReads_subset ihb)) (blockReads_subset iho)
  | whileLoop sp t b o ih =>
    simp only [reads, mentions, List.append_subset]
    exact ⟨⟨fun x hx => List.mem_append_left _ (t.reads_subset hx),
      fun x hx => List.mem_append_right _ (blockReads_subset ih hx)⟩,
      fun x hx => List.mem_append_right _
        (blockAssigns_subset (fun s _ => s.assigns_subset) hx)⟩
  | foreign s hf => cases s <;> simp [Stmt.isForeign] at hf <;> exact List.nil_subset _

theorem blockReads_mentioned (b : List Stmt) : blockReads b ⊆ blockMentions b :=
  blockReads_subset fun s _ => s.reads_subset

theorem blockAssigns_mentioned (b : List Stmt) : blockAssigns b ⊆ blockMentions b :=
  blockAssigns_subset fun s _ => s.assigns_subset

end

end Hoist.Surface
