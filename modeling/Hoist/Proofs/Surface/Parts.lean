import Hoist.Proofs.TextCoverage
import Hoist.Surface.Tree

/-!
# The nodes of a tree among the tokens of its text

A node of a tree has a span of its own, and its parts are the nodes right below it. `Holds` says that
some tokens hold nodes: each on tokens of its own that no other one has, at whose ends its span starts
and stops, with its parts on some of these. So the spans below a node lie in its span and are apart.
-/

namespace Hoist.Surface

/-- A node of a tree. -/
inductive Part
  | expr (e : Expr)
  | stmt (s : Stmt)
  | param (p : Param)
  | keyword (k : Keyword Expr)
  | handler (h : Handler Stmt)

/-- The nodes right below parameters. -/
def Params.nodes (ps : Params Expr) : List Part :=
  ps.positional.map .param ++ ps.vararg?.toList.map .param ++ ps.keywordOnly.map .param ++
    ps.kwarg?.toList.map .param ++ ps.defaults.map .expr ++ ps.keywordDefaults.map .expr

/-- The nodes right below a loop of a comprehension. -/
def Generator.nodes (g : Generator Expr) : List Part :=
  .expr g.target :: .expr g.iter :: g.conditions.map .expr

/-- The nodes right below an expression. -/
def Expr.nodes : Expr → List Part
  | .name .. | .constant .. => []
  | .binary _ _ l r => [.expr l, .expr r]
  | .unary _ _ x => [.expr x]
  | .boolean _ _ vs => vs.map .expr
  | .compare _ l rest => .expr l :: rest.map fun p => .expr p.2
  | .call _ f args ks => .expr f :: (args.map .expr ++ ks.map .keyword)
  | .attribute _ v _ => [.expr v]
  | .subscript _ v i => [.expr v, .expr i]
  | .slice _ a b c => (a.toList ++ b.toList ++ c.toList).map .expr
  | .extSlice _ es | .tuple _ es | .list _ es => es.map .expr
  | .dict _ entries => entries.flatMap fun p => [.expr p.1, .expr p.2]
  | .lambda _ ps b => ps.nodes ++ [.expr b]
  | .conditional _ t b o => [.expr t, .expr b, .expr o]
  | .listComp _ e gs => .expr e :: gs.flatMap Generator.nodes
  | .starred _ v => [.expr v]
  | .yield _ v => v.toList.map .expr

/-- The nodes right below a statement. -/
def Stmt.nodes : Stmt → List Part
  | .expr _ v => [.expr v]
  | .assign _ ts v => ts.map .expr ++ [.expr v]
  | .augAssign _ t _ v => [.expr t, .expr v]
  | .functionDef _ _ ps b ds => ds.map .expr ++ ps.nodes ++ b.map .stmt
  | .returnValue _ v | .raise _ v => v.toList.map .expr
  | .ifElse _ t b o | .whileLoop _ t b o => .expr t :: (b.map .stmt ++ o.map .stmt)
  | .forLoop _ t i b o => .expr t :: .expr i :: (b.map .stmt ++ o.map .stmt)
  | .tryExcept _ b hs o f =>
    b.map .stmt ++ hs.map .handler ++ o.map .stmt ++ f.map .stmt
  | .breakLoop _ | .continueLoop _ | .pass _ | .scopeDecl .. => []

namespace Part

/-- The span of a node. -/
def span : Part → Span
  | .expr e => e.span
  | .stmt s => s.span
  | .param p => p.span
  | .keyword k => k.span
  | .handler h => h.span

/-- The nodes right below a node. -/
def nodes : Part → List Part
  | .expr e => e.nodes
  | .stmt s => s.nodes
  | .param _ => []
  | .keyword k => [.expr k.value]
  | .handler h => h.type?.toList.map .expr ++ h.body.map .stmt

end Part

/-- The node that a path leads to from some nodes: each number tells which one of the nodes to go on
with, among those right below the one before. -/
def nodeAt : List Part → List Nat → Option Part
  | _, [] => none
  | ps, i :: path => ps[i]?.bind fun p => if path = [] then some p else nodeAt p.nodes path

/-- A piece of a text lies in another one. -/
def Span.Within (s t : Span) : Prop := t.start ≤ s.start ∧ s.stop ≤ t.stop

/-- Two pieces of a text have nothing in common. -/
def Span.Apart (s t : Span) : Prop := s.stop ≤ t.start ∨ t.stop ≤ s.start

/-- The first of some tokens is no layout and starts at an offset. -/
def StartsAt (tokens : List Token) (pos : Nat) : Prop :=
  ∃ t ∈ tokens.head?, t.kind.isLayout = false ∧ t.start = pos

/-- The last of some tokens that is no layout stops at an offset. -/
def StopsAt (tokens : List Token) (pos : Nat) : Prop :=
  ∃ before t after, tokens = before ++ t :: after ∧ t.kind.isLayout = false ∧
    (∀ u ∈ after, u.kind.isLayout = true) ∧ t.stop = pos

/-- Some tokens hold nodes: each one on tokens of its own, which its span covers, and of which `told`
holds. -/
inductive Holds (told : List Token → Part → Prop) : List Token → List Part → Prop
  | none (s) : Holds told s []
  | append {s s' ps ps'} (h : Holds told s ps) (h' : Holds told s' ps') :
      Holds told (s ++ s') (ps ++ ps')
  | perm {s ps ps'} (h : Holds told s ps) (hperm : ps.Perm ps') : Holds told s ps'
  | node {s p} (starts : StartsAt s p.span.start) (stops : StopsAt s p.span.stop) (tells : told s p)
      (h : Holds told s p.nodes) : Holds told s [p]

namespace Holds

variable {told : List Token → Part → Prop} {s s' front back : List Token} {ps ps' : List Part}
  {p q : Part}

theorem append_right (h : Holds told s ps) (back : List Token) : Holds told (s ++ back) ps := by
  simpa using h.append (none back)

theorem append_left (h : Holds told s ps) (front : List Token) : Holds told (front ++ s) ps := by
  simpa using (none front).append h

/-- Each of the nodes has tokens of its own among the tokens. -/
theorem mem (h : Holds told s ps) (hp : p ∈ ps) : ∃ core, core <:+: s ∧ StartsAt core p.span.start ∧
    StopsAt core p.span.stop ∧ told core p ∧ Holds told core p.nodes := by
  induction h with
  | none => cases hp
  | append h h' ih ih' =>
    rcases List.mem_append.1 hp with hp | hp
    · obtain ⟨core, hcore, hrest⟩ := ih hp
      exact ⟨core, hcore.trans (List.prefix_append _ _).isInfix, hrest⟩
    · obtain ⟨core, hcore, hrest⟩ := ih' hp
      exact ⟨core, hcore.trans (List.suffix_append _ _).isInfix, hrest⟩
  | perm h hperm ih => exact ih (hperm.mem_iff.2 hp)
  | @node s q starts stops tells h ih =>
    obtain rfl := List.mem_singleton.1 hp
    exact ⟨s, List.infix_refl s, starts, stops, tells, h⟩

/-- What a path leads to has tokens of its own among the tokens. -/
theorem nodeAt (h : Holds told s ps) {path : List Nat} (hp : nodeAt ps path = some p) :
    ∃ core, core <:+: s ∧ StartsAt core p.span.start ∧ StopsAt core p.span.stop ∧ told core p ∧
      Holds told core p.nodes := by
  induction path generalizing s ps with
  | nil => cases hp
  | cons i path ih =>
    obtain ⟨q, hq, hp⟩ := Option.bind_eq_some_iff.1 hp
    obtain ⟨core, hcore, hfound⟩ := h.mem (List.mem_of_getElem? hq)
    split at hp
    · cases hp
      exact ⟨core, hcore, hfound⟩
    · obtain ⟨core', hcore', hfound'⟩ := ih hfound.2.2.2 hp
      exact ⟨core', hcore'.trans hcore, hfound'⟩

end Holds

/-- The tokens that are no layout are pieces of the text, one behind the other. -/
structure Ordered (s : List Token) : Prop where
  pieces : ∀ t ∈ visible s, t.start < t.stop
  ordered : (visible s).Pairwise (·.stop ≤ ·.start)

/-- A span that starts and stops with tokens among some others. -/
def Span.Inside (s : List Token) (span : Span) : Prop :=
  ∃ t ∈ visible s, ∃ u ∈ visible s, t.start = span.start ∧ u.stop = span.stop

theorem mem_visible {t : Token} {s : List Token} (ht : t ∈ s) (hk : t.kind.isLayout = false) :
    t ∈ visible s :=
  List.mem_filter.2 ⟨ht, by simpa using hk⟩

namespace Ordered

variable {s s' core : List Token} {span span' : Span} {a b : Nat} {t u : Token}

theorem piece (h : Ordered s) (hcore : core <:+: s) : Ordered core := by
  have hsub : (visible core).Sublist (visible s) := hcore.sublist.filter _
  exact ⟨fun t ht => h.pieces t (hsub.subset ht), h.ordered.sublist hsub⟩

/-- A token stops behind the start of every token up to it. -/
theorem le_start (h : Ordered (s ++ s')) (ht : t ∈ visible s) (hu : u ∈ visible s') :
    t.stop ≤ u.start := by
  have hordered := h.ordered
  rw [visible_append] at hordered
  exact (List.pairwise_append.1 hordered).2.2 t ht u hu

theorem starts_le (h : Ordered s) (hstart : StartsAt s a) (hu : u ∈ visible s) : a ≤ u.start := by
  obtain ⟨t, ht, hk, rfl⟩ := hstart
  obtain ⟨s, rfl⟩ := List.head?_eq_some_iff.1 ht
  have hordered := h.ordered
  have hpieces := h.pieces t
  rw [visible_cons hk] at hordered hu hpieces
  rcases List.mem_cons.1 hu with rfl | hu
  · exact Nat.le_refl _
  · exact (hpieces List.mem_cons_self).le.trans ((List.pairwise_cons.1 hordered).1 u hu)

theorem le_stops (h : Ordered s) (hstop : StopsAt s b) (ht : t ∈ visible s) : t.stop ≤ b := by
  obtain ⟨before, u, after, rfl, hk, hafter, rfl⟩ := hstop
  have hnil : visible after = [] := List.filter_eq_nil_iff.2 fun v hv => by simp [hafter v hv]
  have hu : u ∈ visible (u :: after) := mem_visible List.mem_cons_self hk
  rw [visible_append, visible_cons hk, hnil] at ht
  rcases List.mem_append.1 ht with ht | ht
  · refine (h.le_start ht hu).trans (h.pieces u ?_).le
    rw [visible_append]
    exact List.mem_append_right _ hu
  · rw [List.mem_singleton.1 ht]

theorem inside (hcore : core <:+: s) (hstart : StartsAt core span.start) (hstop : StopsAt core span.stop) :
    span.Inside s := by
  obtain ⟨t, ht, hk, hstart⟩ := hstart
  obtain ⟨before, u, after, hcore', hk', -, hstop⟩ := hstop
  have hu : u ∈ core := by rw [hcore']; simp
  exact ⟨t, mem_visible (hcore.subset (List.mem_of_mem_head? ht)) hk, u,
    mem_visible (hcore.subset hu) hk', hstart, hstop⟩

theorem start_lt_stop (h : Ordered s) (hstart : StartsAt s a) (hstop : StopsAt s b) : a < b := by
  obtain ⟨t, ht, hk, rfl⟩ := id hstart
  have ht := mem_visible (List.mem_of_mem_head? ht) hk
  exact (h.pieces t ht).trans_le (h.le_stops hstop ht)

theorem within (h : Ordered s) (hstart : StartsAt s a) (hstop : StopsAt s b) (hspan : span.Inside s) :
    span.Within ⟨a, b⟩ := by
  obtain ⟨t, ht, u, hu, hstart', hstop'⟩ := hspan
  exact ⟨hstart' ▸ h.starts_le hstart ht, hstop' ▸ h.le_stops hstop hu⟩

end Ordered

theorem Span.Apart.within {a b c d : Span} (h : c.Apart d) (ha : a.Within c) (hb : b.Within d) :
    a.Apart b :=
  h.imp (fun h => (ha.2.trans h).trans hb.1) fun h => (hb.2.trans h).trans ha.1

namespace Holds

variable {told : List Token → Part → Prop} {s : List Token} {ps : List Part} {p q : Part}
  {path path' : List Nat}

theorem inside (h : Holds told s ps) (hp : p ∈ ps) : p.span.Inside s := by
  obtain ⟨core, hcore, hstart, hstop, -⟩ := h.mem hp
  exact Ordered.inside hcore hstart hstop

/-- The spans of nodes that some tokens hold are apart. -/
theorem apart (h : Holds told s ps) (hs : Ordered s) : ps.Pairwise fun p q => p.span.Apart q.span := by
  induction h with
  | none => exact .nil
  | @append s s' ps ps' h h' ih ih' =>
    refine List.pairwise_append.2 ⟨ih (hs.piece (List.prefix_append _ _).isInfix),
      ih' (hs.piece (List.suffix_append _ _).isInfix), fun p hp q hq => .inl ?_⟩
    obtain ⟨-, -, u, hu, -, hstop⟩ := h.inside hp
    obtain ⟨t, ht, -, -, hstart, -⟩ := h'.inside hq
    rw [← hstop, ← hstart]
    exact hs.le_start hu ht
  | perm h hperm ih => exact hperm.pairwise (ih hs) fun h => h.symm
  | node => exact List.pairwise_singleton _ _

/-- What a path leads to lies in the node that it passes first. -/
theorem within (h : Holds told s ps) (hs : Ordered s) {i : Nat} (hp : ps[i]? = some p)
    (hq : Surface.nodeAt ps (i :: path) = some q) : q.span.Within p.span := by
  obtain ⟨core, hcore, hstart, hstop, -, hnodes⟩ := h.mem (List.mem_of_getElem? hp)
  obtain ⟨r, hr, hq⟩ := Option.bind_eq_some_iff.1 hq
  obtain rfl : r = p := Option.some.inj (hr.symm.trans hp)
  split at hq
  · cases hq
    exact ⟨Nat.le_refl _, Nat.le_refl _⟩
  · obtain ⟨core', hcore', hstart', hstop', -⟩ := hnodes.nodeAt hq
    exact (hs.piece hcore).within hstart hstop (Ordered.inside hcore' hstart' hstop')

/-- A node lies in every node on the path to it. -/
theorem nodeAt_within (h : Holds told s ps) (hs : Ordered s) (hpath : path <+: path')
    (hp : Surface.nodeAt ps path = some p) (hq : Surface.nodeAt ps path' = some q) :
    q.span.Within p.span := by
  induction path generalizing s ps path' with
  | nil => cases hp
  | cons i path ih =>
    obtain ⟨rest, rfl⟩ := hpath
    obtain ⟨r, hr, hp⟩ := Option.bind_eq_some_iff.1 hp
    split at hp
    · cases hp
      exact h.within hs hr hq
    · rename_i hpath
      obtain ⟨core, hcore, -, -, -, hnodes⟩ := h.mem (List.mem_of_getElem? hr)
      obtain ⟨r', hr', hq⟩ := Option.bind_eq_some_iff.1 hq
      obtain rfl : r' = r := Option.some.inj (hr'.symm.trans hr)
      rw [if_neg (by simp [hpath])] at hq
      exact ih hnodes (hs.piece hcore) (List.prefix_append _ _) hp hq

/-- Two nodes of which neither is on the path to the other are apart. -/
theorem nodeAt_apart (h : Holds told s ps) (hs : Ordered s) (hpath : ¬ path <+: path')
    (hpath' : ¬ path' <+: path) (hp : Surface.nodeAt ps path = some p)
    (hq : Surface.nodeAt ps path' = some q) : p.span.Apart q.span := by
  induction path generalizing s ps path' with
  | nil => cases hp
  | cons i path ih =>
    cases path' with
    | nil => cases hq
    | cons j path' =>
      obtain ⟨r, hr, hp'⟩ := Option.bind_eq_some_iff.1 hp
      obtain ⟨r', hr', hq'⟩ := Option.bind_eq_some_iff.1 hq
      by_cases hij : i = j
      · subst hij
        obtain rfl : r' = r := Option.some.inj (hr'.symm.trans hr)
        rw [List.prefix_cons_inj] at hpath hpath'
        obtain ⟨core, hcore, -, -, -, hnodes⟩ := h.mem (List.mem_of_getElem? hr)
        rw [if_neg (by rintro rfl; exact hpath (List.nil_prefix))] at hp'
        rw [if_neg (by rintro rfl; exact hpath' (List.nil_prefix))] at hq'
        exact ih hnodes (hs.piece hcore) hpath hpath' hp' hq'
      · have hapart : r.span.Apart r'.span := by
          have hpairwise := List.pairwise_iff_getElem.1 (h.apart hs)
          obtain ⟨hi, rfl⟩ := List.getElem?_eq_some_iff.1 hr
          obtain ⟨hj, rfl⟩ := List.getElem?_eq_some_iff.1 hr'
          rcases Nat.lt_or_gt_of_ne hij with hlt | hlt
          · exact hpairwise i j hi hj hlt
          · exact (hpairwise j i hj hi hlt).symm
        exact hapart.within (h.within hs hr hp) (h.within hs hr' hq)

end Holds

end Hoist.Surface
