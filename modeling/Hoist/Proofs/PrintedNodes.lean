import Hoist.Proofs.Flat.SymbolTexts

/-!
# Printed flat code

The text of a node tells the node up to the places it came from: whatever stands in its strings, two
nodes of one text have the same shape, the same constants and the same variables.
-/

namespace Hoist.Flat.Node

mutual

/-- Whether the symbols of a node are printable, and its constants no doubles. -/
def Printable : Node → Prop
  | .ref _ s => s.Printable
  | .value _ v => v.isDouble = false
  | .tuple _ es | .begin _ es => AllPrintable es
  | .apply _ f as _ => f.Printable ∧ AllPrintable as
  | .letIn _ bs b => BindingsPrintable bs ∧ b.Printable
  | .closure _ f as => f.Printable ∧ AllPrintable as

/-- Several printable nodes. -/
def AllPrintable : List Node → Prop
  | [] => True
  | n :: ns => n.Printable ∧ AllPrintable ns

/-- Printable bindings. -/
def BindingsPrintable : List (Symbol × Node) → Prop
  | [] => True
  | (s, n) :: rest => s.Printable ∧ n.Printable ∧ BindingsPrintable rest

end

mutual

/-- Whether two nodes are one tree, wherever they came from: symbols count as the variables they are. -/
def same : Node → Node → Bool
  | .ref _ s, .ref _ t => s.same t
  | .value _ v, .value _ w => v == w
  | .tuple _ es, .tuple _ fs => allSame es fs
  | .apply _ f as safe, .apply _ g bs safe' => same f g && allSame as bs && safe == safe'
  | .letIn _ bs b, .letIn _ cs c => bindingsSame bs cs && same b c
  | .begin _ ss, .begin _ ts => allSame ss ts
  | .closure _ f as, .closure _ g bs => f.same g && allSame as bs
  | _, _ => false

/-- Whether two lists of nodes are the same node by node. -/
def allSame : List Node → List Node → Bool
  | [], [] => true
  | n :: ns, m :: ms => same n m && allSame ns ms
  | _, _ => false

/-- Whether two lists of bindings are the same, symbols and nodes. -/
def bindingsSame : List (Symbol × Node) → List (Symbol × Node) → Bool
  | [], [] => true
  | (s, n) :: bs, (t, m) :: cs => s.same t && same n m && bindingsSame bs cs
  | _, _ => false

end

variable {n m : Node} {ns ms : List Node} {bs cs : List (Symbol × Node)} {s : Symbol}

theorem legible_symbol (h : s.Printable) : Sexp.Legible (.atom s.write) := .plain h.plain

/-- A word in front of a list of nodes is a plain atom. -/
theorem legible_word {a : String} (h : a ∈ ["tuple", "apply", "apply!", "let", "begin", "closure"]) :
    Sexp.Legible (.atom a) := by
  simp only [List.mem_cons, List.not_mem_nil, or_false] at h
  rcases h with rfl | rfl | rfl | rfl | rfl | rfl <;> exact .plain (.of_all (by decide) rfl)

mutual

theorem Printable.legible : ∀ {n : Node}, n.Printable → Sexp.Legible n.sexp
  | .ref _ s, h => legible_symbol h
  | .value _ v, h => Literal.legible h
  | .tuple _ es, h => ⟨legible_word (by decide), AllPrintable.legible h⟩
  | .apply _ f as safe, h => by
    refine ⟨legible_word ?_, h.1.legible, AllPrintable.legible h.2⟩
    cases safe <;> decide
  | .letIn _ bs b, h =>
    ⟨legible_word (by decide), BindingsPrintable.legible h.1, h.2.legible, trivial⟩
  | .begin _ ss, h => ⟨legible_word (by decide), AllPrintable.legible h⟩
  | .closure _ f as, h => ⟨legible_word (by decide), legible_symbol h.1, AllPrintable.legible h.2⟩

theorem AllPrintable.legible : ∀ {ns : List Node}, AllPrintable ns → Sexp.AllLegible (sexps ns)
  | [], _ => trivial
  | _ :: _, h => ⟨h.1.legible, AllPrintable.legible h.2⟩

theorem BindingsPrintable.legible : ∀ {bs : List (Symbol × Node)}, BindingsPrintable bs →
    Sexp.AllLegible (bindingSexps bs)
  | [], _ => trivial
  | (_, _) :: _, h => ⟨⟨legible_symbol h.1, h.2.1.legible, trivial⟩, BindingsPrintable.legible h.2.2⟩

end

theorem head_inj {a b : String} {xs ys : List Sexp}
    (h : Sexp.list (.atom a :: xs) = .list (.atom b :: ys)) : a = b :=
  Sexp.atom.inj (List.cons.inj (Sexp.list.inj h)).1

/-- The word in front of a call tells whether it can fail. -/
theorem applyWord_inj {safe safe' : Bool}
    (h : (if safe then "apply!" else "apply") = if safe' then "apply!" else "apply") : safe = safe' := by
  cases safe <;> cases safe' <;> first | rfl | exact absurd h (by decide)

theorem applyWord_ne {a : String} {safe : Bool} (ha : a ≠ "apply" ∧ a ≠ "apply!") :
    a ≠ if safe then "apply!" else "apply" := by
  cases safe
  · exact ha.1
  · exact ha.2

mutual

/-- The s-expression of a node tells the node up to places. -/
theorem same_of_sexp : ∀ {n m : Node}, n.Printable → m.Printable → n.sexp = m.sexp →
    n.same m = true
  | .ref _ s, m, hn, hm, h => by
    cases m with
    | ref _ t => exact Symbol.Printable.same hn hm (Sexp.atom.inj h)
    | value _ w => exact absurd (Sexp.atom.inj h) (Literal.write_ne_symbol hm hn)
    | _ => cases h
  | .value _ v, m, hn, hm, h => by
    cases m with
    | ref _ t => exact absurd (Sexp.atom.inj h).symm (Literal.write_ne_symbol hn hm)
    | value _ w => rw [same, Literal.write_inj hn hm (Sexp.atom.inj h), beq_self_eq_true]
    | _ => cases h
  | .tuple _ es, m, hn, hm, h => by
    cases m with
    | tuple _ fs => exact allSame_of_sexps hn hm (List.cons.inj (Sexp.list.inj h)).2
    | apply => exact absurd (head_inj h) (applyWord_ne (by decide))
    | letIn | begin | closure => exact absurd (head_inj h) (by decide)
    | _ => cases h
  | .apply _ f as safe, m, hn, hm, h => by
    cases m with
    | apply _ g bs safe' =>
      obtain ⟨hf, has⟩ := List.cons.inj (List.cons.inj (Sexp.list.inj h)).2
      simp [same, same_of_sexp hn.1 hm.1 hf, allSame_of_sexps hn.2 hm.2 has,
        applyWord_inj (head_inj h)]
    | tuple | letIn | begin | closure => exact absurd (head_inj h).symm (applyWord_ne (by decide))
    | _ => cases h
  | .letIn _ bs b, m, hn, hm, h => by
    cases m with
    | letIn _ cs c =>
      obtain ⟨hbs, hb⟩ := List.cons.inj (List.cons.inj (Sexp.list.inj h)).2
      simp [same, bindingsSame_of_sexps hn.1 hm.1 (Sexp.list.inj hbs),
        same_of_sexp hn.2 hm.2 (List.cons.inj hb).1]
    | apply => exact absurd (head_inj h) (applyWord_ne (by decide))
    | tuple | begin | closure => exact absurd (head_inj h) (by decide)
    | _ => cases h
  | .begin _ ss, m, hn, hm, h => by
    cases m with
    | begin _ ts => exact allSame_of_sexps hn hm (List.cons.inj (Sexp.list.inj h)).2
    | apply => exact absurd (head_inj h) (applyWord_ne (by decide))
    | tuple | letIn | closure => exact absurd (head_inj h) (by decide)
    | _ => cases h
  | .closure _ f as, m, hn, hm, h => by
    cases m with
    | closure _ g bs =>
      obtain ⟨hf, has⟩ := List.cons.inj (List.cons.inj (Sexp.list.inj h)).2
      simp [same, hn.1.same hm.1 (Sexp.atom.inj hf), allSame_of_sexps hn.2 hm.2 has]
    | apply => exact absurd (head_inj h) (applyWord_ne (by decide))
    | tuple | letIn | begin => exact absurd (head_inj h) (by decide)
    | _ => cases h

theorem allSame_of_sexps : ∀ {ns ms : List Node}, AllPrintable ns → AllPrintable ms →
    sexps ns = sexps ms → allSame ns ms = true
  | [], [], _, _, _ => rfl
  | [], _ :: _, _, _, h => nomatch h
  | _ :: _, [], _, _, h => nomatch h
  | n :: ns, m :: ms, hn, hm, h => by
    obtain ⟨hnode, hnodes⟩ := List.cons.inj h
    simp [allSame, same_of_sexp hn.1 hm.1 hnode, allSame_of_sexps hn.2 hm.2 hnodes]

theorem bindingsSame_of_sexps : ∀ {bs cs : List (Symbol × Node)}, BindingsPrintable bs →
    BindingsPrintable cs → bindingSexps bs = bindingSexps cs → bindingsSame bs cs = true
  | [], [], _, _, _ => rfl
  | [], (_, _) :: _, _, _, h => nomatch h
  | (_, _) :: _, [], _, _, h => nomatch h
  | (s, n) :: bs, (t, m) :: cs, hb, hc, h => by
    obtain ⟨hbinding, hbindings⟩ := List.cons.inj h
    obtain ⟨hsymbol, hnode⟩ := List.cons.inj (Sexp.list.inj hbinding)
    simp [bindingsSame, hb.1.same hc.1 (Sexp.atom.inj hsymbol),
      same_of_sexp hb.2.1 hc.2.1 (List.cons.inj hnode).1, bindingsSame_of_sexps hb.2.2 hc.2.2 hbindings]

end

/-- Printing loses nothing but places: two nodes with the same text are the same tree, with the same
variables at the same places in it. -/
theorem printed_same (hn : n.Printable) (hm : m.Printable) (h : n.sexp.write = m.sexp.write) :
    n.same m = true :=
  same_of_sexp hn hm (Sexp.write_inj hn.legible hm.legible h)

/-- A string with a bracket, a quote and blanks in it is bound, and a builtin is applied to it. -/
def boundString (loc : Option Location) : Node :=
  .letIn loc [(⟨3, "x/then", .local_, "then"⟩, .value none (.string "a) (b' \\"))]
    (.apply none (.ref loc (.builtin "_f1")) [.ref none ⟨3, "x/then", .local_, "then"⟩] true)

theorem boundString_printable (loc : Option Location) : (boundString loc).Printable := by
  have hvariable : Symbol.Printable ⟨3, "x/then", .local_, "then"⟩ :=
    ⟨⟨'x', rfl, .inl rfl⟩, Symbol.Printable.chars_of_all rfl, .inl rfl, by decide⟩
  have hbuiltin : Symbol.Printable (.builtin "_f1") :=
    ⟨⟨'_', rfl, .inr rfl⟩, Symbol.Printable.chars_of_all rfl, .inr (by decide), by decide⟩
  exact ⟨⟨hvariable, rfl, trivial⟩, hbuiltin, hvariable, trivial⟩

/-- The same code from two places. -/
theorem boundString_same : ((boundString none).Printable ∧ (boundString (some default)).Printable ∧
      (boundString none).sexp.write = (boundString (some default)).sexp.write) ∧
    (boundString none).same (boundString (some default)) = true :=
  ⟨⟨boundString_printable _, boundString_printable _, rfl⟩,
    printed_same (boundString_printable _) (boundString_printable _) rfl⟩

end Hoist.Flat.Node
