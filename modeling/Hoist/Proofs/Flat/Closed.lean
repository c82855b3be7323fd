import Hoist.Flat.Table
import Mathlib.Tactic.Common

/-!
# Closed code

Code is closed over a scope when every generated symbol it refers to is in the scope, or bound by a
`let` around the reference and before it, or called so by a lambda of the table. The values of a `let`
must moreover mention neither the symbol they are bound to nor one that is bound behind them.
-/

namespace Hoist.Flat

namespace Symbol

@[simp] theorem same_self (a : Symbol) : a.same a = true := by
  simp [same]

theorem same_comm (a b : Symbol) : a.same b = b.same a := by
  unfold same
  rw [Bool.or_comm, Bool.beq_comm, Bool.beq_comm (a := a.space), Bool.beq_comm (a := a.name)]

/-- A generated symbol is known by its number. -/
theorem same_of_generated {a b : Symbol} (h : b.isGenerated = true) :
    a.same b = (a.token == b.token) := by
  simp [same, h]

/-- A symbol without a number is no generated one. -/
theorem not_same_of_plain {a b : Symbol} (ha : a.isGenerated = true) (hb : b.isGenerated = false) :
    b.same a = false := by
  rw [same_of_generated ha, beq_eq_false_iff_ne]
  intro he
  simp only [isGenerated, he] at ha hb
  rw [ha] at hb
  cases hb

end Symbol

namespace Node

mutual

/-- Whether a node refers to a symbol, by itself or as the function of a closure. -/
def mentions (a : Symbol) : Node → Bool
  | .ref _ s => s.same a
  | .value .. => false
  | .tuple _ es => anyMentions a es
  | .apply _ f args _ => f.mentions a || anyMentions a args
  | .letIn _ bs b => bindingMentions a bs || b.mentions a
  | .begin _ ss => anyMentions a ss
  | .closure _ f args => f.same a || anyMentions a args

/-- Whether one of some nodes refers to a symbol. -/
def anyMentions (a : Symbol) : List Node → Bool
  | [] => false
  | n :: ns => n.mentions a || anyMentions a ns

/-- Whether the value of one of some bindings refers to a symbol. -/
def bindingMentions (a : Symbol) : List (Symbol × Node) → Bool
  | [] => false
  | (_, n) :: bs => n.mentions a || bindingMentions a bs

end

end Node

/-- Whether a symbol may be referred to: it is not generated, or it is in scope, or the name of a
lambda. -/
def known (T : Table) (scope : List Symbol) (s : Symbol) : Bool :=
  !s.isGenerated || scope.any (·.same s) || T.contains s

mutual

/-- Whether a node refers to nothing but what is known, each `let` binding in order. -/
def Node.isClosed (T : Table) (scope : List Symbol) : Node → Bool
  | .ref _ s => known T scope s
  | .value .. => true
  | .tuple _ es => allClosed T scope es
  | .apply _ f args _ => f.isClosed T scope && allClosed T scope args
  | .letIn _ bs b => bindingsClosed T scope bs && b.isClosed T (scope ++ bs.map (·.1))
  | .begin _ ss => allClosed T scope ss
  | .closure _ f args => known T scope f && allClosed T scope args

/-- Whether nodes refer to nothing but what is known. -/
def allClosed (T : Table) (scope : List Symbol) : List Node → Bool
  | [] => true
  | n :: ns => n.isClosed T scope && allClosed T scope ns

/-- Whether the values of bindings refer to what is known before them, and mention neither their own
symbol nor a later one. -/
def bindingsClosed (T : Table) (scope : List Symbol) : List (Symbol × Node) → Bool
  | [] => true
  | (s, n) :: bs =>
    n.isClosed T scope && !n.mentions s && bs.all (!n.mentions ·.1) &&
      bindingsClosed T (scope ++ [s]) bs

end

/-- Whether the body of a lambda is closed over its parameters. -/
def Lambda.isClosed (T : Table) (l : Lambda) : Bool := l.body.isClosed T l.params

mutual

/-- Whether a node without `let` refers only to symbols with a property. -/
def Node.isOver (p : Symbol → Bool) : Node → Bool
  | .ref _ s => p s
  | .value .. => true
  | .tuple _ es => allOver p es
  | .apply _ f args _ => f.isOver p && allOver p args
  | .letIn .. => false
  | .begin _ ss => allOver p ss
  | .closure _ f args => p f && allOver p args

/-- Whether nodes without `let` refer only to symbols with a property. -/
def allOver (p : Symbol → Bool) : List Node → Bool
  | [] => true
  | n :: ns => n.isOver p && allOver p ns

end

namespace Node

mutual

/-- What holds of the symbols of a node follows from what is stronger. -/
theorem isOver_imp {p q : Symbol → Bool} (hpq : ∀ s, p s = true → q s = true) :
    ∀ {n : Node}, n.isOver p = true → n.isOver q = true
  | .ref .., h => by simpa [isOver] using hpq _ h
  | .value .., _ => by simp [isOver]
  | .tuple .., h => by
    simp only [isOver] at h
    simpa [isOver] using allOver_imp hpq h
  | .apply .., h => by
    simp only [isOver, Bool.and_eq_true] at h
    simpa [isOver] using ⟨isOver_imp hpq h.1, allOver_imp hpq h.2⟩
  | .letIn .., h => by simp [isOver] at h
  | .begin .., h => by
    simp only [isOver] at h
    simpa [isOver] using allOver_imp hpq h
  | .closure .., h => by
    simp only [isOver, Bool.and_eq_true] at h
    simpa [isOver] using ⟨hpq _ h.1, allOver_imp hpq h.2⟩

theorem allOver_imp {p q : Symbol → Bool} (hpq : ∀ s, p s = true → q s = true) :
    ∀ {ns : List Node}, allOver p ns = true → allOver q ns = true
  | [], _ => by simp [allOver]
  | _ :: _, h => by
    simp only [allOver, Bool.and_eq_true] at h
    simpa [allOver] using ⟨isOver_imp hpq h.1, allOver_imp hpq h.2⟩

end

mutual

theorem isClosed_of_isOver {T : Table} {scope : List Symbol} :
    ∀ {n : Node}, n.isOver (known T scope) = true → n.isClosed T scope = true
  | .ref .., h => by simpa [isOver, isClosed] using h
  | .value .., _ => by simp [isClosed]
  | .tuple .., h => by
    simp only [isOver] at h
    simpa [isClosed] using allClosed_of_allOver h
  | .apply .., h => by
    simp only [isOver, Bool.and_eq_true] at h
    simpa [isClosed] using ⟨isClosed_of_isOver h.1, allClosed_of_allOver h.2⟩
  | .letIn .., h => by simp [isOver] at h
  | .begin .., h => by
    simp only [isOver] at h
    simpa [isClosed] using allClosed_of_allOver h
  | .closure .., h => by
    simp only [isOver, Bool.and_eq_true] at h
    simpa [isClosed] using ⟨h.1, allClosed_of_allOver h.2⟩

theorem allClosed_of_allOver {T : Table} {scope : List Symbol} :
    ∀ {ns : List Node}, allOver (known T scope) ns = true → allClosed T scope ns = true
  | [], _ => by simp [allClosed]
  | _ :: _, h => by
    simp only [allOver, Bool.and_eq_true] at h
    simpa [allClosed] using ⟨isClosed_of_isOver h.1, allClosed_of_allOver h.2⟩

end

mutual

/-- What is referred to only by symbols other than one is not that one. -/
theorem not_mentions_of_isOver {p : Symbol → Bool} {a : Symbol}
    (hp : ∀ s, p s = true → s.same a = false) :
    ∀ {n : Node}, n.isOver p = true → n.mentions a = false
  | .ref .., h => by simpa [mentions] using hp _ h
  | .value .., _ => by simp [mentions]
  | .tuple .., h => by
    simp only [isOver] at h
    simpa [mentions] using not_anyMentions_of_allOver hp h
  | .apply .., h => by
    simp only [isOver, Bool.and_eq_true] at h
    simpa [mentions] using ⟨not_mentions_of_isOver hp h.1, not_anyMentions_of_allOver hp h.2⟩
  | .letIn .., h => by simp [isOver] at h
  | .begin .., h => by
    simp only [isOver] at h
    simpa [mentions] using not_anyMentions_of_allOver hp h
  | .closure .., h => by
    simp only [isOver, Bool.and_eq_true] at h
    simpa [mentions] using ⟨hp _ h.1, not_anyMentions_of_allOver hp h.2⟩

theorem not_anyMentions_of_allOver {p : Symbol → Bool} {a : Symbol}
    (hp : ∀ s, p s = true → s.same a = false) :
    ∀ {ns : List Node}, allOver p ns = true → anyMentions a ns = false
  | [], _ => by simp [anyMentions]
  | _ :: _, h => by
    simp only [allOver, Bool.and_eq_true] at h
    simpa [anyMentions] using ⟨not_mentions_of_isOver hp h.1, not_anyMentions_of_allOver hp h.2⟩

end

end Node

theorem allOver_iff {p : Symbol → Bool} {ns : List Node} :
    allOver p ns = true ↔ ∀ n ∈ ns, n.isOver p = true := by
  induction ns with
  | nil => simp [allOver]
  | cons n ns ih => simp [allOver, ih]

end Hoist.Flat
