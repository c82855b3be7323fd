import Hoist.Literal
import Mathlib.Tactic.Common

/-!
# Values and the world of a program

Programs compute with literals, tuples, functions of their own and values of the world around them.
The world is a parameter: its globals and builtins are partial functions of which nothing is known but
that they treat the functions of a program as opaque. They may pass a function on, drop it or store
it; they neither call it nor look into it. Said once and for all, this is naturality: renaming the
functions of the arguments renames those of the result.
-/

namespace Hoist

/-- A value over the atoms of a world and the functions of a language. -/
inductive Value (α φ : Type)
  | lit (l : Literal)
  | atom (a : α)
  | tuple (vs : List (Value α φ))
  | fn (f : φ)

namespace Value

variable {α φ ψ : Type}

mutual

/-- A value with other functions in the place of its own. -/
def map (g : φ → ψ) : Value α φ → Value α ψ
  | .lit l => .lit l
  | .atom a => .atom a
  | .tuple vs => .tuple (maps g vs)
  | .fn f => .fn (g f)

/-- Values with other functions in the place of their own. -/
def maps (g : φ → ψ) : List (Value α φ) → List (Value α ψ)
  | [] => []
  | v :: vs => map g v :: maps g vs

end

@[simp] theorem maps_eq (g : φ → ψ) (vs : List (Value α φ)) : maps g vs = vs.map (map g) := by
  induction vs with
  | nil => rfl
  | cons v vs ih => simp [maps, ih]

/-- Induction along a value. -/
theorem ind {P : Value α φ → Prop} (lit : ∀ l, P (.lit l)) (atom : ∀ a, P (.atom a))
    (tuple : ∀ vs, (∀ v ∈ vs, P v) → P (.tuple vs)) (fn : ∀ f, P (.fn f)) (v : Value α φ) : P v :=
  match v with
  | .lit l => lit l
  | .atom a => atom a
  | .tuple vs => tuple vs fun v _ => ind lit atom tuple fn v
  | .fn f => fn f

/-- A value without functions, among the values of any language. -/
def lift (v : Value α Empty) : Value α φ := v.map Empty.elim

mutual

/-- The value as one without functions, if it holds none. -/
def plain? : Value α φ → Option (Value α Empty)
  | .lit l => some (.lit l)
  | .atom a => some (.atom a)
  | .tuple vs => (plains? vs).map .tuple
  | .fn _ => none

/-- The values as ones without functions, if they hold none. -/
def plains? : List (Value α φ) → Option (List (Value α Empty))
  | [] => some []
  | v :: vs => do
    let v ← plain? v
    let vs ← plains? vs
    return v :: vs

end

section

variable (g : φ → ψ) (v : Value α Empty) (vs : List (Value α Empty))

theorem lift_map : (v.lift : Value α φ).map g = v.lift := by
  unfold lift
  induction v using ind with
  | tuple vs ih =>
    simp only [map, maps_eq, List.map_map]
    exact congrArg _ (List.map_congr_left ih)
  | fn f => exact f.elim
  | _ => rfl

theorem plains?_map {us : List (Value α φ)} (ih : ∀ u ∈ us, (u.map g).plain? = u.plain?) :
    plains? (us.map (map g)) = plains? us := by
  induction us with
  | nil => rfl
  | cons u us ihs =>
    rw [List.map_cons, plains?, plains?, ih u (by simp),
      ihs fun w hw => ih w (List.mem_cons_of_mem _ hw)]

/-- Whether a value is plain does not depend on what its functions are. -/
theorem plain?_map (u : Value α φ) : (u.map g).plain? = u.plain? := by
  induction u using ind with
  | tuple us ih => simp only [map, maps_eq, plain?, plains?_map g ih]
  | _ => rfl

theorem plains?_lift {us : List (Value α Empty)}
    (ih : ∀ u ∈ us, (u.lift : Value α φ).plain? = some u) :
    plains? (us.map lift : List (Value α φ)) = some us := by
  induction us with
  | nil => rfl
  | cons u us ihs =>
    rw [List.map_cons, plains?, ih u (by simp), ihs fun w hw => ih w (List.mem_cons_of_mem _ hw)]
    rfl

/-- A value without functions is plain. -/
theorem plain?_lift : (v.lift : Value α φ).plain? = some v := by
  induction v using ind with
  | tuple us ih =>
    have hus : plains? (us.map (map Empty.elim) : List (Value α φ)) = some us := plains?_lift ih
    simp only [lift, map, maps_eq, plain?, hus]
    rfl
  | fn f => exact f.elim
  | _ => rfl

end

end Value

/-- A partial function of values that treats functions among them as opaque. -/
structure Primitive (α : Type) where
  run : {φ : Type} → List (Value α φ) → Option (Value α φ)
  run_map : ∀ {φ ψ : Type} (g : φ → ψ) (vs : List (Value α φ)),
    run (vs.map (·.map g)) = (run vs).map (·.map g)

/-- A partial function of values without functions: of others it makes nothing. -/
def Primitive.ofPlain {α : Type} (f : List (Value α Empty) → Option (Value α Empty)) : Primitive α where
  run vs := ((Value.plains? vs).bind f).map Value.lift
  run_map g vs := by
    rw [Value.plains?_map g fun v _ => v.plain?_map g, Option.map_map]
    exact congrArg (Option.map · _) (funext fun v => (v.lift_map g).symm)

/-- Any partial function at all of such values is a primitive. -/
theorem Primitive.ofPlain_run {α φ : Type} (f : List (Value α Empty) → Option (Value α Empty))
    (vs : List (Value α Empty)) :
    (ofPlain f).run (vs.map (.lift : _ → Value α φ)) = (f vs).map .lift := by
  change ((Value.plains? _).bind f).map _ = _
  rw [Value.plains?_lift fun v _ => v.plain?_lift]
  rfl

/-- What a program finds around it. -/
structure World (α : Type) where
  /-- The value of a global. -/
  global : String → Option (Value α Empty)
  builtin : String → Primitive α
  /-- The call of a value, the first argument, that is no function of the program. -/
  call : Primitive α
  /-- The truth of a value in a test. -/
  truth : {φ : Type} → Value α φ → Option Bool
  truth_map : ∀ {φ ψ : Type} (g : φ → ψ) (v : Value α φ), truth (v.map g) = truth v

namespace World

variable {α φ : Type} (W : World α)

/-- A world of partial functions that are defined on values without functions only. -/
def ofPlain (global : String → Option (Value α Empty))
    (builtin : String → List (Value α Empty) → Option (Value α Empty))
    (call : List (Value α Empty) → Option (Value α Empty)) (truth : Value α Empty → Option Bool) :
    World α where
  global := global
  builtin name := .ofPlain (builtin name)
  call := .ofPlain call
  truth v := v.plain?.bind truth
  truth_map g v := by rw [v.plain?_map g]

/-- The item of a tuple at an index that lies in it. -/
def item? : List (Value α φ) → Option (Value α φ)
  | [.tuple vs, .lit (.int i)] => if 0 ≤ i.toInt then vs[i.toInt.toNat]? else none
  | _ => none

/-- A builtin at work: `index` of a tuple projects, all else is left to the world. -/
def apply (name : String) (vs : List (Value α φ)) : Option (Value α φ) :=
  if name = "index" then (item? vs).or ((W.builtin name).run vs) else (W.builtin name).run vs

end World

end Hoist
